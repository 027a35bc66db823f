import TreePaths.Proofs.Yaml.Scanning
import TreePaths.Yaml.Token.Lexer

/-!
The tokens of a YAML text: the lexer stays within the text, and the fault in the place of the token
after them is one of its form, or tells of a number in it that is too large.
-/

namespace TreePaths.Yaml

namespace Lexer

/-- The step goes on in the text, and fails only where the text is to blame. -/
abbrev Lexes {α : Type} (cs : List Char) (x : Step α) : Prop :=
  Keeps (Unscanned cs) (fun x => x.source.In cs) x

def Stays {α : Type} (cs : List Char) (x : Step α) : Prop :=
  ∀ s, Keeps (Unscanned cs) (fun x => x.source = s) x

variable {cs : List Char}

theorem Stays.lexes {α : Type} {x : Step α} (h : Stays cs x) : Lexes cs x :=
  fun y hy => (h y.source y rfl).mono fun _ z (hz : z.source = y.source) =>
    show z.source.In cs from hz ▸ hy

theorem stays_emit (t : Token) : Stays cs (emit t) :=
  fun _ => .modify fun _ => id

theorem stays_allowKey (b : Bool) : Stays cs (allowKey b) :=
  fun _ => .modify fun _ => id

theorem stays_dropKey : Stays cs dropKey := by
  refine fun _ => .get_bind fun x hx => ?_
  split
  · exact .pure _
  · exact .ite (fun _ => .throw_bind (.inl rfl)) fun _ => .set hx

theorem stays_dropStaleKeys : Stays cs dropStaleKeys :=
  fun _ => .get_bind fun _ hx => .ite (fun _ => .throw_bind (.inl rfl)) fun _ => .set hx

theorem stays_saveKey : Stays cs saveKey :=
  fun s => .get_bind fun _ _ => .ite (fun _ => (stays_dropKey s).bind fun _ => .modify fun _ => id)
    fun _ => .pure _

theorem stays_unwind (column : Int) : Stays cs (unwind column) := by
  refine fun _ => .modify fun x hx => ?_
  split <;> exact hx

theorem stays_indentTo (column : Nat) : Stays cs (indentTo column) :=
  fun _ => .get_bind fun _ hx => .ite (fun _ => .set_bind hx (.pure _)) fun _ => .pure _

theorem stays_openBlock (t : Token) : Stays cs (openBlock t) :=
  fun s => .get_bind fun x _ => (stays_indentTo x.source.column s).bind fun _ =>
    .ite (fun _ => stays_emit t s) fun _ => .pure _

theorem stays_needsMore : Stays cs needsMore := by
  refine fun s => .get_bind fun _ _ => .ite (fun _ => .pure _) fun _ => .get_bind fun _ _ => ?_
  refine .ite (fun _ => .pure _) fun _ => (stays_dropStaleKeys s).bind fun _ => ?_
  exact .get_bind fun _ _ => .pure _

theorem lexes_setSource {s : Source} (h : s.In cs) : Lexes cs (setSource s) :=
  .modify fun _ _ => h

theorem lexes_take (n : Nat) (t : Token) : Lexes cs (take n t) :=
  .modify_bind (fun _ hx => hx.forward n) ((stays_emit t).lexes)

theorem lexes_skipToToken (fuel : Nat) : Lexes cs (skipToToken fuel) := by
  induction fuel with
  | zero => exact .pure _
  | succ fuel ih =>
    refine .get_bind fun x hx => ?_
    refine (lexes_setSource hx.skipSpaces.skipComment.lineBreak).bind fun _ => ?_
    refine .ite (fun _ => .ite (fun _ => ?_) fun _ => ih) fun _ => .pure _
    exact (stays_allowKey true).lexes.bind fun _ => ih

theorem lexes_streamEnd : Lexes cs streamEnd := by
  refine (stays_unwind _).lexes.bind fun _ => stays_dropKey.lexes.bind fun _ => ?_
  exact .modify_bind (fun _ => id) ((stays_emit _).lexes)

/-- A token is scanned at the source. -/
theorem lexes_scan {scan : Source → Except Fault (Scanned Token)} {s : Source}
    (h : Scans cs (scan s)) :
    Lexes cs (do
      let (t, s) ← scan s
      setSource s
      emit t) :=
  .lift_bind h fun a ha => (lexes_setSource ha).bind fun _ => (stays_emit a.1).lexes

theorem lexes_directive {x : Lexer} (hx : x.source.In cs)
    (hs : ∃ rest, x.source.rest = '%' :: rest) :
    Settles (Unscanned cs) directive x fun _ y => y.source.In cs := by
  apply (stays_unwind _ x.source x rfl).bind
  intro _ y hy
  apply (stays_dropKey x.source y hy).bind
  intro _ z hz
  apply (stays_allowKey _ x.source z hz).bind
  intro _ w (hw : w.source = x.source)
  apply Settles.get_bind
  rw [hw]
  exact lexes_scan (Source.directive_scans hx hs) w (show w.source.In cs from hw ▸ hx)

theorem lexes_documentMark (t : Token) : Lexes cs (documentMark t) := by
  refine (stays_unwind _).lexes.bind fun _ => stays_dropKey.lexes.bind fun _ => ?_
  exact (stays_allowKey _).lexes.bind fun _ => lexes_take 3 t

theorem lexes_flowStart (t : Token) : Lexes cs (flowStart t) :=
  stays_saveKey.lexes.bind fun _ => .modify_bind (fun _ => id) (lexes_take 1 t)

theorem lexes_flowEnd (t : Token) : Lexes cs (flowEnd t) :=
  stays_dropKey.lexes.bind fun _ => .modify_bind (fun _ => id) (lexes_take 1 t)

theorem lexes_flowEntry : Lexes cs flowEntry :=
  (stays_allowKey _).lexes.bind fun _ => stays_dropKey.lexes.bind fun _ => lexes_take 1 _

/-- A block collection is opened where one may be, and the rest is done. -/
theorem lexes_opening {x : Lexer} {t : Token} {rest : Step Unit} (hrest : Lexes cs rest) :
    Lexes cs (if !x.inFlow then
        if !x.allowsKey then throw .token >>= fun _ : Unit => openBlock t >>= fun _ => rest
        else openBlock t >>= fun _ => rest
      else rest) :=
  .ite (fun _ => .ite (fun _ => .throw_bind (.inl rfl)) fun _ =>
    (stays_openBlock t).lexes.bind fun _ => hrest) fun _ => hrest

theorem lexes_blockEntry : Lexes cs blockEntry :=
  .get_bind fun _ _ => lexes_opening <| (stays_allowKey _).lexes.bind fun _ =>
    stays_dropKey.lexes.bind fun _ => lexes_take 1 _

theorem lexes_explicitKey : Lexes cs explicitKey :=
  .get_bind fun _ _ => lexes_opening <| (stays_allowKey _).lexes.bind fun _ =>
    stays_dropKey.lexes.bind fun _ => lexes_take 1 _

theorem lexes_valueOfKey (k : KeyStart) : Lexes cs (valueOfKey k) := by
  refine .modify_bind (fun _ => id) (.get_bind fun x _ => .ite (fun _ => ?_) fun _ =>
    (stays_allowKey _).lexes)
  refine (stays_indentTo k.column).lexes.bind fun _ => .ite (fun _ => ?_) fun _ =>
    (stays_allowKey _).lexes
  exact .modify_bind (fun _ => id) ((stays_allowKey _).lexes)

theorem lexes_value : Lexes cs value := by
  refine .get_bind fun x _ => ?_
  dsimp only
  split
  · exact (lexes_valueOfKey _).bind fun _ => lexes_take 1 _
  · exact lexes_opening <| (stays_allowKey _).lexes.bind fun _ =>
      stays_dropKey.lexes.bind fun _ => lexes_take 1 _

theorem lexes_keyable {scan : Source → Except Fault (Scanned Token)}
    (h : ∀ s, s.In cs → Scans cs (scan s)) : Lexes cs (keyable scan) :=
  stays_saveKey.lexes.bind fun _ => (stays_allowKey _).lexes.bind fun _ =>
    .get_bind fun x hx => lexes_scan (h x.source hx)

theorem lexes_named (make : String → Token) : Lexes cs (keyable (named make)) :=
  lexes_keyable fun _ hs => (Source.anchorName_scans hs.step).map fun _ => id

theorem lexes_block (folded : Bool) : Lexes cs (block folded) :=
  (stays_allowKey _).lexes.bind fun _ => stays_dropKey.lexes.bind fun _ =>
    .get_bind fun x hx => lexes_scan (Source.block_scans x.indent folded hx)

theorem lexes_plain : Lexes cs plain :=
  stays_saveKey.lexes.bind fun _ => .get_bind fun x hx => (stays_allowKey _).lexes.bind fun _ =>
    (lexes_setSource (hx.plain x.inFlow x.indent)).bind fun _ => (stays_emit _).lexes

theorem lexes_fetch : Lexes cs fetch := by
  unfold fetch
  refine .modify_bind ?_ (.get_bind fun x _ => (lexes_skipToToken _).bind fun _ =>
    stays_dropStaleKeys.lexes.bind fun _ => .get_bind fun x _ =>
      (stays_unwind _).lexes.bind fun _ => ?_)
  · intro x hx
    split
    · exact hx.step
    · exact hx
  intro x hx
  apply Settles.get_bind
  dsimp only
  split
  next => exact lexes_streamEnd x hx
  next c rest hrest =>
    refine .ite (fun hc => ?_) fun _ => (?_ : Lexes cs _) x hx
    · obtain rfl : c = '%' := of_decide_eq_true (Bool.and_eq_true_iff.mp hc).1
      exact lexes_directive hx ⟨rest, hrest⟩
    -- all other tokens are found whatever stands at the source
    refine .ite (fun _ => lexes_documentMark _) fun _ => ?_
    refine .ite (fun _ => lexes_documentMark _) fun _ => ?_
    refine .ite (fun _ => lexes_flowStart _) fun _ => ?_
    refine .ite (fun _ => lexes_flowStart _) fun _ => ?_
    refine .ite (fun _ => lexes_flowEnd _) fun _ => ?_
    refine .ite (fun _ => lexes_flowEnd _) fun _ => ?_
    refine .ite (fun _ => lexes_flowEntry) fun _ => ?_
    refine .ite (fun _ => lexes_blockEntry) fun _ => ?_
    refine .ite (fun _ => lexes_explicitKey) fun _ => ?_
    refine .ite (fun _ => lexes_value) fun _ => ?_
    refine .ite (fun _ => lexes_named _) fun _ => ?_
    refine .ite (fun _ => lexes_named _) fun _ => ?_
    refine .ite (fun _ => lexes_keyable fun _ hs => Source.tag_scans hs) fun _ => ?_
    refine .ite (fun _ => lexes_block _) fun _ => ?_
    refine .ite (fun _ => lexes_block _) fun _ => ?_
    refine .ite (fun _ => lexes_keyable fun _ hs => Source.quoted_scans _ hs) fun _ => ?_
    refine .ite (fun _ => lexes_keyable fun _ hs => Source.quoted_scans _ hs) fun _ => ?_
    exact .ite (fun _ => lexes_plain) fun _ => .throw (.inl rfl)

/-- The fault in the place of the next token comes from the text, or from where it is cut off. -/
theorem run_fault {cut : Option Fault} {fuel : Nat} {out : List Token} {x : Lexer}
    (hx : x.source.In cs) {e : Fault} (h : (run cut fuel out x).2 = some e) :
    cut = some e ∨ Unscanned cs e := by
  induction fuel generalizing out x with
  | zero =>
    cases h
    exact .inr (.inl rfl)
  | succ fuel ih =>
    have hneeds := stays_needsMore.lexes x hx
    unfold run at h
    split at h
    next d hd =>
      cases h
      exact .inr (hneeds.error hd)
    next y hy =>
      have hfetch := lexes_fetch y (hneeds.ok hy)
      split at h
      next d hd =>
        cases h
        exact .inr (hfetch.error hd)
      next z hz =>
        split at h
        next d =>
          cases h
          exact .inl rfl
        next => exact ih (hfetch.ok hz) h
    next y hy =>
      split at h
      next => cases h
      next => cases h
      next =>
        refine ih ?_ h
        exact (show y.source.In cs from hneeds.ok hy)

end Lexer

/-- The fault in the place of the token after those of a text in memory. -/
theorem Tokens.fault_ofText {cs : List Char} {e : Fault}
    (h : (Tokens.ofStream (.ofText cs)).fault = some e) :
    e.isMalformed = true ∨ Oversized cs e := by
  have htext : (Stream.ofText cs).text <:+ cs := by
    unfold Stream.ofText
    split <;> simp
  unfold ofStream at h
  rcases Lexer.run_fault (x := .ofText _) htext h with hcut | rfl | hover
  · unfold Stream.ofText at hcut
    split at hcut <;> cases hcut
    exact .inl rfl
  · exact .inl rfl
  · exact .inr hover

end TreePaths.Yaml
