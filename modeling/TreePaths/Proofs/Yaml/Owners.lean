import TreePaths.Proofs.Yaml.Unfit

/-!
Building any document, even one whose nodes hold themselves. Each piece belongs to the node for
which it is made, and building ends with a value, with a fault of the form, or with one that a node
of the document is to blame for.
-/

namespace TreePaths.Yaml

/-- The text is malformed, or the document holds what the fault needs. -/
def Graph.Blamed (g : Graph) (e : Fault) : Prop :=
  e.isMalformed = true ∨ g.Unfit e

namespace Site

section Owned

variable (g : Graph)

/-- The part may be made of the node, where each piece has its owner. -/
def Fits (owners : List NodeId) (n : NodeId) : Part → Prop
  | .scalar v => v.isWritable = true ∨ g.IsLong n
  | .nan _ => True
  | .piece k => owners[k]? = some n

def Suited (n : NodeId) : Piece → Prop
  | .list _ | .pairs _ | .struct _ => True
  | .set _ => g.tag n = .set
  | .map _ => False
  | .annotated p _ => (g.tag n).isLocal = true ∧
      (p.isPiece = true → ∀ text plain, g.content n ≠ .scalar text plain)

def Within (owners : List NodeId) (n : NodeId) (p : Part) : Prop :=
  ∃ c, g.Spans n c ∧ Fits g owners c p

structure Owned (owners : List NodeId) (s : Site) : Prop where
  graph : g.Reworked s.graph
  length : owners.length = s.draft.size
  made : ∀ n p, s.madeOf n = some p → Fits g owners n p
  within : ∀ k n, owners[k]? = some n → ∀ q ∈ (s.draft.piece k).parts, Within g owners n q
  suited : ∀ k n, owners[k]? = some n → Suited g n (s.draft.piece k)
  waiting : ∀ e ∈ s.waiting, owners[e.2]? = some e.1

structure After (owners : List NodeId) (s : Site) (owners' : List NodeId) (s' : Site) : Prop where
  owners : owners <+: owners'
  piece : ∀ k, k < s.draft.size → s'.draft.piece k = s.draft.piece k ∨
    (s.draft.piece k).isAnnotated = false ∧ (s'.draft.piece k).isAnnotated = false

/-- The computation fails only with what the document is to blame for. -/
def Builds {α : Type} (owners : List NodeId) (s : Site) (x : Build α)
    (Q : α → List NodeId → Site → Prop) : Prop :=
  Settles g.Blamed x s fun a s' =>
    ∃ owners', Owned g owners' s' ∧ After owners s owners' s' ∧ Q a owners' s'

end Owned

variable {g : Graph} {owners owners' owners'' : List NodeId} {s s' s'' : Site} {n c : NodeId}
  {p : Part} {k : Nat} {x : Piece} {α β : Type} {scope : Scope} {mk : Scope → NodeId → Build Part}

theorem getElem?_of_isPrefix (h : owners <+: owners') (hk : owners[k]? = some n) :
    owners'[k]? = some n := by
  obtain ⟨more, rfl⟩ := h
  rw [List.getElem?_append_left (List.getElem?_eq_some_iff.1 hk).1, hk]

theorem Fits.mono (h : owners <+: owners') (hp : Fits g owners n p) : Fits g owners' n p := by
  cases p with
  | scalar v => exact hp
  | nan o => exact hp
  | piece k => exact getElem?_of_isPrefix h hp

theorem Within.mono (h : owners <+: owners') (hp : Within g owners n p) : Within g owners' n p :=
  hp.imp fun _ hc => ⟨hc.1, hc.2.mono h⟩

theorem Fits.within (hn : g.Spans n c) (hp : Fits g owners c p) : Within g owners n p :=
  ⟨c, hn, hp⟩

theorem Owned.lt_size (h : Owned g owners s) (hk : owners[k]? = some n) : k < s.draft.size :=
  h.length ▸ (List.getElem?_eq_some_iff.1 hk).1

namespace After

theorem of_draft_eq (owners : List NodeId) (h : s'.draft = s.draft) : After owners s owners s' :=
  ⟨List.prefix_refl _, fun k _ => .inl (congrArg (·.piece k) h)⟩

theorem size_le (hafter : After owners s owners' s') (h : Owned g owners s)
    (h' : Owned g owners' s') : s.draft.size ≤ s'.draft.size := by
  rw [← h.length, ← h'.length]
  exact hafter.owners.length_le

theorem trans (hs : s.draft.size ≤ s'.draft.size) (h : After owners s owners' s')
    (h' : After owners' s' owners'' s'') : After owners s owners'' s'' where
  owners := h.owners.trans h'.owners
  piece k hk := by
    rcases h.piece k hk with hsame | ⟨hold, hnew⟩
    · rw [← hsame]
      exact h'.piece k (Nat.lt_of_lt_of_le hk hs)
    · rcases h'.piece k (Nat.lt_of_lt_of_le hk hs) with hsame | ⟨-, hnew'⟩
      · exact .inr ⟨hold, hsame ▸ hnew⟩
      · exact .inr ⟨hold, hnew'⟩

end After

namespace Builds

variable {y : Build α} {Q Q' : α → List NodeId → Site → Prop}

protected theorem pure (h : Owned g owners s) {a : α} (ha : Q a owners s) :
    Builds g owners s (pure a) Q :=
  Settles.pure ⟨owners, h, .of_draft_eq owners rfl, ha⟩

protected theorem throw {e : Fault} (he : g.Blamed e) : Builds g owners s (throw e) Q :=
  Settles.throw he

protected theorem bind {f : α → Build β} {R : β → List NodeId → Site → Prop}
    (h : Owned g owners s) (hy : Builds g owners s y Q)
    (hf : ∀ a owners' s', Owned g owners' s' → After owners s owners' s' → Q a owners' s' →
      Builds g owners' s' (f a) R) : Builds g owners s (y >>= f) R := by
  refine Settles.bind hy ?_
  rintro a s₁ ⟨owners₁, h₁, hafter, ha⟩
  refine (hf a owners₁ s₁ h₁ hafter ha).mono ?_
  rintro b s₂ ⟨owners₂, h₂, hafter₂, hb⟩
  exact ⟨owners₂, h₂, hafter.trans (hafter.size_le h h₁) hafter₂, hb⟩

theorem mono (hy : Builds g owners s y Q) (h : ∀ a owners' s', Q a owners' s' → Q' a owners' s') :
    Builds g owners s y Q' :=
  Settles.mono hy fun _ _ ⟨owners', h', hafter, ha⟩ => ⟨owners', h', hafter, h _ _ _ ha⟩

theorem get_bind {f : Site → Build α} (h : Builds g owners s (f s) Q) :
    Builds g owners s (get >>= f) Q :=
  h

theorem set_bind {t : Site} {f : PUnit → Build α} (ht : t.draft = s.draft)
    (h : Builds g owners t (f ⟨⟩) Q) : Builds g owners s (set t >>= f) Q := by
  refine Settles.set_bind (Settles.mono h ?_)
  rintro a s' ⟨owners', h', hafter, ha⟩
  exact ⟨owners', h', (After.of_draft_eq owners ht).trans (by rw [ht]) hafter, ha⟩

protected theorem ite {b : Prop} [Decidable b] {z : Build α} (hy : b → Builds g owners s y Q)
    (hz : ¬b → Builds g owners s z Q) : Builds g owners s (if b then y else z) Q :=
  Settles.ite hy hz

/-- What is asked of each item is kept while the next ones are made. -/
theorem mapM (R : List NodeId → β → α → Prop) {xs : List β} {f : β → Build α}
    (h : Owned g owners s) (hmono : ∀ {owners owners' x a}, owners <+: owners' → R owners x a →
      R owners' x a)
    (hf : ∀ x ∈ xs, ∀ owners' s', Owned g owners' s' → owners <+: owners' →
      Builds g owners' s' (f x) fun a owners'' _ => R owners'' x a) :
    Builds g owners s (xs.mapM f) fun as owners' _ => ∀ a ∈ as, ∃ x ∈ xs, R owners' x a := by
  induction xs generalizing owners s with
  | nil => exact .pure h (List.forall_mem_nil _)
  | cons x xs ih =>
    obtain ⟨hx, hxs⟩ := List.forall_mem_cons.1 hf
    rw [List.mapM_cons]
    apply Builds.bind h (hx owners s h (List.prefix_refl _))
    intro a owners₁ s₁ h₁ hafter₁ ha
    apply Builds.bind h₁ (ih h₁ fun y hy owners' s' h' hgrown =>
      hxs y hy owners' s' h' (hafter₁.owners.trans hgrown))
    intro as owners₂ s₂ h₂ hafter₂ has
    refine .pure h₂ (List.forall_mem_cons.2 ⟨?_, fun b hb => ?_⟩)
    · exact ⟨x, List.mem_cons_self, hmono hafter₂.owners ha⟩
    · exact (has b hb).imp fun _ hy => ⟨List.mem_cons_of_mem x hy.1, hy.2⟩

end Builds

section Pieces

/-- A new piece belongs to the node for which it is made. -/
theorem addPiece_builds (h : Owned g owners s) (hparts : ∀ q ∈ x.parts, Within g owners n q)
    (hsuited : Suited g n x) :
    Builds g owners s (addPiece x) fun k owners' _ => owners'[k]? = some n := by
  have hgrown : owners <+: owners ++ [n] := List.prefix_append _ _
  have hlast : (owners ++ [n])[s.draft.size]? = some n := by simp [← h.length]
  have hpiece : ∀ k m, (owners ++ [n])[k]? = some m →
      k = s.draft.size ∧ m = n ∨ k < s.draft.size ∧ owners[k]? = some m := by
    intro k m hk
    rw [← h.length]
    grind
  have howned : Owned g (owners ++ [n]) { s with draft := s.draft.add x } := by
    constructor
    case graph => exact h.graph
    case length => simp [h.length]
    case made => exact fun m q hq => (h.made m q hq).mono hgrown
    case within =>
      intro k m hk q hq
      rcases hpiece k m hk with ⟨rfl, rfl⟩ | ⟨hlt, hold⟩
      · exact (hparts q (by rwa [Draft.piece_add_self] at hq)).mono hgrown
      · exact (h.within k m hold q (by rwa [Draft.piece_add_of_lt hlt] at hq)).mono hgrown
    case suited =>
      intro k m hk
      rcases hpiece k m hk with ⟨rfl, rfl⟩ | ⟨hlt, hold⟩
      · rwa [Draft.piece_add_self]
      · rw [Draft.piece_add_of_lt hlt]
        exact h.suited k m hold
    case waiting => exact fun e he => getElem?_of_isPrefix hgrown (h.waiting e he)
  exact ⟨_, howned, ⟨hgrown, fun k hk => .inl (Draft.piece_add_of_lt hk)⟩, hlast⟩

/-- A piece of the node, which is not annotated, is filled. -/
theorem Owned.setPiece (h : Owned g owners s) (hk : owners[k]? = some n)
    (hold : (s.draft.piece k).isAnnotated = false) (hnew : x.isAnnotated = false)
    (hparts : ∀ q ∈ x.parts, Within g owners n q) (hsuited : Suited g n x) :
    Owned g owners { s with draft := s.draft.setPiece k x } ∧
      After owners s owners { s with draft := s.draft.setPiece k x } := by
  have hpiece (l : Nat) := Draft.piece_setPiece (x := x) (l := l) (h.lt_size hk)
  constructor
  · constructor
    case graph => exact h.graph
    case length => simp [h.length]
    case made => exact h.made
    case within =>
      intro l m hl q hq
      simp only [hpiece] at hq
      split at hq
      next hlk =>
        subst hlk
        cases hk.symm.trans hl
        exact hparts q hq
      next => exact h.within l m hl q hq
    case suited =>
      intro l m hl
      simp only [hpiece]
      split
      next hlk =>
        subst hlk
        cases hk.symm.trans hl
        exact hsuited
      next => exact h.suited l m hl
    case waiting => exact h.waiting
  · refine ⟨List.prefix_refl _, fun l _ => ?_⟩
    simp only [hpiece]
    split
    next hlk => exact .inr ⟨hlk ▸ hold, hnew⟩
    next => exact .inl rfl

theorem Owned.addPair (h : Owned g owners s) (hk : owners[k]? = some n) {p q : Part}
    (hp : Within g owners n p) (hq : Within g owners n q) :
    Owned g owners { s with draft := s.draft.addPair k (p, q) } ∧
      After owners s owners { s with draft := s.draft.addPair k (p, q) } := by
  unfold Draft.addPair
  split
  next es hes =>
    have hold := h.within k n hk
    rw [hes] at hold
    refine h.setPiece (x := .pairs (es ++ [(p, q)])) hk (by rw [hes]; rfl) rfl ?_ trivial
    intro r hr
    rw [Piece.parts, List.flatMap_append, List.mem_append] at hr
    rcases hr with hr | hr
    · exact hold r hr
    · obtain rfl | rfl : r = p ∨ r = q := by simpa using hr
      · exact hp
      · exact hq
  next => exact ⟨h, .of_draft_eq owners rfl⟩

end Pieces

section Shown

/-- What a piece shows has too many digits only if an integer of a node within has. -/
theorem exists_isLong_of_shownPiece (h : Owned g owners s) (fuel : Nat) (around : List Nat)
    (hk : owners[k]? = some n) (hlong : (s.draft.shownPiece fuel around k).isWritable = false) :
    ∃ c, g.Spans n c ∧ g.IsLong c := by
  induction fuel generalizing around k n with
  | zero => cases hlong
  | succ fuel ih =>
    unfold Draft.shownPiece at hlong
    split at hlong
    · cases hlong
    rw [Piece.isWritable_value, List.all_eq_false] at hlong
    obtain ⟨q, hq, hlong⟩ := hlong
    obtain ⟨c, hc, hfits⟩ := h.within k n hk q hq
    rw [Bool.not_eq_true] at hlong
    cases q with
    | scalar v =>
      rcases hfits with hv | hv
      · exact absurd hv (Bool.eq_false_iff.1 hlong)
      · exact ⟨c, hc, hv⟩
    | nan => cases hlong
    | piece l =>
      obtain ⟨d, hd, hdlong⟩ := ih _ hfits hlong
      exact ⟨d, hc.trans hd, hdlong⟩

theorem exists_isLong_of_shown (h : Owned g owners s) (hp : Fits g owners n p)
    (hlong : (s.draft.shown p).isWritable = false) : ∃ c, g.Spans n c ∧ g.IsLong c := by
  cases p with
  | scalar v =>
    rcases hp with hv | hv
    · exact absurd hv (Bool.eq_false_iff.1 hlong)
    · exact ⟨n, .refl, hv⟩
  | nan => cases hlong
  | piece k => exact exists_isLong_of_shownPiece h _ _ hp hlong

end Shown

section Scalars

theorem makeScalar_builds (h : Owned g owners s) {text : String}
    {read : String → Except Fault Value}
    (hread : Yields g.Blamed (read text) fun v => v.isWritable = true ∨ g.IsLong n) :
    Builds g owners s (makeScalar read n text) fun p owners' _ =>
      Fits g owners' n p ∧ p.isPiece = false := by
  unfold makeScalar
  apply (hread.lift s).bind
  rintro v _ ⟨rfl, hv⟩
  refine Builds.pure h ?_
  unfold scalarPart
  split
  · exact ⟨trivial, rfl⟩
  · exact ⟨hv, rfl⟩

theorem yields_of_readAs {r : Except Fault Value} (h : g.ReadAs n r) :
    Yields g.Blamed r fun v => v.isWritable = true ∨ g.IsLong n := by
  cases r with
  | error e => exact .inr (.text h)
  | ok v =>
    by_cases hv : v.isWritable = true
    · exact .inl hv
    · exact .inr ⟨v, h, Bool.eq_false_iff.2 hv⟩

theorem makeText_builds (h : Owned g owners s) {read : String → Except Fault Value}
    (hread : scalarReader? (s.graph.tag n) = some read) :
    Builds g owners s (makeText read n) fun p owners' _ => Fits g owners' n p := by
  have htag : (scalarReader? (g.tag n)).isSome = true ∨ g.tag n = .value := by
    rcases h.graph.tag n with hn | ⟨hn, -⟩
    · exact .inl (by rw [← hn, hread]; rfl)
    · exact .inr hn
  have htext := h.graph.text_yields htag
  unfold makeText
  apply Builds.get_bind
  refine Settles.bind (htext.lift s) ?_
  rintro text _ ⟨rfl, ht⟩
  refine Builds.ite (fun hmoment => ?_) fun _ => ?_
  · obtain ⟨htime, hmap⟩ := Bool.and_eq_true_iff.1 hmoment
    rw [h.graph.isMapping_eq] at hmap
    have htime := h.graph.tag_eq (of_decide_eq_true htime) (by decide)
    exact Settles.throw (.inr (.timestampMapping htime hmap))
  · refine (makeScalar_builds h ?_).mono fun _ _ _ hp => hp.1
    rcases h.graph.tag n with hn | ⟨-, hstr⟩
    · exact yields_of_readAs (.tagged (hn ▸ hread) ht)
    · rw [hstr] at hread
      cases hread
      exact .inl rfl

end Scalars

section Nodes

theorem items_builds (h : Owned g owners s) :
    Builds g owners s (items n) fun ns _ _ => ∀ c ∈ ns, g.Spans n c := by
  unfold items
  apply Builds.get_bind
  split
  next ns hns =>
    have hcontent := h.graph.content_of_sequence hns
    exact .pure h fun c hc => .single (Graph.mem_children_of_sequence hcontent hc)
  next => exact .throw (.inl rfl)

theorem singleEntry_builds (h : Owned g owners s) :
    Builds g owners s (singleEntry n) fun e _ _ => g.Spans n e.1 ∧ g.Spans n e.2 := by
  unfold singleEntry
  apply Builds.get_bind
  split
  next e he =>
    exact .pure h (h.graph.spans (by simp [Graph.entries_of_content he]))
  next => exact .throw (.inl rfl)

theorem structEntries_builds (h : Owned g owners s)
    (hn : g.isMapping n = true ∨ g.tag n = .map) :
    Builds g owners s (structEntries n) fun es _ _ =>
      ∀ e ∈ es, ∃ m, g.Spans n m ∧ e ∈ g.entries m := by
  unfold structEntries
  apply Builds.get_bind
  split
  next es hes =>
    have hmap : g.isMapping n = true := by rw [← h.graph.isMapping_eq, Graph.isMapping, hes]
    have htag : ∀ e, e = Fault.tag → g.Blamed e := fun e he => he ▸ .inl rfl
    have hflat := (Graph.flatten_settles h.graph hmap).weaken htag fun _ _ => id
    apply (edit_settles hflat).bind
    rintro - _ ⟨h', hnew, rfl⟩
    have howned : Owned g owners { s with graph := h' } := { h with graph := hnew }
    exact ⟨owners, howned, .of_draft_eq _ rfl, hnew.source n⟩
  next => exact .pure h (List.forall_mem_nil _)
  next ns hne hns =>
    cases ns with
    | nil => exact absurd rfl hne
    | cons c cs =>
      have hcontent := h.graph.content_of_sequence hns
      have htag := hn.resolve_left (by simp [Graph.isMapping, hcontent])
      exact .throw (.inr (.pairsOfSequence htag hcontent))
  next text plain ht =>
    have hcontent := h.graph.content_of_scalar ht
    have htag := hn.resolve_left (by simp [Graph.isMapping, hcontent])
    refine .ite (fun _ => .pure h (List.forall_mem_nil _)) fun hsome => ?_
    exact .throw (.inr (.pairsOfText htag hcontent (Bool.eq_false_iff.2 hsome)))

theorem mapEntries_builds (h : Owned g owners s) :
    Builds g owners s (mapEntries n) fun es _ _ =>
      ∀ e ∈ es, ∃ m, g.Spans n m ∧ e ∈ g.entries m := by
  unfold mapEntries
  apply Builds.get_bind
  rw [h.graph.isMapping_eq]
  refine .ite (fun _ => .throw (.inl rfl)) fun hmap => ?_
  rw [Bool.not_eq_true, Bool.not_eq_false'] at hmap
  exact structEntries_builds h (.inl hmap)

end Nodes

/-- Whatever node is needed can be made a part of, or the document is to blame. -/
def Serves (g : Graph) (mk : Scope → NodeId → Build Part) : Prop :=
  ∀ scope n owners s, Owned g owners s →
    Builds g owners s (mk scope n) fun p owners' _ => Fits g owners' n p

section Made

/-- The fields of a struct get their names, which are known by now. -/
theorem names_builds (h : Owned g owners s) (hn : g.tag n = .map ∨ (g.tag n).isLocal = true)
    {ds : List (Part × Part)} (hds : ∀ d ∈ ds, Within g owners n d.2 ∧
      ∃ m e, g.Spans n m ∧ e ∈ g.entries m ∧ Fits g owners e.1 d.1) :
    Builds g owners s (ds.mapM fun (k, v) => do
        let name := s.draft.shown k
        if name.isWritable then return (name.label, v) else throw .longName) fun fs owners' _ =>
      ∀ f ∈ fs, Within g owners' n f.2 := by
  refine (Builds.mapM (fun owners' _ (f : String × Part) => Within g owners' n f.2) h
    (fun hgrown hf => hf.mono hgrown) ?_).mono fun fs _ _ hfs f hf => ?_
  · intro d hd owners' s' h' hgrown
    obtain ⟨hvalue, m, e, hm, he, hkey⟩ := hds d hd
    refine .ite (fun _ => .pure h' (hvalue.mono hgrown)) fun hlong => .throw (.inr ?_)
    obtain ⟨c, hc, hclong⟩ := exists_isLong_of_shown h hkey (Bool.eq_false_iff.2 hlong)
    exact .longName hn hm he hc hclong
  · exact (hfs f hf).elim fun _ hd => hd.2

variable (hmk : Serves g mk)

include hmk

theorem nodes_builds (h : Owned g owners s) {ns : List NodeId} (hns : ∀ c ∈ ns, g.Spans n c) :
    Builds g owners s (ns.mapM (mk scope)) fun ps owners' _ => ∀ p ∈ ps, Within g owners' n p := by
  refine (Builds.mapM (fun owners' c p => Fits g owners' c p) h
    (fun hgrown hp => hp.mono hgrown)
    fun c _ owners' s' h' _ => hmk scope c owners' s' h').mono fun ps _ _ hps p hp => ?_
  obtain ⟨c, hc, hfits⟩ := hps p hp
  exact ⟨c, hns c hc, hfits⟩

theorem pair_builds (scope : Scope) (h : Owned g owners s) (e : Entry) :
    Builds g owners s (do return (← mk scope e.1, ← mk scope e.2)) fun d owners' _ =>
      Fits g owners' e.1 d.1 ∧ Fits g owners' e.2 d.2 := by
  apply Builds.bind h (hmk scope e.1 owners s h)
  intro k owners₁ s₁ h₁ _ hk
  apply Builds.bind h₁ (hmk scope e.2 owners₁ s₁ h₁)
  intro v owners₂ s₂ h₂ hafter hv
  exact .pure h₂ ⟨hk.mono hafter.owners, hv⟩

theorem makeStruct_builds (h : Owned g owners s)
    (hn : g.tag n = .map ∨ (g.tag n).isLocal = true ∧ g.isMapping n = true) :
    Builds g owners s (makeStruct mk scope n) fun p owners' _ => Fits g owners' n p := by
  unfold makeStruct
  apply Builds.bind h (structEntries_builds h (hn.symm.imp_left And.right))
  intro es owners₁ s₁ h₁ _ hes
  apply Builds.bind h₁ (Builds.mapM (fun owners' (e : Entry) (d : Part × Part) =>
      Fits g owners' e.1 d.1 ∧ Fits g owners' e.2 d.2) h₁
    (fun hgrown hd => ⟨hd.1.mono hgrown, hd.2.mono hgrown⟩)
    fun e _ owners' s' h' _ => pair_builds hmk { scope with atOnce := true } h' e)
  intro ds owners₂ s₂ h₂ _ hds
  apply Builds.get_bind
  have hfields : ∀ d ∈ ds, Within g owners₂ n d.2 ∧
      ∃ m e, g.Spans n m ∧ e ∈ g.entries m ∧ Fits g owners₂ e.1 d.1 := by
    intro d hd
    obtain ⟨e, he, hkey, hvalue⟩ := hds d hd
    obtain ⟨m, hm, hmem⟩ := hes e he
    exact ⟨hvalue.within (hm.trans (Graph.spans_of_mem_entries hmem).2), m, e, hm, hmem, hkey⟩
  apply Builds.bind h₂ (names_builds h₂ (hn.imp_right And.left) hfields)
  intro fs owners₃ s₃ h₃ _ hfs
  have hparts : ∀ q ∈ (Piece.struct fs).parts, Within g owners₃ n q := by
    intro q hq
    obtain ⟨f, hf, rfl⟩ := List.mem_map.1 hq
    exact hfs f hf
  apply Builds.bind h₃ (addPiece_builds h₃ hparts trivial)
  intro k owners₄ s₄ h₄ _ hk
  exact .pure h₄ hk

theorem makeContent_builds (h : Owned g owners s) (hn : (g.tag n).isLocal = true) :
    Builds g owners s (makeContent mk scope n) fun p owners' _ => Fits g owners' n p ∧
      (p.isPiece = true → ∀ text plain, g.content n ≠ .scalar text plain) := by
  unfold makeContent
  apply Builds.get_bind
  split
  next text plain ht =>
    have hcontent := h.graph.content_of_scalar ht
    split
    next read hread =>
      cases htag : g.tag n with
      | localTag name =>
        refine (makeScalar_builds h (yields_of_readAs (.untagged htag hcontent hread))).mono ?_
        exact fun p _ _ hp => ⟨hp.1, fun hpiece => absurd hpiece (Bool.eq_false_iff.1 hp.2)⟩
      | _ =>
        rw [htag] at hn
        cases hn
    next => exact .throw (.inl rfl)
  next ns hns =>
    have hcontent := h.graph.content_of_sequence hns
    apply Builds.bind h (nodes_builds hmk h fun c hc =>
      .single (Graph.mem_children_of_sequence hcontent hc))
    intro ps owners₁ s₁ h₁ _ hps
    apply Builds.bind h₁ (addPiece_builds (x := .list ps) h₁ hps trivial)
    intro k owners₂ s₂ h₂ _ hk
    exact .pure h₂ ⟨hk, by simp [hcontent]⟩
  next es hes =>
    have hmap : g.isMapping n = true := by rw [← h.graph.isMapping_eq, Graph.isMapping, hes]
    refine (makeStruct_builds hmk h (.inr ⟨hn, hmap⟩)).mono fun _ _ _ hp => ⟨hp, ?_⟩
    intro _ text plain ht
    rw [Graph.isMapping, ht] at hmap
    cases hmap

/-- The pairs are added to a piece of the node. -/
theorem fillPairs_builds (h : Owned g owners s) (hk : owners[k]? = some n) {ns : List NodeId}
    (hns : ∀ c ∈ ns, g.Spans n c) :
    Builds g owners s (fillPairs mk scope k ns) fun _ _ _ => True := by
  induction ns generalizing owners s with
  | nil => exact .pure h trivial
  | cons c cs ih =>
    have hc := hns c List.mem_cons_self
    unfold fillPairs
    apply Builds.bind h (singleEntry_builds h)
    rintro ⟨a, b⟩ owners₁ s₁ h₁ hafter₁ ⟨ha, hb⟩
    apply Builds.bind h₁ (hmk scope a owners₁ s₁ h₁)
    intro p owners₂ s₂ h₂ hafter₂ hp
    apply Builds.bind h₂ (hmk scope b owners₂ s₂ h₂)
    intro q owners₃ s₃ h₃ hafter₃ hq
    have hk₃ := getElem?_of_isPrefix
      ((hafter₁.owners.trans hafter₂.owners).trans hafter₃.owners) hk
    obtain ⟨h₄, hafter₄⟩ := h₃.addPair hk₃
      ((hp.mono hafter₃.owners).within (hc.trans ha)) (hq.within (hc.trans hb))
    refine Builds.bind (Q := fun _ owners' _ => owners' = owners₃) h₃ ⟨_, h₄, hafter₄, rfl⟩ ?_
    rintro - owners₅ s₅ h₅ - rfl
    exact ih h₅ hk₃ fun d hd => hns d (List.mem_cons_of_mem c hd)

omit hmk in
/-- A key that is none holds a collection, and so is made of a node under a local tag. -/
theorem unfit_of_key (h : Owned g owners s) {e : Entry} {m : NodeId} (hp : Fits g owners e.1 p)
    (hcollection : s.draft.isCollection p = false) (h' : Owned g owners' s')
    (hafter : After owners s owners' s') (hno : (!s'.draft.isKey p) = true) (hn : g.tag n = .set)
    (hm : g.Spans n m) (he : e ∈ g.entries m) : g.Unfit .key := by
  cases p with
  | scalar v => cases hno
  | nan o => cases hno
  | piece j =>
    rw [Draft.isCollection_piece, Bool.not_eq_false'] at hcollection
    have hsame : s'.draft.piece j = s.draft.piece j := by
      rcases hafter.piece j (h.lt_size hp) with hsame | ⟨hnot, -⟩
      · exact hsame
      · exact absurd hcollection (Bool.eq_false_iff.1 hnot)
    have hsuited := h'.suited j e.1 (getElem?_of_isPrefix hafter.owners hp)
    rw [← hsame] at hcollection
    unfold Draft.isKey at hno
    cases hpiece : s'.draft.piece j with
    | annotated c as =>
      rw [hpiece] at hsuited
      simp only [hpiece, Bool.not_not] at hno
      exact .key hn hm he hsuited.1 (hsuited.2 hno)
    | _ =>
      rw [hpiece] at hcollection
      cases hcollection

theorem makeEntries_builds (h : Owned g owners s) (hn : g.tag n = .set)
    {done : List (Part × Part)} (hdone : ∀ d ∈ done, Within g owners n d.1) {es : List Entry}
    (hes : ∀ e ∈ es, ∃ m, g.Spans n m ∧ e ∈ g.entries m) :
    Builds g owners s (makeEntries mk scope done es) fun ds owners' _ =>
      ∀ d ∈ ds, Within g owners' n d.1 := by
  induction es generalizing owners s done with
  | nil => exact .pure h hdone
  | cons e es ih =>
    obtain ⟨m, hm, he⟩ := hes e List.mem_cons_self
    unfold makeEntries
    apply Builds.bind h (hmk scope e.1 owners s h)
    intro key owners₁ s₁ h₁ hafter₁ hkey
    apply Builds.get_bind
    refine .ite (fun _ => .throw (.inl rfl)) fun hcollection => ?_
    apply Builds.bind h₁ (hmk scope e.2 owners₁ s₁ h₁)
    intro value owners₂ s₂ h₂ hafter₂ _
    apply Builds.get_bind
    refine .ite (fun hno => .throw (.inr ?_)) fun _ => ?_
    · exact unfit_of_key h₁ hkey (Bool.not_eq_true _ ▸ hcollection) h₂ hafter₂ hno hn hm he
    · refine ih h₂ ?_ fun d hd => hes d (List.mem_cons_of_mem e hd)
      intro d hd
      rcases (mem_insertBy hd).1 with heq | ⟨a, ha, heq⟩
      · rw [heq]
        exact (hkey.mono hafter₂.owners).within (hm.trans (Graph.spans_of_mem_entries he).1)
      · rw [← heq]
        exact (hdone a ha).mono (hafter₁.owners.trans hafter₂.owners)

omit hmk in
/-- A piece that was there at the beginning is filled at the end, when others have been made. -/
theorem setPiece_builds (h : Owned g owners s) (hk : owners[k]? = some n)
    (hold : (s.draft.piece k).isAnnotated = false) (h' : Owned g owners' s')
    (hafter : After owners s owners' s') (hnew : x.isAnnotated = false)
    (hparts : ∀ q ∈ x.parts, Within g owners' n q) (hsuited : Suited g n x) :
    Builds g owners' s' (change (·.setPiece k x)) fun _ _ _ => True := by
  have hold' : (s'.draft.piece k).isAnnotated = false := by
    rcases hafter.piece k (h.lt_size hk) with hsame | ⟨-, hnot⟩
    · rw [hsame, hold]
    · exact hnot
  obtain ⟨howned, hafter'⟩ :=
    h'.setPiece (getElem?_of_isPrefix hafter.owners hk) hold' hnew hparts hsuited
  exact ⟨owners', howned, hafter', trivial⟩

/-- Filling a piece fails only with what the document is to blame for. -/
theorem fill_builds (h : Owned g owners s) (hk : owners[k]? = some n) :
    Builds g owners s (fill mk scope n k) fun _ _ _ => True := by
  have hsuited := h.suited k n hk
  unfold fill
  apply Builds.get_bind
  cases hpiece : s.draft.piece k with
  | list ps =>
    apply Builds.bind h (items_builds h)
    intro ns owners₁ s₁ h₁ hafter₁ hns
    apply Builds.bind h₁ (nodes_builds hmk h₁ hns)
    intro qs owners₂ s₂ h₂ hafter₂ hqs
    have hafter := hafter₁.trans (hafter₁.size_le h h₁) hafter₂
    exact setPiece_builds h hk (by rw [hpiece]; rfl) h₂ hafter rfl hqs trivial
  | pairs es =>
    apply Builds.bind h (items_builds h)
    intro ns owners₁ s₁ h₁ hafter₁ hns
    exact fillPairs_builds hmk h₁ (getElem?_of_isPrefix hafter₁.owners hk) hns
  | set ps =>
    rw [hpiece] at hsuited
    apply Builds.bind h (mapEntries_builds h)
    intro es owners₁ s₁ h₁ hafter₁ hes
    apply Builds.bind h₁ (makeEntries_builds hmk h₁ hsuited (List.forall_mem_nil _) hes)
    intro ds owners₂ s₂ h₂ hafter₂ hds
    have hafter := hafter₁.trans (hafter₁.size_le h h₁) hafter₂
    refine setPiece_builds h hk (by rw [hpiece]; rfl) h₂ hafter rfl ?_ hsuited
    intro q hq
    obtain ⟨d, hd, rfl⟩ := List.mem_map.1 hq
    exact hds d hd
  | map es =>
    rw [hpiece] at hsuited
    exact hsuited.elim
  | struct fs => exact .pure h trivial
  | annotated c as => exact .pure h trivial

/-- A new part fits its node, unless the making fails with what the document is to blame for. -/
theorem makeNew_builds (h : Owned g owners s) :
    Builds g owners s (makeNew mk .tree scope n) fun p owners' _ => Fits g owners' n p := by
  unfold makeNew
  apply Builds.get_bind
  dsimp only
  split
  next read hread => exact makeText_builds h hread
  next x hread hx =>
    have hempty : x.parts = [] ∧ Suited g n x := by
      unfold emptyPiece? at hx
      split at hx <;> cases hx
      next => exact ⟨rfl, trivial⟩
      next => exact ⟨rfl, trivial⟩
      next => exact ⟨rfl, trivial⟩
      next htag => exact ⟨rfl, h.graph.tag_eq htag (by simp)⟩
    apply Builds.bind h (addPiece_builds h (by simp [hempty.1]) hempty.2)
    intro k owners₁ s₁ h₁ _ hk
    refine .ite (fun _ => ?_) fun _ => ?_
    · apply Builds.bind h₁ (fill_builds hmk h₁ hk)
      intro _ owners₂ s₂ h₂ hafter₂ _
      exact .pure h₂ (getElem?_of_isPrefix hafter₂.owners hk)
    · have howned : Owned g owners₁ { s₁ with waiting := (n, k) :: s₁.waiting } :=
        { h₁ with waiting := List.forall_mem_cons.2 ⟨hk, h₁.waiting⟩ }
      exact ⟨owners₁, howned, .of_draft_eq _ rfl, hk⟩
  next hread hx =>
    split
    next htag => exact makeStruct_builds hmk h (.inl (h.graph.tag_eq htag (by simp)))
    next text _ htag =>
      have hlocal : (g.tag n).isLocal = true := by
        rw [h.graph.tag_eq htag (by simp)]
        rfl
      apply Builds.bind h (makeContent_builds hmk h hlocal)
      rintro c owners₁ s₁ h₁ - ⟨hc, hpiece⟩
      have hparts : ∀ q ∈ (Piece.annotated c (annotationParts text)).parts, Within g owners₁ n q :=
        fun q hq => List.mem_singleton.1 hq ▸ hc.within .refl
      apply Builds.bind h₁ (addPiece_builds h₁ hparts ⟨hlocal, hpiece⟩)
      intro k owners₂ s₂ h₂ _ hk
      exact .pure h₂ hk
    next => exact .throw (.inl rfl)

end Made

/-- After a part has been recorded it is the part of its node, and those of others have stayed. -/
theorem eq_or_madeOf_eq {m : NodeId} {q : Part}
    (h : ({ s with made := s.made.setIfInBounds n (some p) } : Site).madeOf m = some q) :
    m = n ∧ q = p ∨ s.madeOf m = some q := by
  simp only [madeOf, Array.getD_eq_getD_getElem?, Array.getElem?_setIfInBounds] at h ⊢
  grind

theorem make_serves (g : Graph) (fuel : Nat) : Serves g (make .tree fuel) := by
  induction fuel with
  | zero => exact fun _ _ _ _ _ => Builds.throw (.inl rfl)
  | succ fuel ih =>
    intro scope n owners s h
    unfold make
    apply Builds.get_bind
    split
    next p hp => exact .pure h (h.made n p hp)
    next =>
      refine .ite (fun _ => .throw (.inl rfl)) fun _ => ?_
      apply Builds.bind h (makeNew_builds ih h)
      intro p owners₁ s₁ h₁ _ hp
      have howned : Owned g owners₁ { s₁ with made := s₁.made.setIfInBounds n (some p) } := by
        refine { h₁ with made := fun m q hq => ?_ }
        rcases eq_or_madeOf_eq hq with ⟨rfl, rfl⟩ | hold
        · exact hp
        · exact h₁.made m q hold
      exact ⟨owners₁, howned, .of_draft_eq _ rfl, hp⟩

theorem fillAll_builds (h : Owned g owners s) (fuel : Nat) {waiting : List (NodeId × Nat)}
    (hwaiting : ∀ e ∈ waiting, owners[e.2]? = some e.1) :
    Builds g owners s (waiting.forM fun (n, k) => fill (make .tree fuel) ⟨[], false⟩ n k)
      fun _ _ _ => True := by
  induction waiting generalizing owners s with
  | nil => exact .pure h trivial
  | cons e waiting ih =>
    obtain ⟨hk, hwaiting⟩ := List.forall_mem_cons.1 hwaiting
    refine Builds.bind (y := fill _ _ e.1 e.2) h (fill_builds (make_serves g fuel) h hk) ?_
    intro _ owners₁ s₁ h₁ hafter _
    exact ih h₁ fun e' he' => getElem?_of_isPrefix hafter.owners (hwaiting e' he')

/-- Filling the pieces that wait fails only with what the document is to blame for. -/
theorem finish_builds (h : Owned g owners s) (fuel rounds : Nat) :
    Builds g owners s (finish .tree fuel rounds) fun _ _ _ => True := by
  induction rounds generalizing owners s with
  | zero => exact .throw (.inl rfl)
  | succ rounds ih =>
    unfold finish
    apply Builds.get_bind
    refine .ite (fun _ => .pure h trivial) fun _ => ?_
    have hempty : Owned g owners { s with waiting := [] } :=
      { h with waiting := List.forall_mem_nil _ }
    have hwaiting : ∀ e ∈ s.waiting.reverse, owners[e.2]? = some e.1 :=
      fun e he => h.waiting e (List.mem_reverse.1 he)
    refine Builds.set_bind (t := { s with waiting := [] }) rfl ?_
    exact Builds.bind hempty (fillAll_builds hempty fuel hwaiting) fun _ _ _ h₁ _ _ => ih h₁

end Site

open Site in
/-- Building fails only with a fault of the form, or with one that a node is to blame for. -/
theorem Graph.build_yields (g : Graph) (root : NodeId) :
    Yields g.Blamed (build .tree g root) fun _ => True := by
  have hstart : Owned g [] ⟨g, .empty, Array.replicate g.size none, []⟩ := by
    constructor
    case graph => exact .refl g
    case length => rfl
    case made =>
      simp only [madeOf, Array.getD_eq_getD_getElem?, Array.getElem?_replicate]
      grind
    case within => simp
    case suited => simp
    case waiting => exact List.forall_mem_nil _
  have hall : Builds g [] ⟨g, .empty, Array.replicate g.size none, []⟩ (buildFrom .tree root)
      fun _ _ _ => True := by
    unfold buildFrom
    apply Builds.get_bind
    apply Builds.bind hstart (make_serves g _ _ root _ _ hstart)
    intro p owners₁ s₁ h₁ _ _
    apply Builds.bind h₁ (finish_builds h₁ _ _)
    intro _ owners₂ s₂ h₂ _ _
    refine Builds.get_bind (Builds.pure h₂ trivial)
  exact Settles.run' hall fun _ _ _ => trivial

end TreePaths.Yaml
