import TreePaths.Proofs.Text.Digit
import TreePaths.Proofs.Yaml.Nodes
import TreePaths.Proofs.Yaml.Outcome
import TreePaths.Yaml.Token.Scalar

/-!
Making tokens of a text: it goes on within the text, and fails only where no token can be made, or
where a number is too large.
-/

namespace TreePaths

namespace Text

theorem lt_of_hexValue? {c : Char} {n : Nat} (h : hexValue? c = some n) : n < 16 := by
  have hle (d : Char) (hd : c ≤ d) : c.toNat ≤ d.toNat := hd
  have h9 := hle '9'
  have hf := hle 'f'
  have hF := hle 'F'
  unfold hexValue? at h
  grind

theorem lt_of_hexNumber? {ds : List Char} {n : Nat} (h : hexNumber? ds = some n) :
    n < 16 ^ ds.length := by
  obtain ⟨ns, hns, rfl⟩ := Option.map_eq_some_iff.1 h
  have hvalues := Yaml.mapM_eq_some.1 hns
  have hlength : ds.length = ns.length := by simpa using congrArg List.length hvalues
  have hall : ∀ m ∈ ns, m < 16 := by
    intro m hm
    obtain ⟨c, -, hc⟩ := List.mem_map.1 (hvalues ▸ List.mem_map_of_mem (f := some) hm)
    exact lt_of_hexValue? hc
  have hlt := digitsValue_lt (n := 0) hall
  rwa [hlength, ← Nat.one_mul (16 ^ ns.length)]

end Text

namespace Yaml

inductive Oversized (cs : List Char) : Fault → Prop
  | code {ds : List Char} {n : Nat} :
      ds.length = 8 → Text.hexNumber? ds = some n → 0x10FFFF < n → '\\' :: 'U' :: ds <:+: cs →
      Oversized cs (.code (0x7FFFFFFF < n))
  | major {spaces ds : List Char} :
      (∀ c ∈ spaces, c = ' ') → (∀ c ∈ ds, c.isDigit) → Text.digitLimit < ds.length →
      "%YAML".toList ++ (spaces ++ ds) <:+: cs → Oversized cs (.digits ds.length)
  | minor {spaces major ds : List Char} :
      (∀ c ∈ spaces, c = ' ') → (∀ c ∈ major, c.isDigit) → (∀ c ∈ ds, c.isDigit) →
      Text.digitLimit < ds.length → "%YAML".toList ++ (spaces ++ (major ++ '.' :: ds)) <:+: cs →
      Oversized cs (.digits ds.length)

def Unscanned (cs : List Char) (e : Fault) : Prop :=
  e = .token ∨ Oversized cs e

def Source.In (s : Source) (cs : List Char) : Prop :=
  s.rest <:+ cs

/-- What is scanned ends at a place of the text. -/
abbrev Scans {α : Type} (cs : List Char) (x : Except Fault (Scanned α)) : Prop :=
  Yields (Unscanned cs) x fun a => a.2.In cs

namespace Source

variable {s : Source} {cs : List Char}

@[simp] theorem rest_step (s : Source) : s.step.rest = s.rest.tail := by
  unfold step
  split <;> (try split) <;> simp [*]

@[simp] theorem rest_forward (n : Nat) (s : Source) : (s.forward n).rest = s.rest.drop n := by
  induction n generalizing s with
  | zero => rfl
  | succ n ih =>
    rw [forward, ih, rest_step, List.drop_tail]

theorem takeWhile_cases {p : Char → Bool} {ds : List Char} {t : Source}
    (h : s.takeWhile p = (ds, t)) : (∀ c ∈ ds, p c) ∧ s.rest = ds ++ t.rest := by
  obtain ⟨rfl, rfl⟩ := Prod.mk.inj h
  constructor
  · exact fun c hc => List.all_eq_true.mp List.all_takeWhile c hc
  · rw [rest_forward]
    exact (List.prefix_iff_eq_append.mp (List.takeWhile_prefix p)).symm

namespace In

theorem of_eq {α : Type} {x : Scanned α} {a : α} {t : Source} (h : x.2.In cs)
    (heq : x = (a, t)) : t.In cs := by
  rwa [heq] at h

theorem step (h : s.In cs) : s.step.In cs := by
  rw [In, rest_step]
  exact (List.tail_suffix _).trans h

theorem forward (h : s.In cs) (n : Nat) : (s.forward n).In cs := by
  rw [In, rest_forward]
  exact (List.drop_suffix n _).trans h

theorem takeWhile (h : s.In cs) (p : Char → Bool) : (s.takeWhile p).2.In cs :=
  h.forward _

theorem dropWhile (h : s.In cs) (p : Char → Bool) : (s.dropWhile p).In cs :=
  h.takeWhile p

theorem skipSpaces (h : s.In cs) : s.skipSpaces.In cs :=
  h.dropWhile _

theorem skipComment (h : s.In cs) : s.skipComment.In cs := by
  unfold Source.skipComment
  split
  · exact h.dropWhile _
  · exact h

theorem lineBreak (h : s.In cs) : s.lineBreak.2.In cs := by
  unfold Source.lineBreak
  repeat' split
  · exact h.forward 2
  · exact h.step
  · exact h.step
  · exact h
  · exact h

end In

theorem word_yields (s : Source) :
    Yields (· = .token) s.word fun a => s.rest = a.1.toList ++ a.2.rest := by
  unfold word
  split
  next => rfl
  next heq =>
    show _ = (String.ofList _).toList ++ _
    rw [String.toList_ofList]
    exact (takeWhile_cases heq).2

theorem word_scans (h : s.In cs) : Scans cs s.word :=
  (word_yields s).weaken (fun _ => .inl) fun _ hs => (hs ▸ List.suffix_append _ _).trans h

theorem anchorName_scans (h : s.In cs) : Scans cs s.anchorName := by
  unfold anchorName
  apply (word_scans h).bind
  rintro ⟨name, t⟩ ht
  exact Yields.ite (fun _ => ht) fun _ => .inl rfl

theorem tagHandle_scans (h : s.In cs) : Scans cs s.tagHandle := by
  unfold tagHandle
  refine Yields.ite (fun _ => .inl rfl) fun _ => Yields.ite (fun _ => h.step) fun _ => ?_
  split
  next heq => exact Yields.ite (fun _ => ((h.step.takeWhile _).of_eq heq).step) fun _ => .inl rfl

theorem tagChars_scans (fuel : Nat) (h : s.In cs) : Scans cs (tagChars fuel s) := by
  induction fuel generalizing s with
  | zero => exact h
  | succ fuel ih =>
    unfold tagChars
    split
    next heq =>
      have ht := (h.takeWhile _).of_eq heq
      refine Yields.ite (fun _ => ?_) fun _ => ht
      split
      next => exact .inl rfl
      next =>
        split
        next => exact .inl rfl
        next => exact (ih (ht.forward _)).map fun _ => id

theorem tagText_scans (h : s.In cs) : Scans cs s.tagText := by
  unfold tagText
  apply (tagChars_scans _ h).bind
  rintro ⟨ds, t⟩ ht
  exact Yields.ite (fun _ => .inl rfl) fun _ => ht

theorem tag_scans (h : s.In cs) : Scans cs s.tag := by
  have hend (token : Token) {t : Source} (ht : t.In cs) :
      Scans cs (if t.atSpace 0 then pure (token, t) else throw .token) :=
    Yields.ite (fun _ => ht) fun _ => .inl rfl
  unfold tag
  refine Yields.ite (fun _ => ?_) fun _ => Yields.ite (fun _ => hend _ h.step) fun _ =>
    Yields.ite (fun _ => ?_) fun _ => ?_
  · apply (tagText_scans (h.forward 2)).bind
    rintro ⟨suffix, t⟩ ht
    exact Yields.ite (fun _ => hend _ ht.step) fun _ => .inl rfl
  · apply (tagHandle_scans h).bind
    rintro ⟨handle, t⟩ ht
    exact (tagText_scans ht).bind fun _ => hend _
  · exact (tagText_scans h.step).bind fun _ => hend _

theorem ignoredLine_scans (h : s.In cs) : Yields (Unscanned cs) s.ignoredLine (·.In cs) := by
  unfold ignoredLine
  exact Yields.ite (fun _ => h.skipSpaces.skipComment.lineBreak) fun _ => .inl rfl

theorem versionNumber_yields {P : Fault → Prop} (htoken : P .token)
    (hlong : ∀ ds rest, (∀ c ∈ ds, c.isDigit) → Text.digitLimit < ds.length →
      s.rest = ds ++ rest → P (.digits ds.length)) :
    Yields P s.versionNumber fun a => ∃ ds, (∀ c ∈ ds, c.isDigit) ∧ s.rest = ds ++ a.2.rest := by
  unfold versionNumber
  split
  next => exact htoken
  next ds t _ heq =>
    obtain ⟨hdigits, hrest⟩ := takeWhile_cases heq
    exact Yields.ite (fun hlimit => hlong ds t.rest hdigits hlimit hrest) fun _ =>
      ⟨ds, hdigits, hrest⟩

theorem rest_of_sees {c : Char} (h : s.sees 0 (· = c) = true) : ∃ rest, s.rest = c :: rest := by
  unfold sees peek at h
  cases hs : s.rest with
  | nil =>
    rw [hs] at h
    cases h
  | cons d rest =>
    rw [hs] at h
    obtain rfl : d = c := of_decide_eq_true h
    exact ⟨rest, rfl⟩

/-- The numbers of a version, behind the name of the directive. -/
theorem versionDirective_scans (h : "%YAML".toList ++ s.rest <:+ cs) :
    Scans cs s.versionDirective := by
  obtain ⟨spaces, hspaces, hs⟩ : ∃ spaces : List Char, (∀ c ∈ spaces, c = ' ') ∧
      s.rest = spaces ++ s.skipSpaces.rest := by
    obtain ⟨hall, hrest⟩ := takeWhile_cases (s := s) (p := (· = ' ')) rfl
    exact ⟨_, fun c hc => of_decide_eq_true (hall c hc), hrest⟩
  have hmajor (ds rest : List Char) (hds : ∀ c ∈ ds, c.isDigit)
      (hlimit : Text.digitLimit < ds.length) (hrest : s.skipSpaces.rest = ds ++ rest) :
      Unscanned cs (.digits ds.length) := by
    refine .inr (.major hspaces hds hlimit (List.IsInfix.trans ⟨[], rest, ?_⟩ h.isInfix))
    simp [hs, hrest]
  unfold versionDirective
  apply (versionNumber_yields (.inl rfl) hmajor).bind
  rintro ⟨major, t⟩ ⟨ds, hds, ht⟩
  refine Yields.ite (fun _ => .inl rfl) fun hpoint => ?_
  obtain ⟨behind, hbehind⟩ := rest_of_sees (by simpa using hpoint)
  have hminor (es rest : List Char) (hes : ∀ c ∈ es, c.isDigit)
      (hlimit : Text.digitLimit < es.length) (hrest : t.step.rest = es ++ rest) :
      Unscanned cs (.digits es.length) := by
    refine .inr (.minor hspaces hds hes hlimit (List.IsInfix.trans ⟨[], rest, ?_⟩ h.isInfix))
    rw [rest_step, hbehind, List.tail_cons] at hrest
    simp [hs, ht, hbehind, hrest]
  apply (versionNumber_yields (.inl rfl) hminor).bind
  rintro ⟨minor, u⟩ ⟨es, -, hu⟩
  refine Yields.ite (fun _ => ?_) fun _ => .inl rfl
  rw [rest_step, hbehind, List.tail_cons] at hu
  refine List.IsSuffix.trans ⟨"%YAML".toList ++ (spaces ++ (ds ++ '.' :: es)), ?_⟩ h
  simp [hs, ht, hbehind, hu]

theorem handleDirective_scans (h : s.In cs) : Scans cs s.handleDirective := by
  unfold handleDirective
  apply (tagHandle_scans h.skipSpaces).bind
  rintro ⟨handle, t⟩ ht
  refine Yields.ite (fun _ => .inl rfl) fun _ => (tagText_scans ht.skipSpaces).bind ?_
  rintro ⟨lead, u⟩ hu
  exact Yields.ite (fun _ => hu) fun _ => .inl rfl

/-- A directive fails only with its form, or with a version that is too long. -/
theorem directive_scans (h : s.In cs) (hs : ∃ rest, s.rest = '%' :: rest) :
    Scans cs s.directive := by
  obtain ⟨rest, hs⟩ := hs
  have hend (d : Directive) {u : Source} (hu : u.In cs) :
      Scans cs (do return (Token.directive d, ← u.ignoredLine)) :=
    (ignoredLine_scans hu).bind fun _ => id
  unfold directive
  apply ((word_yields s.step).weaken (fun _ => .inl) fun _ => id).bind
  rintro ⟨name, t⟩ hname
  rw [rest_step, hs, List.tail_cons] at hname
  have hline : '%' :: (name.toList ++ t.rest) <:+ cs := hname ▸ hs ▸ h
  have ht : t.In cs := List.IsSuffix.trans ⟨'%' :: name.toList, rfl⟩ hline
  refine Yields.ite (fun _ => .inl rfl) fun _ => ?_
  split
  · exact (versionDirective_scans hline).bind fun a => hend a.1
  · exact (handleDirective_scans ht).bind fun a => hend a.1
  · exact hend .other (ht.dropWhile _)

theorem codeLength?_cases {c : Char} {n : Nat} (h : codeLength? c = some n) :
    c = 'U' ∧ n = 8 ∨ n ≤ 4 := by
  simp only [codeLength?, List.lookup_cons, List.lookup_nil] at h
  grind

theorem code_scans {c : Char} {rest : List Char} {n : Nat} (h : s.In cs)
    (hs : s.rest = '\\' :: c :: rest) (hn : codeLength? c = some n) :
    Scans cs ((s.forward 2).code n) := by
  unfold code
  split
  next => exact .inl rfl
  next m hm =>
    rw [rest_forward, hs, List.drop_succ_cons, List.drop_succ_cons, List.drop_zero] at hm ⊢
    refine Yields.ite (fun _ => .inl rfl) fun hlength => ?_
    refine Yields.ite (fun hlarge => .inr ?_) fun _ => (h.forward 2).forward n
    have hlt := Text.lt_of_hexNumber? hm
    rw [List.length_take_of_le (Nat.le_of_not_lt hlength)] at hlt
    rcases codeLength?_cases hn with ⟨rfl, rfl⟩ | hshort
    · refine .code (List.length_take_of_le (Nat.le_of_not_lt hlength)) hm hlarge ?_
      refine List.IsInfix.trans ⟨[], rest.drop 8, ?_⟩ h.isInfix
      simp [hs]
    · have := Nat.pow_le_pow_right (n := 16) (by decide) hshort
      omega

theorem quotedBreaks_scans (fuel : Nat) (h : s.In cs) : Scans cs (quotedBreaks fuel s) := by
  induction fuel generalizing s with
  | zero => exact .inl rfl
  | succ fuel ih =>
    have hline := (h.dropWhile isBlankChar).lineBreak
    unfold quotedBreaks
    refine Yields.ite (fun _ => .inl rfl) fun _ => ?_
    split
    next t heq => exact hline.of_eq heq
    next c t heq => exact (ih (hline.of_eq heq)).map fun _ => id

theorem quotedBlanks_scans (h : s.In cs) : Scans cs s.quotedBlanks := by
  unfold quotedBlanks
  have ht := h.takeWhile isBlankChar
  refine Yields.ite (fun _ => .inl rfl) fun _ => ?_
  split
  next t heq => exact ht.lineBreak.of_eq heq
  next c t heq => exact (quotedBreaks_scans _ (ht.lineBreak.of_eq heq)).bind fun _ => id

theorem quotedWord_scans (double : Bool) (fuel : Nat) (h : s.In cs) :
    Scans cs (quotedWord double fuel s) := by
  induction fuel generalizing s with
  | zero => exact .inl rfl
  | succ fuel ih =>
    have hmore (codes : List Nat) {t : Source} (ht : t.In cs) :
        Scans cs ((quotedWord double fuel t).map fun r => (codes ++ r.1, r.2)) :=
      (ih ht).map fun _ => id
    unfold quotedWord
    dsimp only
    split
    next heq => exact hmore _ ((h.takeWhile _).of_eq heq)
    next =>
    split
    next => exact hmore _ (h.forward 2)
    next => exact hmore _ h.step
    next => exact hmore _ h.step
    next => exact hmore _ h.step
    next c rest hs =>
      split
      · exact hmore _ (h.forward 2)
      next hn => exact (code_scans h hs hn).bind fun a => hmore [a.1]
      · refine Yields.ite (fun _ => ?_) fun _ => .inl rfl
        exact (quotedBreaks_scans _ h.step.lineBreak).bind fun a => hmore (a.1.map Char.toNat)
    next => exact .inl rfl
    next => exact h

theorem quotedCodes_scans (double : Bool) (fuel : Nat) (h : s.In cs) :
    Scans cs (quotedCodes double fuel s) := by
  induction fuel generalizing s with
  | zero => exact .inl rfl
  | succ fuel ih =>
    unfold quotedCodes
    apply (quotedWord_scans double _ h).bind
    rintro ⟨codes, t⟩ ht
    refine Yields.ite (fun _ => ht.step) fun _ => ?_
    apply (quotedBlanks_scans ht).bind
    rintro ⟨blanks, u⟩ hu
    exact (ih hu).bind fun _ => id

theorem quoted_scans (double : Bool) (h : s.In cs) : Scans cs (quoted double s) :=
  (quotedCodes_scans double _ h.step).map fun _ => id

theorem increment?_scans (h : s.In cs) : Scans cs s.increment? := by
  unfold increment?
  split
  · refine Yields.ite (fun _ => h) fun _ => Yields.ite (fun _ => .inl rfl) fun _ => h.step
  · exact h

theorem blockHeader_scans (h : s.In cs) : Scans cs s.blockHeader := by
  have hend (header : Chomping × Option Nat) {t : Source} (ht : t.In cs) :
      Scans cs (if t.atSpace 0 then pure (header, t) else throw .token) :=
    Yields.ite (fun _ => ht) fun _ => .inl rfl
  unfold blockHeader
  split
  · exact (increment?_scans h.step).bind fun _ => hend _
  · apply (increment?_scans h).bind
    rintro ⟨n, t⟩ ht
    dsimp only
    split
    · exact hend _ ht.step
    · exact hend _ ht

namespace In

theorem blockIndentation (fuel deepest : Nat) (h : s.In cs) :
    (blockIndentation fuel deepest s).2.In cs := by
  induction fuel generalizing s deepest with
  | zero => exact h
  | succ fuel ih =>
    have hline := h.skipSpaces.lineBreak
    unfold Source.blockIndentation
    dsimp only
    split
    next t heq => exact hline.of_eq heq
    next c t heq => exact ih _ (hline.of_eq heq)

theorem blockBreaks (indent fuel : Nat) (h : s.In cs) : (blockBreaks indent fuel s).2.In cs := by
  induction fuel generalizing s with
  | zero => exact h
  | succ fuel ih =>
    have hline : (s.skipIndentation indent).lineBreak.2.In cs := (h.forward _).lineBreak
    unfold Source.blockBreaks
    split
    next t heq => exact hline.of_eq heq
    next c t heq => exact ih (hline.of_eq heq)

theorem blockLines (folded : Bool) (indent fuel : Nat) (breaks : List Char) (h : s.In cs) :
    (blockLines folded indent fuel breaks s).2.In cs := by
  induction fuel generalizing s breaks with
  | zero => exact h
  | succ fuel ih =>
    unfold Source.blockLines
    have hmore := (h.takeWhile (!isBreak ·)).lineBreak.blockBreaks indent
      ((s.takeWhile (!isBreak ·)).2.lineBreak.2.rest.length + 1)
    dsimp only
    split
    · exact ih _ hmore
    · exact hmore

theorem plainBreaks (fuel : Nat) (h : s.In cs) : (plainBreaks fuel s).2.In cs := by
  induction fuel generalizing s with
  | zero => exact h
  | succ fuel ih =>
    have hline := h.skipSpaces.lineBreak
    unfold Source.plainBreaks
    split
    next t heq => exact hline.of_eq heq
    next c t heq =>
      split
      · exact hline.of_eq heq
      · exact ih (hline.of_eq heq)

theorem plainBlanks (h : s.In cs) : s.plainBlanks.2.In cs := by
  have hline := (h.takeWhile (· = ' ')).lineBreak
  unfold Source.plainBlanks
  dsimp only
  split
  next t heq => exact hline.of_eq heq
  next c t heq =>
    have hmore := (hline.of_eq heq).plainBreaks (t.rest.length + 1)
    split
    · exact hline.of_eq heq
    · split
      next heq' => exact hmore.of_eq heq'
      next heq' => exact hmore.of_eq heq'

theorem plainWords (inFlow : Bool) (indent : Int) (fuel : Nat) (broken : Bool) (blanks : List Char)
    (h : s.In cs) : (plainWords inFlow indent fuel broken blanks s).2.In cs := by
  induction fuel generalizing s broken blanks with
  | zero => exact h
  | succ fuel ih =>
    unfold Source.plainWords
    extract_lets n
    have hmore := (h.forward n).plainBlanks
    split
    · exact h
    · dsimp only
      split
      · exact hmore
      · exact ih _ _ hmore

theorem plain (inFlow : Bool) (parent : Int) (h : s.In cs) : (s.plain inFlow parent).2.In cs := by
  unfold Source.plain
  exact h.plainWords inFlow (parent + 1) _ false []

end In

theorem block_scans (parent : Int) (folded : Bool) (h : s.In cs) :
    Scans cs (s.block parent folded) := by
  unfold block
  apply (blockHeader_scans h.step).bind
  rintro ⟨⟨chomping, increment⟩, t⟩ ht
  apply (ignoredLine_scans ht).bind
  intro u hu
  have hlines (indent : Nat) (breaks : List Char) {v : Source} (hv : v.In cs) :
      (if v.isInBlock indent then blockLines folded indent (v.rest.length + 1) breaks v
        else (([], none, breaks), v)).2.In cs := by
    split
    · exact hv.blockLines folded indent _ breaks
    · exact hv
  cases increment with
  | none =>
    have hv := hu.blockIndentation (u.rest.length + 1) 0
    exact hlines _ _ hv
  | some n =>
    have hv := hu.blockBreaks ((max (parent + 1) 1).toNat + n - 1) (u.rest.length + 1)
    exact hlines _ _ hv

end Source

end Yaml

end TreePaths
