import TreePaths.Path.Written
import TreePaths.Proofs.Path.Reading
import TreePaths.Proofs.Text.Digit

/-!
Written names and paths as tokens: the outline that the text of a path has.
-/

namespace TreePaths

section Characters

variable {c : Char}

theorem toNat_of_isNameChar (h : isNameChar c) : c.toNat < 128 := by
  simp only [isNameChar, isNameStart, Bool.or_eq_true, decide_eq_true_eq] at h
  rcases h with ((h | rfl) | rfl) | h
  · rcases Bool.or_eq_true_iff.mp h with hupper | hlower
    · have hle : c.toNat ≤ 90 := (of_decide_eq_true hupper).2
      omega
    · have hle : c.toNat ≤ 122 := of_decide_eq_true (Bool.and_eq_true_iff.mp hlower).2
      omega
  · decide
  · decide
  · have hle := (Text.toNat_of_isDigit h).2
    omega

/-- What holds of all ASCII characters by inspection. -/
theorem of_ascii {p : Char → Prop} (h : ∀ n : Fin 128, p (Char.ofNat n)) (hc : c.toNat < 128) :
    p c := by
  have hp := h ⟨c.toNat, hc⟩
  rwa [Char.ofNat_toNat] at hp

theorem isBareChar_of_isNameChar (h : isNameChar c) : Token.isBareChar c := by
  refine of_ascii (p := fun c => isNameChar c → Token.isBareChar c) ?_ (toNat_of_isNameChar h) h
  decide

theorem not_isDigit_of_isNameStart (h : isNameStart c) : Text.isDigit c = false := by
  have hname : isNameChar c := by simp [isNameChar, h]
  refine of_ascii (p := fun c => isNameStart c → Text.isDigit c = false) ?_
    (toNat_of_isNameChar hname) h
  decide

theorem isBareChar_of_isDigit (h : c.isDigit) : Token.isBareChar c :=
  isBareChar_of_isNameChar (by simp [isNameChar, h])

end Characters

namespace Token

/-- Wherever the text starts, it splits into such tokens. -/
def SplitsInto (cs : List Char) (P : List Token → Prop) : Prop :=
  ∀ offset, ∃ ts, Splits offset cs ts ∧ P ts

variable {cs text rest : List Char} {kind : TokenKind} {P Q : List Token → Prop} {c : Char}

theorem SplitsInto.imp (h : SplitsInto cs P) (hPQ : ∀ ts, P ts → Q ts) : SplitsInto cs Q := by
  intro offset
  obtain ⟨ts, hsplits, hP⟩ := h offset
  exact ⟨ts, hsplits, hPQ ts hP⟩

theorem SplitsInto.token (hlongest : Longest kind text rest) (h : SplitsInto rest P) :
    SplitsInto (text ++ rest) fun ts => ∃ offset us, ts = ⟨kind, text, offset⟩ :: us ∧ P us := by
  intro offset
  obtain ⟨ts, hsplits, hP⟩ := h (offset + text.length)
  exact ⟨_, .token hlongest hsplits, offset, ts, rfl, hP⟩

theorem SplitsInto.blank (hc : Text.isBlank c) (h : SplitsInto cs P) : SplitsInto (c :: cs) P := by
  intro offset
  obtain ⟨ts, hsplits, hP⟩ := h (offset + 1)
  exact ⟨ts, .blank hc hsplits, hP⟩

theorem SplitsInto.nil (h : P []) : SplitsInto [] P :=
  fun _ => ⟨[], .nil, h⟩

end Token

def LineFed (s : String) : Prop :=
  ∃ cs, isIdentifier cs ∧ s.toList = cs ++ ['\n']

/-- The atom that a written name is read as. An identifier that a line feed follows loses it. -/
def writtenName (s : String) : Atom :=
  if isBareName s then
    if isIdentifier s.toList then ⟨s, false⟩ else ⟨.ofList s.toList.dropLast, false⟩
  else ⟨s, true⟩

def writtenItem (c : Component) : Item where
  annotations := c.annotations.map writtenName
  atom :=
    match c.selector with
    | .field n => writtenName n
    | .index i => ⟨toString i, false⟩
    | .wildcard => ⟨"*", false⟩

def writtenOutline (p : SearchPath) : Outline :=
  ⟨p.annotations.map writtenName, p.components.map writtenItem⟩

section Names

variable {s : String} {cs rest : List Char} {P : List Token → Prop}

theorem isIdentifier_ne_nil (h : isIdentifier cs) : cs ≠ [] := by
  rintro rfl
  cases h

theorem isBareChar_of_isIdentifier (h : isIdentifier cs) : ∀ c ∈ cs, Token.isBareChar c := by
  cases cs with
  | nil => simp
  | cons c cs =>
    simp only [isIdentifier, Bool.and_eq_true, List.all_eq_true] at h
    intro d hd
    rcases List.mem_cons.mp hd with rfl | hd
    · exact isBareChar_of_isNameChar (by simp [isNameChar, h.1])
    · exact isBareChar_of_isNameChar (h.2 d hd)

theorem quotes_escapeQuoted (cs : List Char) : Token.Quotes '\'' (escapeQuoted cs) cs := by
  induction cs with
  | nil => exact .nil
  | cons c cs ih =>
    unfold escapeQuoted
    split
    next => exact .escaped ih
    next h =>
      have hc : c ≠ '\\' ∧ c ≠ '\'' := by simpa using h
      exact .plain hc.2 hc.1 ih

theorem isBlank_lineFeed : Text.isBlank '\n' := by decide

theorem stops_lineFeed (rest : List Char) : Token.Stops ('\n' :: rest) := by
  rintro c ⟨⟩
  decide

theorem isQuote_quote : Token.isQuote '\'' := by decide

theorem LineFed.getLast? (h : LineFed s) : s.toList.getLast? = some '\n' := by
  obtain ⟨cs, -, hs⟩ := h
  rw [hs, List.getLast?_concat]

theorem LineFed.not_isIdentifier (h : LineFed s) : ¬isIdentifier s.toList := by
  intro hident
  have hmem := List.mem_of_getLast? h.getLast?
  exact absurd (isBareChar_of_isIdentifier hident _ hmem) (by decide)

theorem lineFed_iff : LineFed s ↔
    (s.toList.getLast? = some '\n' && isIdentifier s.toList.dropLast) = true := by
  constructor
  · intro h
    obtain ⟨cs, hcs, hs⟩ := id h
    rw [h.getLast?, hs, List.dropLast_concat, hcs]
    rfl
  · intro h
    rw [Bool.and_eq_true, decide_eq_true_eq] at h
    obtain ⟨cs, hs⟩ := List.getLast?_eq_some_iff.mp h.1
    rw [hs, List.dropLast_concat] at h
    exact ⟨cs, h.2, hs⟩

theorem isBareName_iff :
    isBareName s ↔ (isIdentifier s.toList ∨ LineFed s) ∧ s ≠ fieldEscape := by
  rw [lineFed_iff]
  simp [isBareName]

theorem writtenName_of_lineFed (h : LineFed s) :
    writtenName s = ⟨.ofList s.toList.dropLast, false⟩ := by
  have hne : s ≠ fieldEscape := by
    rintro rfl
    exact absurd h.getLast? (by decide)
  rw [writtenName, if_pos (isBareName_iff.mpr ⟨.inr h, hne⟩), if_neg h.not_isIdentifier]

theorem writtenName_of_not_lineFed (h : ¬LineFed s) : writtenName s = ⟨s, true⟩ ∨
    writtenName s = ⟨s, false⟩ ∧ isIdentifier s.toList ∧ s ≠ fieldEscape := by
  unfold writtenName
  split
  next hbare =>
    obtain ⟨hident, hne⟩ := isBareName_iff.mp hbare
    have hident := hident.resolve_right h
    rw [if_pos hident]
    exact .inr ⟨rfl, hident, hne⟩
  next => exact .inl rfl

/-- A name is read as it is written, unless it is an identifier that a line feed follows. -/
theorem text_writtenName_eq_iff : (writtenName s).text = s ↔ ¬LineFed s := by
  constructor
  · intro htext h
    rw [writtenName_of_lineFed h] at htext
    have hlength := congrArg (fun s => s.toList.length) htext
    obtain ⟨cs, -, hs⟩ := h
    simp [hs] at hlength
  · intro h
    rcases writtenName_of_not_lineFed h with h | ⟨h, -⟩ <;> rw [h]

theorem splitsInto_bare (hne : s.toList ≠ []) (hs : ∀ c ∈ s.toList, Token.isBareChar c)
    (hrest : Token.Stops rest) (h : Token.SplitsInto rest P) :
    Token.SplitsInto (s.toList ++ rest)
      fun ts => ∃ t us, ts = t :: us ∧ t.Denotes ⟨s, false⟩ ∧ P us := by
  apply (Token.SplitsInto.token (Token.longest_bare hne hs hrest) h).imp
  rintro _ ⟨offset, us, rfl, hP⟩
  have hdenotes : Token.Denotes ⟨.bare, s.toList, offset⟩ ⟨.ofList s.toList, false⟩ := .bare
  rw [String.ofList_toList] at hdenotes
  exact ⟨_, us, rfl, hdenotes, hP⟩

/-- A written name is one token, and after it perhaps a blank. -/
theorem splitsInto_writeName (s : String) (hrest : Token.Stops rest)
    (h : Token.SplitsInto rest P) : Token.SplitsInto ((writeName s).toList ++ rest)
      fun ts => ∃ t us, ts = t :: us ∧ t.Denotes (writtenName s) ∧ P us := by
  unfold writeName writtenName
  split
  next hbare =>
    split
    next hident =>
      exact splitsInto_bare (isIdentifier_ne_nil hident) (isBareChar_of_isIdentifier hident) hrest h
    next hident =>
      obtain ⟨cs, hcs, hs⟩ := (isBareName_iff.mp hbare).1.resolve_left hident
      rw [hs, List.append_assoc, List.singleton_append, List.dropLast_concat]
      have hlongest := Token.longest_bare (isIdentifier_ne_nil hcs)
        (isBareChar_of_isIdentifier hcs) (stops_lineFeed rest)
      apply (Token.SplitsInto.token hlongest (h.blank isBlank_lineFeed)).imp
      rintro _ ⟨offset, us, rfl, hP⟩
      exact ⟨_, us, rfl, .bare, hP⟩
  next =>
    have hlongest := @Token.longest_quoted rest _ _ _ isQuote_quote (quotes_escapeQuoted s.toList)
    rw [String.toList_ofList]
    apply (Token.SplitsInto.token hlongest h).imp
    rintro _ ⟨offset, us, rfl, hP⟩
    have hdenotes : Token.Denotes ⟨.quoted, _, offset⟩ ⟨.ofList s.toList, true⟩ :=
      .quoted (quotes_escapeQuoted s.toList)
    rw [String.ofList_toList] at hdenotes
    exact ⟨_, us, rfl, hdenotes, hP⟩

end Names

section Paths

variable {rest : List Char} {P : List Token → Prop}

theorem splitsInto_writeAnnotations (as : List String) (h : Token.SplitsInto rest P) :
    Token.SplitsInto ((writeAnnotations as).toList ++ rest)
      fun ts => ∃ us vs, ts = us ++ vs ∧ Annotates us (as.map writtenName) ∧ P vs := by
  induction as with
  | nil => exact h.imp fun ts hP => ⟨[], ts, rfl, .nil, hP⟩
  | cons a as ih =>
    have htext : (writeAnnotations (a :: as)).toList ++ rest =
        (writeName a).toList ++ ([':', ':'] ++ ((writeAnnotations as).toList ++ rest)) := by
      simp [writeAnnotations, String.join_cons]
    have hstops : Token.Stops ([':', ':'] ++ ((writeAnnotations as).toList ++ rest)) := by
      rintro c ⟨⟩
      decide
    rw [htext]
    apply (splitsInto_writeName a hstops (ih.token Token.longest_separator)).imp
    rintro _ ⟨t, _, rfl, ht, offset, _, rfl, us, vs, rfl, hus, hP⟩
    exact ⟨t :: ⟨.separator, [':', ':'], offset⟩ :: us, vs, rfl, .cons ht rfl hus, hP⟩

theorem isDigit_of_mem_toString {i : Nat} : ∀ c ∈ (toString i).toList, c.isDigit := by
  intro c hc
  rw [Nat.toString_eq_repr, Nat.toList_repr] at hc
  exact Nat.isDigit_of_mem_toDigits (by decide) (by decide) hc

/-- A component that is written splits into its annotations and its atom. -/
theorem splitsInto_component (c : Component) (hrest : Token.Stops rest)
    (h : Token.SplitsInto rest P) : Token.SplitsInto (c.text.toList ++ rest)
      fun ts => ∃ us t vs, ts = us ++ t :: vs ∧ Annotates us (writtenItem c).annotations ∧
        t.Denotes (writtenItem c).atom ∧ P vs := by
  obtain ⟨selector, annotations⟩ := c
  have hselector : ∃ s : String, (Component.mk selector annotations).text =
      writeAnnotations annotations ++ s ∧ Token.SplitsInto (s.toList ++ rest)
        fun ts => ∃ t vs, ts = t :: vs ∧
          t.Denotes (writtenItem ⟨selector, annotations⟩).atom ∧ P vs := by
    cases selector with
    | field n => exact ⟨_, rfl, splitsInto_writeName n hrest h⟩
    | index i =>
      refine ⟨toString i, rfl, splitsInto_bare ?_ ?_ hrest h⟩
      · rw [Nat.toString_eq_repr, Nat.toList_repr]
        exact Nat.toDigits_ne_nil
      · exact fun c hc => isBareChar_of_isDigit (isDigit_of_mem_toString c hc)
    | wildcard =>
      have hbare : ∀ c ∈ ['*'], Token.isBareChar c := by
        intro c hc
        rw [List.mem_singleton.mp hc]
        decide
      exact ⟨"*", rfl, splitsInto_bare (by decide) hbare hrest h⟩
  obtain ⟨s, htext, hs⟩ := hselector
  rw [htext, String.toList_append, List.append_assoc]
  apply (splitsInto_writeAnnotations annotations hs).imp
  rintro _ ⟨us, _, rfl, hus, t, vs, rfl, ht, hP⟩
  exact ⟨us, t, vs, rfl, hus, ht, hP⟩

/-- Components that are written with spaces between them split into their items. -/
theorem splitsInto_components (cs : List Component) :
    Token.SplitsInto ((" ".intercalate (cs.map (·.text))).toList ++ [')'])
      fun ts => ∃ vs c, ts = vs ++ [c] ∧ Itemizes vs (cs.map writtenItem) ∧
        c.kind = .closing := by
  have hclosing : Token.SplitsInto [')'] fun ts => ∃ vs c, ts = vs ++ [c] ∧ Itemizes vs [] ∧
      c.kind = .closing := by
    have hnil : Token.SplitsInto [] (· = []) := .nil rfl
    have h := hnil.token Token.longest_closing
    apply h.imp
    rintro _ ⟨offset, _, rfl, rfl⟩
    exact ⟨[], _, rfl, .nil, rfl⟩
  induction cs with
  | nil => exact hclosing
  | cons c cs ih =>
    have hcons : ∀ ts, (∃ us t vs, ts = us ++ t :: vs ∧
        Annotates us (writtenItem c).annotations ∧ t.Denotes (writtenItem c).atom ∧
        ∃ ws d, vs = ws ++ [d] ∧ Itemizes ws (cs.map writtenItem) ∧ d.kind = .closing) →
        ∃ vs d, ts = vs ++ [d] ∧ Itemizes vs ((c :: cs).map writtenItem) ∧
          d.kind = .closing := by
      rintro _ ⟨us, t, _, rfl, hus, ht, ws, d, rfl, hws, hd⟩
      exact ⟨us ++ t :: ws, d, by simp, .cons hus ht hws, hd⟩
    cases cs with
    | nil =>
      have hstops : Token.Stops [')'] := by
        rintro c ⟨⟩
        decide
      rw [List.map_cons, List.map_nil, String.intercalate_singleton]
      exact (splitsInto_component c hstops hclosing).imp hcons
    | cons d cs =>
      have hstops : Token.Stops (' ' ::
          ((" ".intercalate ((d :: cs).map (·.text))).toList ++ [')'])) := by
        rintro c ⟨⟩
        decide
      have htext : (" ".intercalate ((c :: d :: cs).map (·.text))).toList ++ [')'] =
          c.text.toList ++
            (' ' :: ((" ".intercalate ((d :: cs).map (·.text))).toList ++ [')'])) := by
        simp [String.intercalate_cons_cons]
      rw [htext]
      exact (splitsInto_component c hstops (ih.blank (by decide))).imp hcons

/-- The text of a path has the outline of the path. -/
theorem splitsInto_text (p : SearchPath) :
    Token.SplitsInto p.text.toList fun ts => Derives ts (writtenOutline p) := by
  have htext : p.text.toList = (writeAnnotations p.annotations).toList ++
      (['('] ++ ((" ".intercalate (p.components.map (·.text))).toList ++ [')'])) := by
    simp [SearchPath.text]
  rw [htext]
  refine (splitsInto_writeAnnotations p.annotations
    ((splitsInto_components p.components).token Token.longest_opening)).imp ?_
  rintro _ ⟨us, _, rfl, hus, offset, _, rfl, vs, c, rfl, hvs, hc⟩
  exact .list hus rfl hvs hc

end Paths

end TreePaths
