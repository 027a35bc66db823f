import TreePaths.Text.Blank

/-!
Tokens of a search path text: parentheses, separators, quoted and bare tokens. A quoted token ends
at the first quote of its kind that no backslash takes; a bare one is as long as it can be.
-/

namespace TreePaths

inductive TokenKind where
  | opening
  | closing
  | separator
  | quoted
  | bare
  deriving DecidableEq, Repr

/-- A token with its characters, quotes included, and its offset in the text. -/
structure Token where
  kind : TokenKind
  text : List Char
  offset : Nat
  deriving DecidableEq, Repr

namespace Token

def isQuote (c : Char) : Bool :=
  c = '\'' || c = '"'

def isBareChar (c : Char) : Bool :=
  !(Text.isBlank c || c = '(' || c = ')' || c = ':' || isQuote c)

/-- Splits the text behind an opening quote after the closing one. -/
def splitQuoted (q : Char) : List Char → Option (List Char × List Char)
  | [] => none
  | ['\\'] => none
  | '\\' :: c :: cs => (splitQuoted q cs).map fun (body, rest) => ('\\' :: c :: body, rest)
  | c :: cs =>
    if c = q then some ([c], cs)
    else (splitQuoted q cs).map fun (body, rest) => (c :: body, rest)

/-- The kind of the first token of a text, its characters and the rest. -/
def first? : List Char → Option (TokenKind × List Char × List Char)
  | [] => none
  | '(' :: cs => some (.opening, ['('], cs)
  | ')' :: cs => some (.closing, [')'], cs)
  | ':' :: ':' :: cs => some (.separator, [':', ':'], cs)
  | c :: cs =>
    if isQuote c then (splitQuoted c cs).map fun (body, rest) => (.quoted, c :: body, rest)
    else if isBareChar c then some (.bare, c :: cs.takeWhile isBareChar, cs.dropWhile isBareChar)
    else none

theorem splitQuoted_append {q : Char} {cs body rest : List Char}
    (h : splitQuoted q cs = some (body, rest)) : body ++ rest = cs := by
  induction cs using splitQuoted.induct q generalizing body rest with
  | case1 => simp [splitQuoted] at h
  | case2 => simp [splitQuoted] at h
  | case3 c cs ih =>
    simp only [splitQuoted, Option.map_eq_some_iff, Prod.mk.injEq] at h
    obtain ⟨⟨b, r⟩, hb, rfl, rfl⟩ := h
    simp [ih hb]
  | case4 cs hn hs =>
    rw [splitQuoted.eq_4 _ _ _ hn hs, if_pos rfl] at h
    simp only [Option.some.injEq, Prod.mk.injEq] at h
    obtain ⟨rfl, rfl⟩ := h
    rfl
  | case5 c cs _ _ hq ih =>
    rw [splitQuoted.eq_4 _ _ _ (by assumption) (by assumption), if_neg hq,
      Option.map_eq_some_iff] at h
    obtain ⟨⟨b, r⟩, hb, he⟩ := h
    simp only [Prod.mk.injEq] at he
    obtain ⟨rfl, rfl⟩ := he
    simp [ih hb]

/-- The first token and the rest make up the text. -/
theorem first?_append {cs text rest : List Char} {k : TokenKind}
    (h : first? cs = some (k, text, rest)) : text ++ rest = cs := by
  unfold first? at h
  split at h
  · simp at h
  · simp only [Option.some.injEq, Prod.mk.injEq] at h
    obtain ⟨-, rfl, rfl⟩ := h
    rfl
  · simp only [Option.some.injEq, Prod.mk.injEq] at h
    obtain ⟨-, rfl, rfl⟩ := h
    rfl
  · simp only [Option.some.injEq, Prod.mk.injEq] at h
    obtain ⟨-, rfl, rfl⟩ := h
    rfl
  · split at h
    · obtain ⟨⟨b, r⟩, hb, he⟩ := Option.map_eq_some_iff.1 h
      simp only [Prod.mk.injEq] at he
      obtain ⟨-, rfl, rfl⟩ := he
      simp [splitQuoted_append hb]
    · split at h
      · simp only [Option.some.injEq, Prod.mk.injEq] at h
        obtain ⟨-, rfl, rfl⟩ := h
        simp
      · simp at h

theorem first?_ne_nil {cs text rest : List Char} {k : TokenKind}
    (h : first? cs = some (k, text, rest)) : text ≠ [] := by
  rintro rfl
  unfold first? at h
  split at h
  · simp at h
  · simp at h
  · simp at h
  · simp at h
  · split at h
    · simp [Option.map_eq_some_iff] at h
    · split at h <;> simp at h

theorem length_rest_lt {cs text rest : List Char} {k : TokenKind}
    (h : first? cs = some (k, text, rest)) : rest.length < cs.length := by
  have hne := List.length_pos_iff.2 (first?_ne_nil h)
  have := congrArg List.length (first?_append h)
  simp only [List.length_append] at this
  omega

structure Stray where
  char : Char
  offset : Nat
  deriving DecidableEq, Repr

def scanFrom (offset : Nat) (cs : List Char) : Except Stray (List Token) :=
  match cs with
  | [] => .ok []
  | c :: tail =>
    if Text.isBlank c then
      scanFrom (offset + 1) tail
    else
      match _h : first? (c :: tail) with
      | none => .error ⟨c, offset⟩
      | some (kind, text, rest) =>
        (scanFrom (offset + text.length) rest).map (⟨kind, text, offset⟩ :: ·)
termination_by cs.length
decreasing_by
  · exact Nat.lt_succ_self tail.length
  · exact length_rest_lt _h

def scan (cs : List Char) : Except Stray (List Token) :=
  scanFrom 0 cs

end Token

end TreePaths
