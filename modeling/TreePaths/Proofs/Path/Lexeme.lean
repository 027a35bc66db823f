import Mathlib.Data.List.TakeWhile
import Mathlib.Tactic.Common
import TreePaths.Path.Grammar

/-!
How a text splits into tokens, said without a scan: at each place that is no blank stands a token,
and it is the longest one there. A text splits in at most one way, and the scan finds it.
-/

namespace TreePaths

namespace Token

/-- The text between two quotes `q`, and what it means: a backslash takes the next character,
whatever it is. -/
inductive Quotes (q : Char) : List Char → List Char → Prop
  | nil : Quotes q [] []
  | plain {c : Char} {cs ds : List Char} :
      c ≠ q → c ≠ '\\' → Quotes q cs ds → Quotes q (c :: cs) (c :: ds)
  | escaped {c : Char} {cs ds : List Char} : Quotes q cs ds → Quotes q ('\\' :: c :: cs) (c :: ds)

inductive Lexeme : TokenKind → List Char → Prop
  | opening : Lexeme .opening ['(']
  | closing : Lexeme .closing [')']
  | separator : Lexeme .separator [':', ':']
  | quoted {q : Char} {body meaning : List Char} :
      isQuote q → Quotes q body meaning → Lexeme .quoted (q :: (body ++ [q]))
  | bare {c : Char} {cs : List Char} :
      isBareChar c → (∀ d ∈ cs, isBareChar d) → Lexeme .bare (c :: cs)

/-- No token at the beginning of `text ++ rest` is longer than `text`. -/
def Longest (kind : TokenKind) (text rest : List Char) : Prop :=
  Lexeme kind text ∧ ∀ k u, Lexeme k u → u <+: text ++ rest → u.length ≤ text.length

inductive Splits : Nat → List Char → List Token → Prop
  | nil {offset : Nat} : Splits offset [] []
  | blank {offset : Nat} {c : Char} {cs : List Char} {ts : List Token} :
      Text.isBlank c → Splits (offset + 1) cs ts → Splits offset (c :: cs) ts
  | token {offset : Nat} {kind : TokenKind} {text rest : List Char} {ts : List Token} :
      Longest kind text rest → Splits (offset + text.length) rest ts →
      Splits offset (text ++ rest) (⟨kind, text, offset⟩ :: ts)

section Quotes

variable {q : Char} {cs body meaning rest : List Char}

theorem Quotes.unescape_eq (h : Quotes q body meaning) : unescape body = meaning := by
  induction h with
  | nil => rfl
  | plain _ hc _ ih => simp [unescape, hc, ih]
  | escaped _ ih => simp [unescape, ih]

theorem Quotes.splitQuoted_eq (hq : q ≠ '\\') (h : Quotes q body meaning) :
    splitQuoted q (body ++ q :: rest) = some (body ++ [q], rest) := by
  induction h with
  | nil => simp [splitQuoted, hq]
  | plain hcq hc _ ih => simp [splitQuoted, hc, hcq, ih]
  | escaped _ ih => simp [splitQuoted, ih]

/-- A character that begins neither an escape nor an unfinished one is no backslash. -/
theorem ne_backslash_of_not_escape {c : Char} (hn : c = '\\' → cs = [] → False)
    (hs : ∀ d ds, c = '\\' → cs = d :: ds → False) : c ≠ '\\' := by
  intro hc
  cases cs with
  | nil => exact hn hc rfl
  | cons d ds => exact hs d ds hc rfl

theorem quotes_of_splitQuoted {text : List Char} (h : splitQuoted q cs = some (text, rest)) :
    ∃ body meaning, text = body ++ [q] ∧ Quotes q body meaning := by
  induction cs using splitQuoted.induct q generalizing text rest with
  | case1 => simp [splitQuoted] at h
  | case2 => simp [splitQuoted] at h
  | case3 c cs ih =>
    simp only [splitQuoted, Option.map_eq_some_iff, Prod.mk.injEq] at h
    obtain ⟨⟨b, r⟩, hb, rfl, rfl⟩ := h
    obtain ⟨body, meaning, rfl, hquotes⟩ := ih hb
    exact ⟨_, _, rfl, .escaped hquotes⟩
  | case4 cs hn hs =>
    rw [splitQuoted.eq_4 _ _ _ hn hs, if_pos rfl, Option.some.injEq, Prod.mk.injEq] at h
    exact ⟨[], [], h.1.symm, .nil⟩
  | case5 c cs hn hs hq ih =>
    rw [splitQuoted.eq_4 _ _ _ hn hs, if_neg hq, Option.map_eq_some_iff] at h
    obtain ⟨⟨b, r⟩, hb, he⟩ := h
    obtain ⟨rfl, rfl⟩ := Prod.mk.inj he
    obtain ⟨body, meaning, rfl, hquotes⟩ := ih hb
    exact ⟨_, _, rfl, .plain hq (ne_backslash_of_not_escape hn hs) hquotes⟩

end Quotes

section First

variable {c : Char} {cs text rest u : List Char} {kind k : TokenKind}

theorem isBlank_of_isQuote (h : isQuote c) : Text.isBlank c = false := by
  have hc : c = '\'' ∨ c = '"' := by simpa [isQuote] using h
  rcases hc with rfl | rfl <;> decide

theorem isBareChar_of_isQuote (h : isQuote c) : isBareChar c = false := by
  simp [isBareChar, h]

theorem ne_backslash_of_isQuote (h : isQuote c) : c ≠ '\\' := by
  rintro rfl
  simp [isQuote] at h

theorem Lexeme.ne_nil (h : Lexeme kind text) : text ≠ [] := by
  cases h <;> simp

theorem Lexeme.not_isBlank (h : Lexeme kind (c :: u)) : Text.isBlank c = false := by
  cases h with
  | opening => decide
  | closing => decide
  | separator => decide
  | quoted hq _ => exact isBlank_of_isQuote hq
  | bare hc _ =>
    have hc := hc
    simp only [isBareChar, Bool.not_eq_true', Bool.or_eq_false_iff] at hc
    exact hc.1.1.1.1

theorem first?_of_isQuote (h : isQuote c) :
    first? (c :: cs) = (splitQuoted c cs).map fun (body, rest) => (.quoted, c :: body, rest) := by
  have hc : c = '\'' ∨ c = '"' := by simpa [isQuote] using h
  rcases hc with rfl | rfl <;> rfl

theorem first?_of_isBareChar (h : isBareChar c) :
    first? (c :: cs) = some (.bare, c :: cs.takeWhile isBareChar, cs.dropWhile isBareChar) := by
  have hq : isQuote c = false := by
    by_contra hq
    rw [isBareChar_of_isQuote (by simpa using hq)] at h
    cases h
  unfold first?
  split
  next he => cases he
  next he => cases he; exact absurd h (by decide)
  next he => cases he; exact absurd h (by decide)
  next he => cases he; exact absurd h (by decide)
  next he => cases he; rw [hq, if_neg Bool.false_ne_true, if_pos h]

/-- What is taken from the front of a text has the form of its kind. -/
theorem lexeme_of_first? (h : first? cs = some (kind, text, rest)) : Lexeme kind text := by
  unfold first? at h
  split at h
  · cases h
  · cases h
    exact .opening
  · cases h
    exact .closing
  · cases h
    exact .separator
  · split at h
    next hq =>
      obtain ⟨⟨b, r⟩, hb, he⟩ := Option.map_eq_some_iff.mp h
      cases he
      obtain ⟨body, meaning, rfl, hquotes⟩ := quotes_of_splitQuoted hb
      exact .quoted hq hquotes
    next =>
      split at h
      next hc =>
        cases h
        exact .bare hc fun d hd => List.mem_takeWhile_imp hd
      next => cases h

/-- A token at the beginning of a text is found there, or a longer one of its kind is. -/
theorem first?_of_lexeme (h : Lexeme k u) (rest : List Char) :
    ∃ text rest', first? (u ++ rest) = some (k, text, rest') ∧ u.length ≤ text.length := by
  cases h with
  | opening => exact ⟨_, _, rfl, le_rfl⟩
  | closing => exact ⟨_, _, rfl, le_rfl⟩
  | separator => exact ⟨_, _, rfl, le_rfl⟩
  | @quoted q body meaning hq hquotes =>
    refine ⟨q :: (body ++ [q]), rest, ?_, le_rfl⟩
    rw [List.cons_append, first?_of_isQuote hq, List.append_assoc, List.singleton_append,
      hquotes.splitQuoted_eq (ne_backslash_of_isQuote hq)]
    rfl
  | @bare c cs hc hcs =>
    refine ⟨_, _, first?_of_isBareChar hc, ?_⟩
    have htake : (cs ++ rest).takeWhile isBareChar = cs ++ rest.takeWhile isBareChar :=
      List.takeWhile_append_of_pos hcs
    simp only [List.append_eq, htake, List.length_cons, List.length_append]
    omega

/-- The first token of a text is the longest one that stands at its beginning. -/
theorem first?_eq_some_iff :
    first? (text ++ rest) = some (kind, text, rest) ↔ Longest kind text rest := by
  constructor
  · intro h
    refine ⟨lexeme_of_first? h, fun k u hu ⟨rest', hrest'⟩ => ?_⟩
    obtain ⟨text', r, hfirst, hle⟩ := first?_of_lexeme hu rest'
    rw [hrest', h] at hfirst
    cases hfirst
    exact hle
  · intro ⟨hlexeme, hlongest⟩
    obtain ⟨text', r, hfirst, hle⟩ := first?_of_lexeme hlexeme rest
    have happend := first?_append hfirst
    have hlen := hlongest kind text' (lexeme_of_first? hfirst) ⟨r, happend⟩
    obtain ⟨rfl, rfl⟩ := List.append_inj happend (by omega)
    exact hfirst

theorem longest_opening : Longest .opening ['('] rest :=
  first?_eq_some_iff.mp rfl

theorem longest_closing : Longest .closing [')'] rest :=
  first?_eq_some_iff.mp rfl

theorem longest_separator : Longest .separator [':', ':'] rest :=
  first?_eq_some_iff.mp rfl

theorem longest_quoted {q : Char} {body meaning : List Char} (hq : isQuote q)
    (h : Quotes q body meaning) : Longest .quoted (q :: (body ++ [q])) rest := by
  refine first?_eq_some_iff.mp ?_
  rw [List.cons_append, first?_of_isQuote hq, List.append_assoc, List.singleton_append,
    h.splitQuoted_eq (ne_backslash_of_isQuote hq)]
  rfl

/-- No bare token goes on into the text. -/
def Stops (rest : List Char) : Prop :=
  ∀ c ∈ rest.head?, isBareChar c = false

theorem longest_bare (hne : text ≠ []) (htext : ∀ c ∈ text, isBareChar c) (hrest : Stops rest) :
    Longest .bare text rest := by
  obtain ⟨c, cs, rfl⟩ := List.exists_cons_of_ne_nil hne
  have hcs : ∀ d ∈ cs, isBareChar d := fun d hd => htext d (List.mem_cons_of_mem _ hd)
  have htake : rest.takeWhile isBareChar = [] ∧ rest.dropWhile isBareChar = rest := by
    cases rest with
    | nil => exact ⟨rfl, rfl⟩
    | cons d rest =>
      have hd := hrest d rfl
      exact ⟨List.takeWhile_cons_of_neg (by simp [hd]), List.dropWhile_cons_of_neg (by simp [hd])⟩
  refine first?_eq_some_iff.mp ?_
  rw [List.cons_append, first?_of_isBareChar (htext c List.mem_cons_self),
    List.takeWhile_append_of_pos hcs, List.dropWhile_append_of_pos hcs, htake.1, htake.2,
    List.append_nil]

end First

section Scan

variable {offset : Nat} {c : Char} {cs text rest : List Char} {kind : TokenKind}
  {ts us : List Token}

theorem scanFrom_of_first? (hblank : Text.isBlank c = false)
    (h : first? (c :: cs) = some (kind, text, rest)) : scanFrom offset (c :: cs) =
      (scanFrom (offset + text.length) rest).map (⟨kind, text, offset⟩ :: ·) := by
  rw [scanFrom, hblank, if_neg Bool.false_ne_true]
  split
  next hnone => rw [h] at hnone; cases hnone
  next hsome => rw [h] at hsome; cases hsome; rfl

theorem scanFrom_of_first?_none (hblank : Text.isBlank c = false) (h : first? (c :: cs) = none) :
    scanFrom offset (c :: cs) = .error ⟨c, offset⟩ := by
  rw [scanFrom, hblank, if_neg Bool.false_ne_true]
  split
  next => rfl
  next hsome => rw [h] at hsome; cases hsome

/-- A text that is scanned is made up of blanks and of the tokens found. -/
theorem splits_of_scanFrom (h : scanFrom offset cs = .ok ts) : Splits offset cs ts := by
  induction offset, cs using scanFrom.induct generalizing ts with
  | case1 offset =>
    rw [scanFrom] at h
    cases h
    exact .nil
  | case2 offset c tail hblank ih =>
    rw [scanFrom, if_pos hblank] at h
    exact .blank hblank (ih h)
  | case3 offset c tail hblank hfirst =>
    rw [scanFrom_of_first?_none (by simpa using hblank) hfirst] at h
    cases h
  | case4 offset c tail hblank kind text rest hfirst ih =>
    rw [scanFrom_of_first? (by simpa using hblank) hfirst] at h
    cases hrest : scanFrom (offset + text.length) rest with
    | error e =>
      rw [hrest] at h
      cases h
    | ok us =>
      rw [hrest] at h
      cases h
      have happend := first?_append hfirst
      rw [← happend] at hfirst ⊢
      exact .token (first?_eq_some_iff.mp hfirst) (ih hrest)

theorem scanFrom_of_splits (h : Splits offset cs ts) : scanFrom offset cs = .ok ts := by
  induction h with
  | nil => rw [scanFrom]
  | blank hblank _ ih => rw [scanFrom, if_pos hblank, ih]
  | @token offset kind text rest ts hlongest _ ih =>
    have hfirst := first?_eq_some_iff.mpr hlongest
    obtain ⟨c, u, rfl⟩ := List.exists_cons_of_ne_nil hlongest.1.ne_nil
    rw [List.cons_append] at hfirst ⊢
    rw [scanFrom_of_first? hlongest.1.not_isBlank hfirst, ih]
    rfl

/-- The scan gives the tokens that a text splits into, and fails if it does not split. -/
theorem scan_eq_ok_iff : scan cs = .ok ts ↔ Splits 0 cs ts :=
  ⟨splits_of_scanFrom, scanFrom_of_splits⟩

theorem Splits.unique (h : Splits offset cs ts) (h' : Splits offset cs us) : ts = us := by
  have heq := (scanFrom_of_splits h).symm.trans (scanFrom_of_splits h')
  exact Except.ok.inj heq

theorem Splits.lexeme (h : Splits offset cs ts) : ∀ t ∈ ts, Lexeme t.kind t.text := by
  induction h with
  | nil => simp
  | blank _ _ ih => exact ih
  | token hlongest _ ih =>
    intro t ht
    rcases List.mem_cons.mp ht with rfl | ht
    · exact hlongest.1
    · exact ih t ht

end Scan

end Token
end TreePaths
