import Mathlib.Algebra.Group.Nat.Even
import Mathlib.Data.List.Chain
import Mathlib.Data.List.TakeWhile
import Mathlib.Order.Bounds.Basic
import Mathlib.Tactic.Common
import TreePaths.Proofs.Path.Lexeme

/-!
The scan loses nothing: its tokens and the blanks between them lie in the text one behind the other
and make it up. It fails at a place where a lone colon or a quote without its end stands outside the
tokens, and at the first such place.
-/

namespace TreePaths

namespace Token

def stop (t : Token) : Nat :=
  t.offset + t.text.length

def Covers (t : Token) (i : Nat) : Prop :=
  t.offset ≤ i ∧ i < t.stop

/-- What stands before, between and after the tokens in a text that starts at `offset`. -/
def gaps (offset : Nat) (cs : List Char) : List Token → List (List Char)
  | [] => [cs]
  | t :: ts => cs.take (t.offset - offset) :: gaps t.stop (cs.drop (t.stop - offset)) ts

/-- Gaps and tokens by turns, from the first gap on. -/
def weave : List (List Char) → List Token → List Char
  | gs, [] => gs.flatten
  | [], t :: ts => t.text ++ weave [] ts
  | gap :: gs, t :: ts => gap ++ (t.text ++ weave gs ts)

structure Tiles (offset : Nat) (cs : List Char) (ts : List Token) : Prop where
  within : ∀ t ∈ ts, offset ≤ t.offset
  increasing : ts.Pairwise fun t u => t.offset < u.offset
  disjoint : ts.Pairwise fun t u => t.stop ≤ u.offset
  lexeme : ∀ t ∈ ts, Lexeme t.kind t.text
  /-- The text of a token is the slice of the whole at its offset. -/
  slice : ∀ t ∈ ts, (cs.drop (t.offset - offset)).take t.text.length = t.text
  blank : ∀ gap ∈ gaps offset cs ts, ∀ c ∈ gap, Text.isBlank c
  /-- There is a gap between a bare token and a bare token after it. -/
  apart : ts.IsChain fun t u => t.kind = .bare → u.kind = .bare → t.stop < u.offset
  rebuilt : weave (gaps offset cs ts) ts = cs

def backslashes (cs : List Char) : Nat :=
  (cs.reverse.takeWhile (· = '\\')).length

/-- Behind an opening quote `q`, the place `i` holds its closing one: a backslash before it belongs
to a pair. -/
def Closes (q : Char) (cs : List Char) (i : Nat) : Prop :=
  cs[i]? = some q ∧ Even (backslashes (cs.take i))

inductive Stuck : List Char → Prop
  | colon {rest : List Char} : rest.head? ≠ some ':' → Stuck (':' :: rest)
  | quote {q : Char} {rest : List Char} :
      isQuote q → (∀ i, ¬Closes q rest i) → Stuck (q :: rest)

/-- What the scan takes at once, a row of blanks, which has no kind, or a token, and the rest. -/
def piece? : List Char → Option (Option TokenKind × List Char × List Char)
  | [] => none
  | c :: cs =>
    if Text.isBlank c then
      some (none, c :: cs.takeWhile Text.isBlank, cs.dropWhile Text.isBlank)
    else
      (first? (c :: cs)).map fun (kind, text, rest) => (some kind, text, rest)

section Closing

variable {q c : Char} {cs : List Char} {i : Nat}

theorem backslashes_of_forall (h : ∀ d ∈ cs, d = '\\') : backslashes cs = cs.length := by
  have hself : cs.reverse.takeWhile (· = '\\') = cs.reverse :=
    List.takeWhile_eq_self_iff.mpr (by simpa using h)
  rw [backslashes, hself, List.length_reverse]

theorem backslashes_cons (h : ¬∀ d ∈ c :: cs, d = '\\') :
    backslashes (c :: cs) = backslashes cs := by
  rw [backslashes, List.reverse_cons, List.takeWhile_append]
  split
  next hall =>
    have hself := (List.takeWhile_prefix (· = '\\')).eq_of_length hall
    have hcs : ∀ d ∈ cs, d = '\\' := by simpa using List.takeWhile_eq_self_iff.mp hself
    have hc : c ≠ '\\' := fun hc => h (List.forall_mem_cons.mpr ⟨hc, hcs⟩)
    rw [backslashes_of_forall hcs]
    simp [hc]
  next => rfl

theorem backslashes_cons_of_ne (hc : c ≠ '\\') : backslashes (c :: cs) = backslashes cs :=
  backslashes_cons fun h => hc (h c List.mem_cons_self)

/-- A backslash and what it takes change nothing about the pairs behind them. -/
theorem even_backslashes_escaped :
    Even (backslashes ('\\' :: c :: cs)) ↔ Even (backslashes cs) := by
  -- Only before nothing but backslashes do they count at the end, and then both of them do.
  by_cases h : ∀ d ∈ c :: cs, d = '\\'
  · have hcs := (List.forall_mem_cons.mp h).2
    rw [backslashes_of_forall (List.forall_mem_cons.mpr ⟨rfl, h⟩), backslashes_of_forall hcs]
    simp [Nat.even_add_one]
  · rw [backslashes_cons fun hall => h (List.forall_mem_cons.mp hall).2, backslashes_cons h]

@[simp] theorem not_closes_nil : ¬Closes q [] i := by
  simp [Closes]

@[simp] theorem closes_zero : Closes q (c :: cs) 0 ↔ c = q := by
  simp [Closes, backslashes]

theorem closes_succ (hc : c ≠ '\\') : Closes q (c :: cs) (i + 1) ↔ Closes q cs i := by
  simp [Closes, backslashes_cons_of_ne hc]

theorem not_closes_escaped : ¬Closes q ('\\' :: c :: cs) 1 := by
  simp [Closes, backslashes]

theorem closes_escaped : Closes q ('\\' :: c :: cs) (i + 2) ↔ Closes q cs i := by
  simp [Closes, even_backslashes_escaped]

/-- No end is found exactly where none stands. -/
theorem splitQuoted_eq_none_iff (hq : q ≠ '\\') :
    splitQuoted q cs = none ↔ ∀ i, ¬Closes q cs i := by
  induction cs using splitQuoted.induct q with
  | case1 => simp [splitQuoted]
  | case2 =>
    simp only [splitQuoted, true_iff]
    rintro (_ | i)
    · simpa using hq.symm
    · simp [Closes]
  | case3 c cs ih =>
    simp only [splitQuoted, Option.map_eq_none_iff, ih]
    constructor
    · rintro h (_ | _ | i)
      · simpa using hq.symm
      · exact not_closes_escaped
      · simpa [closes_escaped] using h i
    · intro h i
      simpa [closes_escaped] using h (i + 2)
  | case4 cs hn hs =>
    rw [splitQuoted.eq_4 _ _ _ hn hs, if_pos rfl]
    simp only [reduceCtorEq, false_iff, not_forall, not_not]
    exact ⟨0, closes_zero.mpr rfl⟩
  | case5 c cs hn hs hcq ih =>
    have hc := ne_backslash_of_not_escape hn hs
    rw [splitQuoted.eq_4 _ _ _ hn hs, if_neg hcq, Option.map_eq_none_iff, ih]
    constructor
    · rintro h (_ | i)
      · simpa using hcq
      · simpa [closes_succ hc] using h i
    · intro h i
      simpa [closes_succ hc] using h (i + 1)

end Closing

section Piece

variable {offset : Nat} {c : Char} {cs text rest more : List Char} {kind : TokenKind}

theorem Stops.of_append (h : Stops (rest ++ more)) : Stops rest := by
  cases rest with
  | nil => simp [Stops]
  | cons d rest => simpa [Stops] using h

theorem Stops.append (h : Stops rest) (hmore : Stops more) : Stops (rest ++ more) := by
  cases rest with
  | nil => exact hmore
  | cons d rest => simpa [Stops] using h

/-- The first character of a bare token, and of no other, can go on with a bare token. -/
theorem Lexeme.stops_iff (h : Lexeme kind text) : Stops (text ++ rest) ↔ kind ≠ .bare := by
  have hhead : ∀ d us, isBareChar d = false → Stops (d :: us) := fun d us hd => by
    simpa [Stops] using hd
  cases h with
  | opening => simpa using hhead _ _ (by decide)
  | closing => simpa using hhead _ _ (by decide)
  | separator => simpa using hhead _ _ (by decide)
  | quoted hq _ => simpa using hhead _ _ (isBareChar_of_isQuote hq)
  | bare hc _ => simp [Stops, hc]

theorem stops_of_isBlank (h : Text.isBlank c) : Stops (c :: rest) := by
  simp [Stops, isBareChar, h]

theorem Stuck.stops (h : Stuck cs) : Stops cs := by
  cases h with
  | colon => rintro c ⟨⟩; decide
  | quote hq => rintro c ⟨⟩; exact isBareChar_of_isQuote hq

/-- Only a bare token could be longer. -/
theorem longest_iff : Longest kind text rest ↔ Lexeme kind text ∧ (kind = .bare → Stops rest) := by
  constructor
  · refine fun h => ⟨h.1, ?_⟩
    rintro rfl d hd
    by_contra hbare
    obtain ⟨rest', rfl⟩ := List.head?_eq_some_iff.mp hd
    cases h.1 with
    | @bare c cs hc hcs =>
      have hlonger : Lexeme .bare (c :: (cs ++ [d])) := by
        refine .bare hc fun e he => ?_
        rcases List.mem_append.mp he with he | he
        · exact hcs e he
        · rw [List.mem_singleton.mp he]
          simpa using hbare
      have hle := h.2 _ _ hlonger ⟨rest', by simp⟩
      simp only [List.length_cons, List.length_append, List.length_nil] at hle
      omega
  · rintro ⟨hlexeme, hrest⟩
    cases hlexeme with
    | opening => exact longest_opening
    | closing => exact longest_closing
    | separator => exact longest_separator
    | quoted hq hquotes => exact longest_quoted hq hquotes
    | bare hc hcs =>
      refine longest_bare (List.cons_ne_nil _ _) (fun d hd => ?_) (hrest rfl)
      rcases List.mem_cons.mp hd with rfl | hd
      · exact hc
      · exact hcs d hd

theorem Longest.of_append (h : Longest kind text (rest ++ more)) : Longest kind text rest := by
  rw [longest_iff] at h ⊢
  exact ⟨h.1, fun hkind => (h.2 hkind).of_append⟩

theorem Longest.append (h : Longest kind text rest) (hmore : Stops more) :
    Longest kind text (rest ++ more) := by
  rw [longest_iff] at h ⊢
  exact ⟨h.1, fun hkind => (h.2 hkind).append hmore⟩

/-- No token is found exactly where a lone colon stands, or a quote without its end. -/
theorem first?_eq_none_iff (hblank : Text.isBlank c = false) :
    first? (c :: cs) = none ↔ Stuck (c :: cs) := by
  constructor
  · intro h
    unfold first? at h
    split at h
    next he => cases he
    next => cases h
    next => cases h
    next => cases h
    next hopen hclose hcolon he =>
      cases he
      split at h
      next hq =>
        exact .quote hq ((splitQuoted_eq_none_iff (ne_backslash_of_isQuote hq)).mp
          (Option.map_eq_none_iff.mp h))
      next hq =>
        split at h
        next => cases h
        next hbare =>
          have hc : c ≠ '(' → c ≠ ')' → c = ':' := by simpa [isBareChar, hblank, hq] using hbare
          obtain rfl := hc hopen hclose
          refine .colon fun hhead => ?_
          obtain ⟨cs', rfl⟩ := List.head?_eq_some_iff.mp hhead
          exact hcolon cs' rfl rfl
  · intro h
    cases h with
    | colon hrest =>
      have hpair : ∀ cs', ':' = ':' → cs = ':' :: cs' → False := by
        rintro cs' - rfl
        exact hrest rfl
      rw [first?.eq_5 _ _ (by decide) (by decide) hpair]
      rfl
    | quote hq hrest =>
      rw [first?_of_isQuote hq,
        (splitQuoted_eq_none_iff (ne_backslash_of_isQuote hq)).mpr hrest]
      rfl

theorem Stuck.not_isBlank (h : Stuck (c :: cs)) : Text.isBlank c = false := by
  cases h with
  | colon => decide
  | quote hq => exact isBlank_of_isQuote hq

theorem Stuck.exists_cons (h : Stuck cs) : ∃ c tail, cs = c :: tail := by
  cases h <;> exact ⟨_, _, rfl⟩

theorem piece?_eq_none_iff : piece? cs = none ↔ cs = [] ∨ Stuck cs := by
  cases cs with
  | nil => simp [piece?]
  | cons c cs =>
    rw [piece?]
    split
    next hblank =>
      have hstuck : ¬Stuck (c :: cs) := fun h => by simp [h.not_isBlank] at hblank
      simp [hstuck]
    next hblank => simp [first?_eq_none_iff (by simpa using hblank)]

/-- Whatever is taken at once has a character, and the rest is what stands behind it. -/
theorem piece?_append {kind : Option TokenKind} (h : piece? cs = some (kind, text, rest)) :
    text ≠ [] ∧ text ++ rest = cs := by
  cases cs with
  | nil => cases h
  | cons c cs =>
    rw [piece?] at h
    split at h
    next =>
      cases h
      exact ⟨List.cons_ne_nil _ _, by simp⟩
    next =>
      obtain ⟨⟨kind, text, rest⟩, hfirst, he⟩ := Option.map_eq_some_iff.mp h
      cases he
      exact ⟨first?_ne_nil hfirst, first?_append hfirst⟩

theorem scanFrom_blanks {gap : List Char} (hgap : ∀ c ∈ gap, Text.isBlank c) :
    scanFrom offset (gap ++ cs) = scanFrom (offset + gap.length) cs := by
  induction gap generalizing offset with
  | nil => rfl
  | cons c gap ih =>
    rw [List.cons_append, scanFrom, if_pos (hgap c List.mem_cons_self),
      ih fun d hd => hgap d (List.mem_cons_of_mem _ hd), List.length_cons]
    congr 1
    omega

/-- One turn of the scan: the token, if it is one, comes before those of the rest. -/
theorem scanFrom_of_piece? {kind : Option TokenKind} (h : piece? cs = some (kind, text, rest)) :
    scanFrom offset cs = (scanFrom (offset + text.length) rest).map
      ((kind.map fun k => ⟨k, text, offset⟩).toList ++ ·) := by
  cases cs with
  | nil => cases h
  | cons c cs =>
    rw [piece?] at h
    split at h
    next hblank =>
      cases h
      have hgap : ∀ d ∈ c :: cs.takeWhile Text.isBlank, Text.isBlank d := by
        simpa [hblank] using fun d hd => List.mem_takeWhile_imp hd
      have hsplit : c :: cs = c :: cs.takeWhile Text.isBlank ++ cs.dropWhile Text.isBlank := by simp
      rw [hsplit, scanFrom_blanks hgap]
      cases scanFrom _ (cs.dropWhile Text.isBlank) <;> rfl
    next hblank =>
      obtain ⟨⟨kind, text, rest⟩, hfirst, he⟩ := Option.map_eq_some_iff.mp h
      cases he
      exact scanFrom_of_first? (by simpa using hblank) hfirst

theorem scanFrom_of_stuck (h : Stuck (c :: cs)) :
    scanFrom offset (c :: cs) = .error ⟨c, offset⟩ :=
  scanFrom_of_first?_none h.not_isBlank ((first?_eq_none_iff h.not_isBlank).mpr h)

end Piece

section Tiles

theorem splits_blanks {offset : Nat} {cs gap : List Char} {ts : List Token}
    (hgap : ∀ c ∈ gap, Text.isBlank c) (h : Splits (offset + gap.length) cs ts) :
    Splits offset (gap ++ cs) ts := by
  induction gap generalizing offset with
  | nil => exact h
  | cons c gap ih =>
    have htail : ∀ d ∈ gap, Text.isBlank d := fun d hd => hgap d (List.mem_cons_of_mem _ hd)
    refine .blank (hgap c List.mem_cons_self) (ih htail ?_)
    rwa [List.length_cons, Nat.add_comm gap.length, ← Nat.add_assoc] at h

variable {offset i : Nat} {c : Char} {cs gap rest : List Char} {t : Token} {ts : List Token}

theorem Lexeme.length_pos {kind : TokenKind} {text : List Char} (h : Lexeme kind text) :
    0 < text.length :=
  List.length_pos_iff.mpr h.ne_nil

/-- From behind a token on, a text is the rest behind it. -/
theorem drop_behind (hoffset : t.offset = offset + gap.length) (hi : t.stop ≤ i) :
    (gap ++ (t.text ++ rest)).drop (i - offset) = rest.drop (i - t.stop) := by
  have hsplit : i - offset = (gap ++ t.text).length + (i - t.stop) := by
    rw [List.length_append]
    rw [stop] at hi ⊢
    omega
  rw [← List.append_assoc, hsplit, ← List.drop_drop, List.drop_left]

theorem gaps_cons (hoffset : t.offset = offset + gap.length) :
    gaps offset (gap ++ (t.text ++ rest)) (t :: ts) = gap :: gaps t.stop rest ts := by
  have hgap : t.offset - offset = gap.length := by omega
  rw [gaps, hgap, List.take_left, drop_behind hoffset le_rfl, Nat.sub_self, List.drop_zero]

theorem tiles_nil : Tiles offset cs [] ↔ ∀ c ∈ cs, Text.isBlank c := by
  refine ⟨fun h => h.blank cs (by simp [gaps]), fun h => ?_⟩
  constructor
  case blank => simpa [gaps] using h
  all_goals simp [gaps, weave]

/-- A token behind a gap comes before the tokens of what is behind it. -/
theorem Tiles.cons (hgap : ∀ c ∈ gap, Text.isBlank c) (hoffset : t.offset = offset + gap.length)
    (hlexeme : Lexeme t.kind t.text)
    (hhead : ∀ u ∈ ts.head?, t.kind = .bare → u.kind = .bare → t.stop < u.offset)
    (h : Tiles t.stop rest ts) : Tiles offset (gap ++ (t.text ++ rest)) (t :: ts) := by
  have hpos := hlexeme.length_pos
  have hstop : t.stop = t.offset + t.text.length := rfl
  have hwithin := h.within
  constructor
  case within =>
    intro u hu
    rcases List.mem_cons.mp hu with rfl | hu
    · omega
    · have := hwithin u hu
      omega
  case increasing =>
    refine List.pairwise_cons.mpr ⟨fun u hu => ?_, h.increasing⟩
    have := hwithin u hu
    omega
  case disjoint => exact List.pairwise_cons.mpr ⟨hwithin, h.disjoint⟩
  case lexeme =>
    intro u hu
    rcases List.mem_cons.mp hu with rfl | hu
    · exact hlexeme
    · exact h.lexeme u hu
  case slice =>
    intro u hu
    rcases List.mem_cons.mp hu with rfl | hu
    · have hlength : u.offset - offset = gap.length := by omega
      rw [hlength, List.drop_left, List.take_left]
    · rw [drop_behind hoffset (hwithin u hu)]
      exact h.slice u hu
  case blank =>
    rw [gaps_cons hoffset]
    intro g hg
    rcases List.mem_cons.mp hg with rfl | hg
    · exact hgap
    · exact h.blank g hg
  case apart => exact List.isChain_cons.mpr ⟨hhead, h.apart⟩
  case rebuilt => rw [gaps_cons hoffset, weave, h.rebuilt]

/-- The first token stands behind a gap, and the others in what comes after it. -/
theorem Tiles.exists_gap (h : Tiles offset cs (t :: ts)) :
    ∃ gap rest, cs = gap ++ (t.text ++ rest) ∧ (∀ c ∈ gap, Text.isBlank c) ∧
      t.offset = offset + gap.length ∧ Lexeme t.kind t.text ∧
      (∀ u ∈ ts.head?, t.kind = .bare → u.kind = .bare → t.stop < u.offset) ∧
      Tiles t.stop rest ts := by
  have ht : t ∈ t :: ts := List.mem_cons_self
  have hlexeme := h.lexeme t ht
  have hpos := hlexeme.length_pos
  have hwithin := h.within t ht
  have hslice := h.slice t ht
  have hlength := congrArg List.length hslice
  rw [List.length_take, List.length_drop] at hlength
  obtain ⟨gap, rest, hcs, hoffset⟩ : ∃ gap rest, cs = gap ++ (t.text ++ rest) ∧
      t.offset = offset + gap.length := by
    refine ⟨cs.take (t.offset - offset), (cs.drop (t.offset - offset)).drop t.text.length, ?_, ?_⟩
    · nth_rewrite 1 [← hslice]
      rw [List.take_append_drop, List.take_append_drop]
    · rw [List.length_take]
      omega
  subst hcs
  have hgaps : gaps offset (gap ++ (t.text ++ rest)) (t :: ts) = gap :: gaps t.stop rest ts :=
    gaps_cons hoffset
  have hdisjoint := List.pairwise_cons.mp h.disjoint
  have hapart := List.isChain_cons.mp h.apart
  refine ⟨gap, rest, rfl, h.blank gap (by simp [hgaps]), hoffset, hlexeme, hapart.1, ?_⟩
  constructor
  case within => exact hdisjoint.1
  case increasing => exact (List.pairwise_cons.mp h.increasing).2
  case disjoint => exact hdisjoint.2
  case lexeme => exact fun u hu => h.lexeme u (List.mem_cons_of_mem _ hu)
  case slice =>
    intro u hu
    rw [← drop_behind hoffset (hdisjoint.1 u hu)]
    exact h.slice u (List.mem_cons_of_mem _ hu)
  case blank => exact fun g hg => h.blank g (by simp [hgaps, hg])
  case apart => exact hapart.2
  case rebuilt =>
    have hrebuilt := h.rebuilt
    rw [hgaps, weave] at hrebuilt
    exact List.append_cancel_left (List.append_cancel_left hrebuilt)

/-- What comes next ends a bare token unless it is one itself, without a blank before it. -/
theorem Tiles.stops_iff (h : Tiles offset cs ts) :
    Stops cs ↔ ∀ u ∈ ts.head?, u.kind = .bare → offset < u.offset := by
  cases ts with
  | nil =>
    have hblank := tiles_nil.mp h
    simp only [List.head?_nil, Option.mem_def, reduceCtorEq, IsEmpty.forall_iff, implies_true,
      iff_true]
    intro c hc
    simp [isBareChar, hblank c (List.mem_of_mem_head? hc)]
  | cons t ts =>
    obtain ⟨gap, rest, rfl, hgap, hoffset, hlexeme, -, -⟩ := h.exists_gap
    simp only [List.head?_cons, Option.mem_def, Option.some.injEq, forall_eq']
    cases gap with
    | cons c gap =>
      simp only [List.length_cons] at hoffset
      exact ⟨fun _ _ => by omega, fun _ => stops_of_isBlank (hgap c List.mem_cons_self)⟩
    | nil =>
      simp only [List.length_nil, Nat.add_zero] at hoffset
      rw [List.nil_append, hlexeme.stops_iff]
      exact ⟨fun hne hbare => absurd hbare hne, fun hbare hkind => by have := hbare hkind; omega⟩

theorem Tiles.cons_blank (hc : Text.isBlank c) (h : Tiles (offset + 1) cs ts) :
    Tiles offset (c :: cs) ts := by
  cases ts with
  | nil => exact tiles_nil.mpr (List.forall_mem_cons.mpr ⟨hc, tiles_nil.mp h⟩)
  | cons t ts =>
    obtain ⟨gap, rest, rfl, hgap, hoffset, hlexeme, hhead, hrest⟩ := h.exists_gap
    have hoffset' : t.offset = offset + (c :: gap).length := by
      rw [hoffset, List.length_cons]
      omega
    exact .cons (List.forall_mem_cons.mpr ⟨hc, hgap⟩) hoffset' hlexeme hhead hrest

/-- A token that is the longest one at its place, with no gap before it. -/
theorem Tiles.cons_token {kind : TokenKind} {text : List Char} (hlongest : Longest kind text rest)
    (h : Tiles (offset + text.length) rest ts) :
    Tiles offset (text ++ rest) (⟨kind, text, offset⟩ :: ts) := by
  obtain ⟨hlexeme, hstops⟩ := longest_iff.mp hlongest
  have hhead : ∀ u ∈ ts.head?, kind = .bare → u.kind = .bare → offset + text.length < u.offset :=
    fun u hu hbare => h.stops_iff.mp (hstops hbare) u hu
  have hoffset : (⟨kind, text, offset⟩ : Token).offset = offset + ([] : List Char).length := rfl
  exact .cons (by simp) hoffset hlexeme hhead h

theorem Tiles.splits (h : Tiles offset cs ts) : Splits offset cs ts := by
  induction ts generalizing offset cs with
  | nil => simpa using splits_blanks (tiles_nil.mp h) .nil
  | cons t ts ih =>
    obtain ⟨gap, rest, rfl, hgap, hoffset, hlexeme, hhead, hrest⟩ := h.exists_gap
    refine splits_blanks hgap ?_
    -- A bare token is the longest one here because what comes next is not a bare token at once.
    obtain ⟨kind, text, o⟩ := t
    obtain rfl : o = offset + gap.length := hoffset
    refine .token (longest_iff.mpr ⟨hlexeme, fun hbare => hrest.stops_iff.mpr ?_⟩) (ih hrest)
    exact fun u hu => hhead u hu hbare

/-- To lie in a text like this and to be what it splits into is the same. -/
theorem tiles_iff_splits : Tiles offset cs ts ↔ Splits offset cs ts := by
  refine ⟨Tiles.splits, fun h => ?_⟩
  induction h with
  | nil => exact tiles_nil.mpr (by simp)
  | blank hblank _ ih => exact ih.cons_blank hblank
  | token hlongest _ ih => exact .cons_token hlongest ih

/-- A place in the text lies in one of the tokens or holds a blank. -/
theorem Tiles.covers_or_isBlank (h : Tiles offset cs ts) (hc : cs[i]? = some c) :
    (∃ t ∈ ts, t.Covers (offset + i)) ∨ Text.isBlank c := by
  induction ts generalizing offset cs i with
  | nil => exact .inr (tiles_nil.mp h c (List.mem_of_getElem? hc))
  | cons t ts ih =>
    obtain ⟨gap, rest, rfl, hgap, hoffset, -, -, hrest⟩ := h.exists_gap
    have hstop : t.stop = t.offset + t.text.length := rfl
    by_cases hfront : i < gap.length
    · rw [List.getElem?_append_left hfront] at hc
      exact .inr (hgap c (List.mem_of_getElem? hc))
    by_cases htext : offset + i < t.stop
    · exact .inl ⟨t, List.mem_cons_self, by omega, htext⟩
    rw [List.getElem?_append_right (by omega), List.getElem?_append_right (by omega)] at hc
    have hplace : t.stop + (i - gap.length - t.text.length) = offset + i := by omega
    rcases ih hrest hc with ⟨u, hu, hcovers⟩ | hblank
    · exact .inl ⟨u, List.mem_cons_of_mem _ hu, hplace ▸ hcovers⟩
    · exact .inr hblank

/-- The tokens end within the text. -/
theorem Tiles.stop_le (h : Tiles offset cs ts) (ht : t ∈ ts) : t.stop ≤ offset + cs.length := by
  have hpos := (h.lexeme t ht).length_pos
  have hwithin := h.within t ht
  have hlength := congrArg List.length (h.slice t ht)
  rw [List.length_take, List.length_drop] at hlength
  rw [stop]
  omega

end Tiles

section Failure

variable {offset o : Nat} {c : Char} {cs front rest : List Char} {ts : List Token}

/-- What has been read before the scan is stuck splits by itself. -/
theorem scanFrom_append_of_stuck (h : Splits offset front ts) (hstuck : Stuck (c :: cs)) :
    scanFrom offset (front ++ c :: cs) = .error ⟨c, offset + front.length⟩ := by
  induction h with
  | nil => exact scanFrom_of_stuck hstuck
  | @blank offset d front ts hblank _ ih =>
    rw [List.cons_append, scanFrom, if_pos hblank, ih, List.length_cons]
    congr 2
    omega
  | @token offset kind text rest ts hlongest _ ih =>
    have hfirst := first?_eq_some_iff.mpr (hlongest.append hstuck.stops)
    obtain ⟨d, u, rfl⟩ := List.exists_cons_of_ne_nil hlongest.1.ne_nil
    rw [List.append_assoc, List.cons_append] at *
    rw [scanFrom_of_first? hlongest.1.not_isBlank hfirst, ih, List.length_append, ← Nat.add_assoc]
    rfl

/-- A text splits up to its end or up to a place where the scan is stuck. -/
theorem exists_splits (offset : Nat) (cs : List Char) : ∃ front rest ts,
    cs = front ++ rest ∧ Splits offset front ts ∧ (rest = [] ∨ Stuck rest) := by
  induction offset, cs using scanFrom.induct with
  | case1 offset => exact ⟨[], [], [], rfl, .nil, .inl rfl⟩
  | case2 offset c tail hblank ih =>
    obtain ⟨front, rest, ts, rfl, hsplits, hrest⟩ := ih
    exact ⟨c :: front, rest, ts, rfl, .blank hblank hsplits, hrest⟩
  | case3 offset c tail hblank hfirst =>
    have hstuck := (first?_eq_none_iff (by simpa using hblank)).mp hfirst
    exact ⟨[], c :: tail, [], rfl, .nil, .inr hstuck⟩
  | case4 offset c tail hblank kind text rest hfirst ih =>
    obtain ⟨front, rest, ts, rfl, hsplits, hrest⟩ := ih
    have happend := first?_append hfirst
    rw [← happend] at hfirst
    have hlongest := (first?_eq_some_iff.mp hfirst).of_append
    exact ⟨text ++ front, rest, _, by simp [happend], .token hlongest hsplits, hrest⟩

/-- Outside the tokens before it, the place where the scan is stuck is the first of its kind. -/
theorem isLeast_of_stuck (h : Tiles 0 front ts) (hstuck : Stuck rest) :
    IsLeast {i | (∀ t ∈ ts, ¬t.Covers i) ∧ Stuck ((front ++ rest).drop i)} front.length := by
  constructor
  · refine ⟨fun t ht hcovers => ?_, by rwa [List.drop_left]⟩
    have := h.stop_le ht
    have := hcovers.2
    omega
  · rintro i ⟨houtside, hi⟩
    by_contra hlt
    rw [Nat.not_le] at hlt
    have hblank : Text.isBlank front[i] := by
      have hplace := h.covers_or_isBlank (List.getElem?_eq_getElem hlt)
      rw [Nat.zero_add] at hplace
      exact hplace.resolve_left fun ⟨t, ht, hcovers⟩ => houtside t ht hcovers
    rw [List.drop_append_of_le_length hlt.le, List.drop_eq_getElem_cons hlt, List.cons_append] at hi
    rw [hi.not_isBlank] at hblank
    cases hblank

/-- The scan fails at the first place outside the tokens before it where a lone colon stands, or a
quote without its end. -/
theorem scan_eq_error_iff : scan cs = .error ⟨c, o⟩ ↔ cs[o]? = some c ∧ ∃ ts,
    Tiles 0 (cs.take o) ts ∧ IsLeast {i | (∀ t ∈ ts, ¬t.Covers i) ∧ Stuck (cs.drop i)} o := by
  constructor
  · intro h
    obtain ⟨front, rest, ts, rfl, hsplits, rfl | hstuck⟩ := exists_splits 0 cs
    · rw [List.append_nil, scan_eq_ok_iff.mpr hsplits] at h
      cases h
    · have htiles := tiles_iff_splits.mpr hsplits
      obtain ⟨d, tail, rfl⟩ := hstuck.exists_cons
      rw [scan, scanFrom_append_of_stuck hsplits hstuck, Nat.zero_add] at h
      cases h
      exact ⟨by simp, ts, by rwa [List.take_left], isLeast_of_stuck htiles hstuck⟩
  · rintro ⟨hc, ts, htiles, ⟨-, hstuck⟩, -⟩
    obtain ⟨ho, rfl⟩ := List.getElem?_eq_some_iff.mp hc
    rw [List.drop_eq_getElem_cons ho] at hstuck
    have hscan := scanFrom_append_of_stuck (tiles_iff_splits.mp htiles) hstuck
    rw [← List.drop_eq_getElem_cons ho, List.take_append_drop, List.length_take_of_le ho.le,
      Nat.zero_add] at hscan
    exact hscan

end Failure

/-- The scan of a text gives exactly the tokens that are laid out in it, with the blanks between
them, or the reading of the text fails at the first place that no token can cover. Every turn of the
scan takes at least one character. -/
theorem scan_lossless (text : String) :
    (∀ ts, scan text.toList = .ok ts ↔ Tiles 0 text.toList ts) ∧
    (∀ c o, scan text.toList = .error ⟨c, o⟩ ↔ text.toList[o]? = some c ∧ ∃ ts,
      Tiles 0 (text.toList.take o) ts ∧
        IsLeast {i | (∀ t ∈ ts, ¬t.Covers i) ∧ Stuck (text.toList.drop i)} o) ∧
    (∀ c o, scan text.toList = .error ⟨c, o⟩ →
      SearchPath.parse text = .error (.malformed (.strayCharacter c o) text)) ∧
    (∀ offset cs kind piece rest, piece? cs = some (kind, piece, rest) →
      0 < piece.length ∧ piece ++ rest = cs ∧
        scanFrom offset cs = (scanFrom (offset + piece.length) rest).map
          ((kind.map fun k => ⟨k, piece, offset⟩).toList ++ ·)) ∧
    ∀ offset cs, piece? cs = none → cs = [] ∧ scanFrom offset cs = .ok [] ∨
      ∃ c tail, cs = c :: tail ∧ Stuck cs ∧ scanFrom offset cs = .error ⟨c, offset⟩ := by
  refine ⟨fun ts => scan_eq_ok_iff.trans tiles_iff_splits.symm, fun c o => scan_eq_error_iff, ?_,
    ?_, ?_⟩
  · intro c o h
    rw [SearchPath.parse, h]
  · intro offset cs kind piece rest h
    obtain ⟨hne, happend⟩ := piece?_append h
    exact ⟨List.length_pos_iff.mpr hne, happend, scanFrom_of_piece? h⟩
  · intro offset cs h
    rcases piece?_eq_none_iff.mp h with rfl | hstuck
    · exact .inl ⟨rfl, by rw [scanFrom]⟩
    · obtain ⟨c, tail, rfl⟩ := hstuck.exists_cons
      exact .inr ⟨c, tail, rfl, hstuck, scanFrom_of_stuck hstuck⟩

/-- The second quote belongs to the backslash before it, and the first one has no end. -/
theorem scan_lossless_sample :
    Tiles 0 ['a'] [⟨.bare, ['a'], 0⟩] ∧ Stuck ['\'', 'b', '\\', '\''] ∧
      SearchPath.parse "a'b\\'" = .error (.malformed (.strayCharacter '\'' 1) "a'b\\'") := by
  have hfirst : first? "a'b\\'".toList = some (.bare, ['a'], ['\'', 'b', '\\', '\'']) := rfl
  have hnone : first? ['\'', 'b', '\\', '\''] = none := rfl
  have hscan : scan "a'b\\'".toList = .error ⟨'\'', 1⟩ := by
    refine (scanFrom_of_first? (by decide) hfirst).trans ?_
    rw [scanFrom_of_first?_none (by decide) hnone]
    rfl
  have hfront : scan "a".toList = .ok [⟨.bare, ['a'], 0⟩] := by
    have hletter : first? "a".toList = some (.bare, ['a'], []) := rfl
    refine (scanFrom_of_first? (by decide) hletter).trans ?_
    rw [scanFrom]
    rfl
  obtain ⟨-, herror, hparse, -⟩ := scan_lossless "a'b\\'"
  obtain ⟨-, _, -, hleast⟩ := (herror _ _).mp hscan
  exact ⟨((scan_lossless "a").1 _).mp hfront, hleast.1.2, hparse _ _ hscan⟩

end Token
end TreePaths
