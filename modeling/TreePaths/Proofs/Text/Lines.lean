import Mathlib.Data.List.TakeWhile
import TreePaths.Text.Blank
import TreePaths.Text.Lines

/-!
Texts without their blanks, and the lines of texts that are put together.
-/

namespace TreePaths

namespace Text

section Trimming

variable {p : Char → Bool} {cs lead text trail : List Char}

/-- Characters of the class in front of the text and behind it are all that is dropped. -/
theorem trimBy_append (hlead : ∀ d ∈ lead, p d) (htrail : ∀ d ∈ trail, p d)
    (hfirst : ∃ c cs, text = c :: cs ∧ p c = false)
    (hlast : ∃ cs c, text = cs ++ [c] ∧ p c = false) :
    trimBy p (lead ++ (text ++ trail)) = text := by
  have hfront : (lead ++ (text ++ trail)).dropWhile p = text ++ trail := by
    obtain ⟨c, cs, rfl, hc⟩ := hfirst
    rw [List.dropWhile_append_of_pos hlead]
    exact List.dropWhile_cons_of_neg (by simp [hc])
  have hback : (text ++ trail).reverse.dropWhile p = text.reverse := by
    obtain ⟨cs, c, rfl, hc⟩ := hlast
    have hreverse : ∀ d ∈ trail.reverse, p d := fun d hd => htrail d (List.mem_reverse.mp hd)
    rw [List.reverse_append, List.dropWhile_append_of_pos hreverse, List.reverse_append,
      List.reverse_singleton, List.singleton_append]
    exact List.dropWhile_cons_of_neg (by simp [hc])
  rw [trimBy, hfront, hback, List.reverse_reverse]

theorem trimBy_eq_self (h : ∀ d ∈ cs, p d = false) : trimBy p cs = cs := by
  have hkept {ds : List Char} (hds : ∀ d ∈ ds, p d = false) : ds.dropWhile p = ds := by
    cases ds with
    | nil => rfl
    | cons d ds => exact List.dropWhile_cons_of_neg (by simp [hds])
  rw [trimBy, hkept h, hkept fun d hd => h d (List.mem_reverse.mp hd), List.reverse_reverse]

/-- What is dropped at the two ends. -/
theorem trimBy_split (p : Char → Bool) (cs : List Char) : ∃ lead trail,
    cs = lead ++ (trimBy p cs ++ trail) ∧ (∀ d ∈ lead, p d) ∧ ∀ d ∈ trail, p d := by
  refine ⟨cs.takeWhile p, ((cs.dropWhile p).reverse.takeWhile p).reverse, ?_,
    fun d hd => List.mem_takeWhile_imp hd,
    fun d hd => List.mem_takeWhile_imp (List.mem_reverse.mp hd)⟩
  rw [trimBy, ← List.reverse_append, List.takeWhile_append_dropWhile, List.reverse_reverse,
    List.takeWhile_append_dropWhile]

end Trimming

theorem isBlank_iff {c : Char} :
    isBlank c ↔ ∃ r ∈ blanks, r.1 ≤ c.toNat ∧ c.toNat ≤ r.2 := by
  simp only [isBlank, Ranges.holds, Ranges.find?, List.find?_isSome, Bool.and_eq_true,
    decide_eq_true_eq]

section Lines

variable {l rest : List Char} {c : Char}

/-- A line end that may stand in a string of JSON: the next line, the line separator, the paragraph
separator. -/
def isWideLineEnd (c : Char) : Bool :=
  c.toNat ∈ [0x85, 0x2028, 0x2029]

theorem isLineEnd_of_wide (hc : isWideLineEnd c) : isLineEnd c := by
  simp only [isWideLineEnd, isLineEnd, List.mem_cons, List.not_mem_nil, or_false,
    decide_eq_true_eq] at hc ⊢
  omega

theorem linesFrom_append (hl : ∀ d ∈ l, isLineEnd d = false) (line : List Char) :
    linesFrom line (l ++ rest) = linesFrom (l.reverse ++ line) rest := by
  induction l generalizing line with
  | nil => rfl
  | cons d l ih =>
    have hd := hl d List.mem_cons_self
    rw [List.cons_append, linesFrom.eq_def]
    split
    next heq => cases heq
    next heq =>
      obtain rfl : d = '\r' := (List.cons.inj heq).1
      cases hd
    next heq =>
      obtain ⟨rfl, rfl⟩ := List.cons.inj heq
      rw [hd, if_neg Bool.false_ne_true, ih fun e he => hl e (List.mem_cons_of_mem _ he),
        List.reverse_cons, List.append_assoc, List.singleton_append]

/-- A line ends with the first line end. -/
theorem lines_append (hl : ∀ d ∈ l, isLineEnd d = false) (hc : isLineEnd c) (hreturn : c ≠ '\r') :
    lines (l ++ c :: rest) = l :: lines rest := by
  rw [lines, linesFrom_append hl, List.append_nil, linesFrom.eq_def]
  split
  next heq => cases heq
  next heq => exact absurd (List.cons.inj heq).1 hreturn
  next heq =>
    obtain ⟨rfl, rfl⟩ := List.cons.inj heq
    rw [if_pos hc, List.reverse_reverse, lines]

theorem lines_of_forall (hl : ∀ d ∈ l, isLineEnd d = false) (hne : l ≠ []) : lines l = [l] := by
  calc lines l = linesFrom [] (l ++ []) := by rw [lines, List.append_nil]
    _ = linesFrom (l.reverse ++ []) [] := linesFrom_append hl []
    _ = [l] := by
      rw [List.append_nil, linesFrom, if_neg (by simpa using hne), List.reverse_reverse]

end Lines

end Text

end TreePaths
