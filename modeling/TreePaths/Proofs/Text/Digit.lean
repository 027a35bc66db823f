import Mathlib.Algebra.Group.Int.Defs
import Mathlib.Algebra.GroupWithZero.Nat
import TreePaths.Text.Digit

/-!
The digits of a number in base ten, and the number that they denote.
-/

namespace TreePaths.Text

theorem toNat_of_isDigit {c : Char} (h : c.isDigit) : 48 ≤ c.toNat ∧ c.toNat ≤ 57 := by
  simp only [Char.isDigit, Bool.and_eq_true, decide_eq_true_eq] at h
  exact h

theorem digitValue?_of_isDigit {c : Char} (h : c.isDigit) :
    digitValue? c = some (c.toNat - 48) := by
  obtain ⟨hlow, hhigh⟩ := toNat_of_isDigit h
  have hfind : decimalDigits.find? c = some (0x30, 0x39) := by
    unfold Ranges.find? decimalDigits
    rw [List.find?_cons_of_pos]
    simp [hlow, hhigh]
  rw [digitValue?, hfind, Option.map_some, Nat.mod_eq_of_lt (by omega)]

theorem isDigit_of_isDigit {c : Char} (h : c.isDigit) : isDigit c := by
  rw [isDigit, digitValue?_of_isDigit h]
  rfl

theorem decimalValue_eq {cs : List Char} (h : ∀ c ∈ cs, c.isDigit) :
    decimalValue cs = Nat.ofDigitChars 10 cs 0 := by
  have hfold (n : Nat) : digitsValue 10 n (cs.map fun c => (digitValue? c).getD 0) =
      Nat.ofDigitChars 10 cs n := by
    induction cs generalizing n with
    | nil => simp [digitsValue]
    | cons c cs ih =>
      have hc := digitValue?_of_isDigit (h c List.mem_cons_self)
      have ih := ih (fun d hd => h d (List.mem_cons_of_mem _ hd)) (10 * n + (c.toNat - 48))
      rw [Nat.ofDigitChars_cons]
      unfold digitsValue at ih ⊢
      rw [List.map_cons, List.foldl_cons, hc, Option.getD_some, Nat.mul_comm n 10]
      exact ih
  exact hfold 0

/-- The digits of a number denote it. -/
theorem decimalValue_toDigits (n : Nat) : decimalValue (Nat.toDigits 10 n) = n := by
  have hdigits : ∀ c ∈ Nat.toDigits 10 n, c.isDigit :=
    fun c hc => Nat.isDigit_of_mem_toDigits (by decide) (by decide) hc
  rw [decimalValue_eq hdigits, Nat.ofDigitChars_ten_toDigits]

theorem digitsValue_lt {b n : Nat} {ds : List Nat} (h : ∀ d ∈ ds, d < b) :
    digitsValue b n ds < (n + 1) * b ^ ds.length := by
  induction ds generalizing n with
  | nil => simp [digitsValue]
  | cons d ds ih =>
    have hd := h d List.mem_cons_self
    have hrest := ih (n := n * b + d) fun e he => h e (List.mem_cons_of_mem d he)
    calc digitsValue b n (d :: ds) < (n * b + d + 1) * b ^ ds.length := hrest
      _ ≤ (n * b + b) * b ^ ds.length := Nat.mul_le_mul_right _ (by omega)
      _ = (n + 1) * b ^ (d :: ds).length := by rw [List.length_cons, Nat.pow_succ]; grind

end TreePaths.Text
