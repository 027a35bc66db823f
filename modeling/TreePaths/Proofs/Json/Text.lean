import TreePaths.Json.Reader
import TreePaths.Json.Writer
import TreePaths.Proofs.Text.Digit

/-!
Strings and integers in JSON: what is written of them is read back. A string may hold any
characters. An integer must not be followed by what would go on with it.
-/

namespace TreePaths.Json

section Strings

/-- The escape of a control character has two zeros in front and denotes the character. -/
theorem hexDigits_control : ∀ n < 0x20,
    Text.hexDigits 4 n = ['0', '0', Nat.digitChar (n / 16), Nat.digitChar (n % 16)] := by
  decide

theorem hexNumber?_control : ∀ n < 0x20,
    Text.hexNumber? ['0', '0', Nat.digitChar (n / 16), Nat.digitChar (n % 16)] = some n := by
  decide

theorem readCode_control {c : Char} (hc : c.toNat < 0x20) (d : Char) (rest : List Char) :
    readCode ('u' :: (Text.hexDigits 4 c.toNat ++ d :: rest)) = .ok (c, d :: rest) := by
  have hunit : codeUnit? (('u' :: (Text.hexDigits 4 c.toNat ++ d :: rest)).drop 1) =
      some (c.toNat, d :: rest) := by
    rw [hexDigits_control _ hc]
    show (Text.hexNumber? _).map _ = _
    rw [hexNumber?_control _ hc]
    rfl
  have hhigh : Text.isHighHalf c.toNat = false := by
    simp only [Text.isHighHalf, Bool.and_eq_false_iff, decide_eq_false_iff_not]
    omega
  have hchar : Text.codeChar c.toNat = c := by
    have hvalid : c.toNat.isValidChar := .inl (by omega)
    rw [Text.codeChar, if_pos hvalid, Char.ofNat_toNat]
  rw [readCode, hunit]
  dsimp only
  split
  · rw [hhigh, hchar]
    rfl
  · rw [hchar]

/-- What is written of a character stands for it. -/
theorem readString_escapeChar (start : List Char) (fuel : Nat) (done : List Char) (c d : Char)
    (rest : List Char) :
    readString start (fuel + 1) done (escapeChar c ++ d :: rest) =
      readString start fuel (c :: done) (d :: rest) := by
  unfold escapeChar
  split
  · rfl
  · rfl
  · rfl
  · rfl
  · rfl
  · rfl
  · rfl
  next hquote hbackslash _ _ _ _ _ =>
    split
    next hcontrol =>
      rw [List.cons_append, List.cons_append, readString, readCode_control hcontrol]
    next hcontrol =>
      rw [List.singleton_append]
      conv => lhs; unfold readString
      split
      next heq => cases heq
      next heq => exact absurd (List.cons.inj heq).1 hquote
      next heq => exact absurd (List.cons.inj heq).1 hbackslash
      next heq => exact absurd (List.cons.inj heq).1 hbackslash
      next heq => exact absurd (List.cons.inj heq).1 hbackslash
      next heq =>
        obtain ⟨rfl, rfl⟩ := List.cons.inj heq
        rw [if_neg hcontrol]

theorem length_escapeChar_pos (c : Char) : 0 < (escapeChar c).length := by
  unfold escapeChar
  split <;> first | exact Nat.succ_pos _ | skip
  split <;> exact Nat.succ_pos _

/-- A text that has been escaped is read back up to its closing quote. -/
theorem readString_escaped (start : List Char) (fuel : Nat) (done s rest : List Char)
    (hfuel : (s.flatMap escapeChar).length < fuel) :
    readString start fuel done (s.flatMap escapeChar ++ '"' :: rest) =
      .ok (.ofList (done.reverse ++ s), rest) := by
  induction s generalizing fuel done with
  | nil =>
    obtain ⟨fuel, rfl⟩ := Nat.exists_eq_add_one_of_ne_zero (Nat.ne_of_gt hfuel)
    rw [List.append_nil]
    rfl
  | cons c s ih =>
    obtain ⟨fuel, rfl⟩ := Nat.exists_eq_add_one_of_ne_zero (Nat.ne_of_gt (Nat.zero_lt_of_lt hfuel))
    have hpos := length_escapeChar_pos c
    rw [List.flatMap_cons, List.length_append] at hfuel
    have hnext : ∃ d more, s.flatMap escapeChar ++ '"' :: rest = d :: more := by
      cases s.flatMap escapeChar with
      | nil => exact ⟨'"', rest, rfl⟩
      | cons d more => exact ⟨d, _, rfl⟩
    obtain ⟨d, more, hmore⟩ := hnext
    have ih := ih fuel (c :: done) (by omega)
    rw [hmore] at ih
    rw [List.flatMap_cons, List.append_assoc, hmore, readString_escapeChar, ih, List.reverse_cons,
      List.append_assoc, List.singleton_append]

/-- A string that has been written is read back, whatever follows it. -/
theorem readQuoted_writeString (s : String) (rest : List Char) :
    readQuoted (writeString s ++ rest) = .ok (s, rest) := by
  have htext : writeString s ++ rest = '"' :: (s.toList.flatMap escapeChar ++ '"' :: rest) := by
    rw [writeString, List.cons_append, List.append_assoc, List.singleton_append]
  rw [htext, readQuoted, List.drop_one, List.tail_cons, readString_escaped]
  · rw [List.reverse_nil, List.nil_append, String.ofList_toList]
  · simp only [List.length_cons, List.length_append]
    omega

end Strings

section Numbers

/-- The text goes on with what cannot belong to an integer. -/
def EndsNumber (rest : List Char) : Prop :=
  ∀ c cs, rest = c :: cs → ¬c.isDigit ∧ c ≠ '.' ∧ c ≠ 'e' ∧ c ≠ 'E'

theorem takeWhile_digits {ds rest : List Char} (hds : ∀ d ∈ ds, d.isDigit)
    (hrest : EndsNumber rest) :
    (ds ++ rest).takeWhile Char.isDigit = ds ∧ (ds ++ rest).dropWhile Char.isDigit = rest := by
  rw [List.takeWhile_append_of_pos hds, List.dropWhile_append_of_pos hds]
  cases rest with
  | nil => exact ⟨List.append_nil ds, rfl⟩
  | cons c cs =>
    have hc := (hrest c cs rfl).1
    rw [List.takeWhile_cons_of_neg hc, List.dropWhile_cons_of_neg hc, List.append_nil]
    exact ⟨rfl, rfl⟩

theorem digitChar_ne_zero : ∀ n < 10, n ≠ 0 → Nat.digitChar n ≠ '0' := by
  decide

/-- A number but zero has no zero in front. -/
theorem head_toDigits {n : Nat} (hn : n ≠ 0) :
    ∃ d ds, Nat.toDigits 10 n = d :: ds ∧ d ≠ '0' := by
  induction n using Nat.strongRecOn with
  | ind n ih =>
    by_cases hlt : n < 10
    · exact ⟨_, [], Nat.toDigits_of_lt_base hlt, digitChar_ne_zero n hlt hn⟩
    · obtain ⟨d, ds, hds, hd⟩ := ih (n / 10) (by omega) (by omega)
      refine ⟨d, ds ++ [(n % 10).digitChar], ?_, hd⟩
      rw [Nat.toDigits_of_base_le (by decide) (by omega), hds, List.cons_append]

theorem isDigit_of_mem_toDigits {n : Nat} : ∀ d ∈ Nat.toDigits 10 n, d.isDigit :=
  fun _ hd => Nat.isDigit_of_mem_toDigits (by decide) (by decide) hd

theorem wholeDigits?_toDigits (n : Nat) {rest : List Char} (hrest : EndsNumber rest) :
    wholeDigits? (Nat.toDigits 10 n ++ rest) = some (Nat.toDigits 10 n, rest) := by
  by_cases hn : n = 0
  · subst hn
    rfl
  obtain ⟨d, ds, hds, hd⟩ := head_toDigits hn
  obtain ⟨htake, hdrop⟩ := takeWhile_digits (isDigit_of_mem_toDigits (n := n)) hrest
  rw [hds] at htake hdrop ⊢
  rw [wholeDigits?.eq_def]
  split
  next heq => exact absurd (List.cons.inj heq).1 hd
  next =>
    rw [htake, hdrop]
    rfl

theorem fractionDigits_of_ends {rest : List Char} (hrest : EndsNumber rest) :
    fractionDigits rest = ([], rest) := by
  unfold fractionDigits
  split
  next cs => exact absurd rfl (hrest _ cs rfl).2.1
  next => rfl

theorem exponent?_of_ends {rest : List Char} (hrest : EndsNumber rest) :
    exponent? rest = none := by
  unfold exponent?
  split
  next => exact absurd rfl (hrest _ _ rfl).2.2.1
  next => exact absurd rfl (hrest _ _ rfl).2.2.2
  next => exact absurd rfl (hrest _ _ rfl).2.2.1
  next => exact absurd rfl (hrest _ _ rfl).2.2.2
  next => exact absurd rfl (hrest _ _ rfl).2.2.1
  next => exact absurd rfl (hrest _ _ rfl).2.2.2
  next => rfl

/-- The sign and the digits of an integer. -/
theorem toList_toString (i : Int) :
    (toString i).toList = (if i < 0 then ['-'] else []) ++ Nat.toDigits 10 i.natAbs := by
  rw [Int.toString_eq_repr]
  cases i with
  | ofNat n => exact Nat.toList_repr
  | negSucc n =>
    rw [if_pos (Int.negSucc_lt_zero n)]
    show ("-" ++ (n + 1).repr).toList = _
    rw [String.toList_append, Nat.toList_repr]
    rfl

theorem length_digits_of_isWritable {i : Int} (hi : Text.isWritable i) :
    (Nat.toDigits 10 i.natAbs).length ≤ Text.digitLimit :=
  of_decide_eq_true hi

theorem ne_minus_of_isDigit {d : Char} (hd : d.isDigit) : d ≠ '-' := by
  rintro rfl
  revert hd
  decide

/-- An integer that has been written is read back. -/
theorem readNumber_toString {i : Int} (hi : Text.isWritable i) {rest : List Char}
    (hrest : EndsNumber rest) :
    readNumber ((toString i).toList ++ rest) = .ok (.int i, rest) := by
  obtain ⟨d, ds, hds⟩ : ∃ d ds, Nat.toDigits 10 i.natAbs = d :: ds :=
    List.exists_cons_of_ne_nil Nat.toDigits_ne_nil
  have hd : d ≠ '-' := ne_minus_of_isDigit (isDigit_of_mem_toDigits d (hds ▸ List.mem_cons_self))
  unfold readNumber
  split
  next negative cs hsign =>
    have hparts : negative = decide (i < 0) ∧ cs = Nat.toDigits 10 i.natAbs ++ rest := by
      rw [toList_toString] at hsign
      by_cases hneg : i < 0
      · rw [if_pos hneg] at hsign
        obtain ⟨rfl, rfl⟩ := Prod.mk.inj hsign
        exact ⟨(decide_eq_true hneg).symm, rfl⟩
      · rw [if_neg hneg, List.nil_append, hds, List.cons_append] at hsign
        split at hsign
        next heq => exact absurd (List.cons.inj heq).1 hd
        next =>
          obtain ⟨rfl, rfl⟩ := Prod.mk.inj hsign
          rw [hds, List.cons_append]
          exact ⟨(decide_eq_false hneg).symm, rfl⟩
    obtain ⟨rfl, rfl⟩ := hparts
    have hlength := length_digits_of_isWritable hi
    rw [wholeDigits?_toDigits _ hrest]
    dsimp only
    rw [fractionDigits_of_ends hrest]
    dsimp only
    rw [exponent?_of_ends hrest]
    dsimp only
    rw [if_neg (by omega), Text.decimalValue_toDigits]
    have hvalue : (if decide (i < 0) = true then -(i.natAbs : Int) else i.natAbs) = i := by
      by_cases hneg : i < 0
      · rw [if_pos (decide_eq_true hneg)]
        omega
      · rw [if_neg (by simpa using hneg)]
        omega
    rw [hvalue]

end Numbers

end TreePaths.Json
