import Mathlib.Data.List.TakeWhile
import TreePaths.Proofs.Json.RoundTrip

/-!
What is read of a text does not depend on what comes behind it: a value that is read at the front of
a text is read at the front of any text that begins with the same characters and goes on as behind a
value.
-/

namespace TreePaths

namespace Text

/-- Hexadecimal digits stand behind the marks of ASCII, among them the quote. -/
theorem le_toNat_of_hexValue? {c : Char} {n : Nat} (h : hexValue? c = some n) : 0x30 ≤ c.toNat := by
  unfold hexValue? at h
  split at h
  next hc => exact hc.1
  split at h
  next hc => exact Nat.le_trans (by decide) hc.1
  split at h
  next hc => exact Nat.le_trans (by decide) hc.1
  · cases h

theorem le_toNat_of_hexNumber? {cs : List Char} {n : Nat} (h : hexNumber? cs = some n) :
    ∀ c ∈ cs, 0x30 ≤ c.toNat := by
  obtain ⟨ns, hns, -⟩ := Option.map_eq_some_iff.mp h
  clear h
  induction cs generalizing ns with
  | nil => exact fun c hc => absurd hc List.not_mem_nil
  | cons d cs ih =>
    rw [List.mapM_cons] at hns
    obtain ⟨m, hm, hrest⟩ := Option.bind_eq_some_iff.mp hns
    obtain ⟨ms, hms, -⟩ := Option.bind_eq_some_iff.mp hrest
    intro c hc
    rcases List.mem_cons.mp hc with rfl | hc
    · exact le_toNat_of_hexValue? hm
    · exact ih ms hms c hc

end Text

namespace Json

section Strings

variable {cs rest : List Char} {n : Nat}

theorem codeUnit?_eq_some : codeUnit? cs = some (n, rest) ↔ ∃ a b c d,
    cs = a :: b :: c :: d :: rest ∧ rest ≠ [] ∧ Text.hexNumber? [a, b, c, d] = some n := by
  constructor
  · intro h
    unfold codeUnit? at h
    split at h
    next a b c d e cs =>
      obtain ⟨m, hm, hpair⟩ := Option.map_eq_some_iff.mp h
      obtain ⟨rfl, rfl⟩ := Prod.mk.inj hpair
      exact ⟨a, b, c, d, rfl, List.cons_ne_nil _ _, hm⟩
    · cases h
  · rintro ⟨a, b, c, d, rfl, hne, hm⟩
    obtain ⟨e, es, rfl⟩ := List.exists_cons_of_ne_nil hne
    rw [codeUnit?, hm]
    rfl

/-- A code unit at the front of a text that has a quote in it ends before the quote. -/
theorem codeUnit?_append {body : List Char} (h : codeUnit? (body ++ '"' :: rest) = some (n, cs))
    (rest' : List Char) : ∃ cs', codeUnit? (body ++ '"' :: rest') = some (n, cs') := by
  obtain ⟨a, b, c, d, htext, -, hn⟩ := codeUnit?_eq_some.mp h
  have hquote : '"' ∉ [a, b, c, d] := by
    intro hmem
    exact absurd (Text.le_toNat_of_hexNumber? hn _ hmem) (by decide)
  have hunit (more : List Char) (hne : more ≠ []) :
      ∃ cs', codeUnit? ([a, b, c, d] ++ more) = some (n, cs') :=
    ⟨more, codeUnit?_eq_some.mpr ⟨a, b, c, d, rfl, hne, hn⟩⟩
  rcases List.append_eq_append_iff.mp (show body ++ '"' :: rest = [a, b, c, d] ++ cs from htext)
    with ⟨l, hl, hrest⟩ | ⟨l, hl, -⟩
  · cases l with
    | nil =>
      rw [List.append_nil] at hl
      rw [← hl]
      exact hunit _ (List.cons_ne_nil _ _)
    | cons q l =>
      have hq : q = '"' := (List.cons.inj hrest).1.symm
      exact absurd (hl ▸ List.mem_append_right _ (hq ▸ List.mem_cons_self)) hquote
  · rw [hl, List.append_assoc]
    exact hunit _ (List.append_ne_nil_of_right_ne_nil _ (List.cons_ne_nil _ _))

theorem length_of_codeUnit? (h : codeUnit? cs = some (n, rest)) : 5 ≤ cs.length := by
  obtain ⟨a, b, c, d, rfl, hne, -⟩ := codeUnit?_eq_some.mp h
  have hpos := List.length_pos_of_ne_nil hne
  simp only [List.length_cons]
  omega

/-- Two escapes that form a surrogate pair. -/
theorem readCode_pair {hi lo : Nat} {more : List Char}
    (hhi : codeUnit? cs = some (hi, '\\' :: 'u' :: more)) (hhigh : Text.isHighHalf hi)
    (hlo : codeUnit? more = some (lo, rest)) (hlow : Text.isLowHalf lo) :
    readCode ('u' :: cs) = .ok (Text.pairChar hi lo, rest) := by
  have hlength : 5 ≤ more.length := length_of_codeUnit? hlo
  rw [readCode, List.drop_one, List.tail_cons, hhi]
  simp only [hhigh, hlength, decide_true, Bool.and_self, if_true, hlo, hlow]

/-- An escape behind which no other one forms a pair with it. -/
theorem readCode_single {hi : Nat} (hhi : codeUnit? cs = some (hi, rest))
    (hnext : ∀ more, rest = '\\' :: 'u' :: more → Text.isHighHalf hi → more.length < 5 ∨
      ∃ lo behind, codeUnit? more = some (lo, behind) ∧ ¬Text.isLowHalf lo) :
    readCode ('u' :: cs) = .ok (Text.codeChar hi, rest) := by
  rw [readCode, List.drop_one, List.tail_cons, hhi]
  dsimp only
  split
  next more =>
    split
    next hpair =>
      simp only [Bool.and_eq_true, decide_eq_true_eq] at hpair
      rcases hnext more rfl hpair.1 with hshort | ⟨lo, behind, hlo, hlow⟩
      · exact absurd hpair.2 (Nat.not_le.mpr hshort)
      · rw [hlo]
        dsimp only
        rw [if_neg hlow]
    next => rfl
  next => rfl

/-- An escape stands for a pair of halves, or for one code that is followed by no half to make a
pair with. -/
theorem readCode_cases {c : Char} (h : readCode ('u' :: cs) = .ok (c, rest)) :
    (∃ hi more lo, codeUnit? cs = some (hi, '\\' :: 'u' :: more) ∧ Text.isHighHalf hi ∧
      codeUnit? more = some (lo, rest) ∧ Text.isLowHalf lo ∧ c = Text.pairChar hi lo) ∨
    ∃ hi, codeUnit? cs = some (hi, rest) ∧ c = Text.codeChar hi ∧
      ∀ more, rest = '\\' :: 'u' :: more → Text.isHighHalf hi → more.length < 5 ∨
        ∃ lo behind, codeUnit? more = some (lo, behind) ∧ ¬Text.isLowHalf lo := by
  rw [readCode, List.drop_one, List.tail_cons] at h
  split at h
  · cases h
  next hi behind hhi =>
  split at h
  next more =>
    split at h
    next hpair =>
      simp only [Bool.and_eq_true, decide_eq_true_eq] at hpair
      split at h
      · cases h
      next lo after hlo =>
      split at h
      next hlow =>
        obtain ⟨rfl, rfl⟩ := Prod.mk.inj (Except.ok.inj h)
        exact .inl ⟨hi, more, lo, hhi, hpair.1, hlo, hlow, rfl⟩
      next hlow =>
        obtain ⟨rfl, rfl⟩ := Prod.mk.inj (Except.ok.inj h)
        refine .inr ⟨hi, hhi, rfl, fun m hm _ => .inr ?_⟩
        obtain rfl : more = m := by simpa using hm
        exact ⟨lo, after, hlo, hlow⟩
    next hpair =>
      obtain ⟨rfl, rfl⟩ := Prod.mk.inj (Except.ok.inj h)
      refine .inr ⟨hi, hhi, rfl, fun m hm hhigh => .inl ?_⟩
      obtain rfl : more = m := by simpa using hm
      simpa [hhigh] using hpair
  next hno =>
    obtain ⟨rfl, rfl⟩ := Prod.mk.inj (Except.ok.inj h)
    exact .inr ⟨hi, hhi, rfl, fun more hmore => absurd hmore (hno more)⟩

/-- The escape is the same if another text comes behind the quote that ends the string. -/
theorem readCode_local {c : Char} {body : List Char}
    (h : readCode ('u' :: cs) = .ok (c, body ++ '"' :: rest))
    (hunit : ∀ more, body ++ '"' :: rest = '\\' :: 'u' :: more → (codeUnit? more).isSome) :
    ∃ code, cs = code ++ (body ++ '"' :: rest) ∧ (∀ d ∈ code, 0x20 ≤ d.toNat) ∧
      ∀ rest', readCode ('u' :: (code ++ (body ++ '"' :: rest'))) =
        .ok (c, body ++ '"' :: rest') := by
  have hne (r : List Char) : body ++ '"' :: r ≠ [] :=
    List.append_ne_nil_of_right_ne_nil _ (List.cons_ne_nil _ _)
  have hdigits {a b c d : Char} {n : Nat} (hn : Text.hexNumber? [a, b, c, d] = some n) :
      ∀ e ∈ [a, b, c, d], 0x20 ≤ e.toNat :=
    fun e he => Nat.le_trans (by decide) (Text.le_toNat_of_hexNumber? hn e he)
  rcases readCode_cases h with ⟨hi, more, lo, hhi, hhigh, hlo, hlow, hc⟩ | ⟨hi, hhi, hc, hnext⟩
  · obtain ⟨a, b, c, d, rfl, -, hn⟩ := codeUnit?_eq_some.mp hhi
    obtain ⟨a', b', c', d', rfl, -, hn'⟩ := codeUnit?_eq_some.mp hlo
    refine ⟨[a, b, c, d] ++ '\\' :: 'u' :: [a', b', c', d'], ?_, fun e he => ?_, fun rest' => ?_⟩
    · simp only [List.cons_append, List.nil_append]
    · rcases List.mem_append.mp he with he | he
      · exact hdigits hn e he
      · rcases List.mem_cons.mp he with rfl | he
        · decide
        · rcases List.mem_cons.mp he with rfl | he
          · decide
          · exact hdigits hn' e he
    · have hlo' : codeUnit? (a' :: b' :: c' :: d' :: (body ++ '"' :: rest')) =
          some (lo, body ++ '"' :: rest') :=
        codeUnit?_eq_some.mpr ⟨a', b', c', d', rfl, hne rest', hn'⟩
      have hhi' : codeUnit? (a :: b :: c :: d :: '\\' :: 'u' ::
          a' :: b' :: c' :: d' :: (body ++ '"' :: rest')) = some (hi, _) :=
        codeUnit?_eq_some.mpr ⟨a, b, c, d, rfl, List.cons_ne_nil _ _, hn⟩
      rw [hc]
      exact readCode_pair hhi' hhigh hlo' hlow
  · obtain ⟨a, b, c, d, rfl, -, hn⟩ := codeUnit?_eq_some.mp hhi
    refine ⟨[a, b, c, d], rfl, hdigits hn, fun rest' => ?_⟩
    rw [hc]
    refine readCode_single (codeUnit?_eq_some.mpr ⟨a, b, c, d, rfl, hne rest', hn⟩) ?_
    -- An escape that follows is in the body, so it followed before.
    intro more' hmore' hhigh
    obtain ⟨tail, rfl, rfl⟩ : ∃ tail, body = '\\' :: 'u' :: tail ∧
        more' = tail ++ '"' :: rest' := by
      match body with
      | [] => cases hmore'
      | [_] => cases hmore'
      | x :: y :: tail =>
        obtain ⟨rfl, htail⟩ := List.cons.inj hmore'
        obtain ⟨rfl, rfl⟩ := List.cons.inj htail
        exact ⟨tail, rfl, rfl⟩
    obtain ⟨⟨lo, behind⟩, hlo⟩ := Option.isSome_iff_exists.mp (hunit (tail ++ '"' :: rest) rfl)
    obtain ⟨behind', hlo'⟩ := codeUnit?_append hlo rest'
    rcases hnext (tail ++ '"' :: rest) rfl hhigh with hshort | ⟨lo₂, behind₂, hlo₂, hlow⟩
    · exact absurd (length_of_codeUnit? hlo) (Nat.not_le.mpr hshort)
    · rw [hlo] at hlo₂
      obtain ⟨rfl, -⟩ := Prod.mk.inj (Option.some.inj hlo₂)
      exact .inr ⟨lo, behind', hlo', hlow⟩

variable {start done : List Char} {fuel : Nat} {c d : Char}

theorem readString_named (hd : namedEscape? c = some d) :
    readString start (fuel + 1) done ('\\' :: c :: cs) = readString start fuel (d :: done) cs := by
  conv => lhs; unfold readString
  split
  next heq => cases heq
  next heq => cases heq
  next heq => cases heq
  next heq =>
    cases heq
    cases hd
  next heq =>
    obtain ⟨rfl, rfl⟩ := List.cons.inj (List.cons.inj heq).2
    rw [hd]
  next hno heq =>
    obtain ⟨rfl, rfl⟩ := List.cons.inj heq
    exact (hno c cs rfl rfl).elim

theorem readString_plain (hquote : c ≠ '"') (hbackslash : c ≠ '\\') (hcontrol : 0x20 ≤ c.toNat) :
    readString start (fuel + 1) done (c :: cs) = readString start fuel (c :: done) cs := by
  conv => lhs; unfold readString
  split
  next heq => cases heq
  next heq => exact absurd (List.cons.inj heq).1 hquote
  next heq => exact absurd (List.cons.inj heq).1 hbackslash
  next heq => exact absurd (List.cons.inj heq).1 hbackslash
  next heq => exact absurd (List.cons.inj heq).1 hbackslash
  next heq =>
    obtain ⟨rfl, rfl⟩ := List.cons.inj heq
    rw [if_neg (Nat.not_lt.mpr hcontrol)]

theorem le_toNat_of_namedEscape? (h : namedEscape? c = some d) : 0x20 ≤ c.toNat := by
  unfold namedEscape? at h
  split at h
  all_goals first | decide | cases h

/-- An escape at the front of what is read has its four digits. -/
theorem isSome_of_readString {s : String}
    (h : readString start fuel done ('\\' :: 'u' :: cs) = .ok (s, rest)) : (codeUnit? cs).isSome := by
  cases fuel with
  | zero => cases h
  | succ fuel =>
    rw [readString, readCode, List.drop_one, List.tail_cons] at h
    cases hcu : codeUnit? cs with
    | none =>
      rw [hcu] at h
      cases h
    | some _ => rfl

structure Closes (done body : List Char) (s : String) : Prop where
  plain : ∀ c ∈ body, 0x20 ≤ c.toNat
  reads : ∀ start fuel rest, body.length < fuel →
    readString start fuel done (body ++ '"' :: rest) = .ok (s, rest)

/-- One more character in front, of which these are the characters in the text. -/
theorem Closes.append {front body : List Char} {s : String} (h : Closes (d :: done) body s)
    (hne : front ≠ []) (hfront : ∀ c ∈ front, 0x20 ≤ c.toNat)
    (hstep : ∀ start fuel rest, readString start (fuel + 1) done (front ++ (body ++ '"' :: rest)) =
      readString start fuel (d :: done) (body ++ '"' :: rest)) : Closes done (front ++ body) s where
  plain := List.forall_mem_append.mpr ⟨hfront, h.plain⟩
  reads := by
    intro start fuel rest hfuel
    have hpos := List.length_pos_of_ne_nil hne
    rw [List.length_append] at hfuel
    obtain ⟨fuel, rfl⟩ : ∃ n, fuel = n + 1 := Nat.exists_eq_add_one_of_ne_zero (by omega)
    rw [List.append_assoc, hstep]
    exact h.reads start fuel rest (by omega)

theorem closes_nil (done : List Char) : Closes done [] (.ofList done.reverse) where
  plain := List.forall_mem_nil _
  reads := by
    intro start fuel rest hfuel
    obtain ⟨fuel, rfl⟩ := Nat.exists_eq_add_one_of_ne_zero (Nat.ne_of_gt hfuel)
    rfl

/-- A string ends with the first quote that is not escaped. -/
theorem readString_local {s : String} (h : readString start fuel done cs = .ok (s, rest)) :
    ∃ body, cs = body ++ '"' :: rest ∧ Closes done body s := by
  induction fuel generalizing done cs with
  | zero => cases h
  | succ fuel ih =>
    unfold readString at h
    split at h
    · cases h
    next =>
      obtain ⟨rfl, rfl⟩ := Prod.mk.inj (Except.ok.inj h)
      exact ⟨[], rfl, closes_nil done⟩
    · cases h
    next cs =>
      split at h
      · cases h
      next c behind hcode =>
      obtain ⟨body, rfl, hbody⟩ := ih h
      have hunit : ∀ more, body ++ '"' :: rest = '\\' :: 'u' :: more → (codeUnit? more).isSome := by
        intro more hmore
        rw [hmore] at h
        exact isSome_of_readString h
      obtain ⟨code, rfl, hvisible, hcode'⟩ := readCode_local hcode hunit
      refine ⟨'\\' :: 'u' :: code ++ body, ?_, hbody.append (List.cons_ne_nil _ _) ?_ ?_⟩
      · simp only [List.cons_append, List.append_assoc]
      · exact List.forall_mem_cons.mpr ⟨by decide, List.forall_mem_cons.mpr ⟨by decide, hvisible⟩⟩
      · intro start' fuel' rest'
        rw [List.cons_append, List.cons_append, readString, hcode' rest']
    next c cs hu =>
      split at h
      next d hd =>
        obtain ⟨body, rfl, hbody⟩ := ih h
        refine ⟨['\\', c] ++ body, rfl, hbody.append (List.cons_ne_nil _ _) ?_ ?_⟩
        · exact List.forall_mem_cons.mpr
            ⟨by decide, List.forall_mem_singleton.mpr (le_toNat_of_namedEscape? hd)⟩
        · exact fun start' fuel' rest' => readString_named hd
      · cases h
    next c cs hquote hsingle hcode hnamed =>
      split at h
      · cases h
      next hcontrol =>
        have hvisible : 0x20 ≤ c.toNat := Nat.not_lt.mp hcontrol
        have hbackslash : c ≠ '\\' := by
          rintro rfl
          cases cs with
          | nil => exact hsingle rfl rfl
          | cons d cs => exact hnamed d cs rfl rfl
        obtain ⟨body, rfl, hbody⟩ := ih h
        refine ⟨[c] ++ body, rfl, hbody.append (List.cons_ne_nil _ _) ?_ ?_⟩
        · exact List.forall_mem_singleton.mpr hvisible
        · exact fun start' fuel' rest' => readString_plain hquote hbackslash hvisible

/-- A string ends with its closing quote. -/
theorem readQuoted_local {cs : List Char} {s : String}
    (h : readQuoted ('"' :: cs) = .ok (s, rest)) :
    ∃ body, cs = body ++ '"' :: rest ∧ (∀ c ∈ body, 0x20 ≤ c.toNat) ∧
      ∀ rest', readQuoted ('"' :: (body ++ '"' :: rest')) = .ok (s, rest') := by
  obtain ⟨body, hcs, hbody⟩ := readString_local h
  refine ⟨body, hcs, hbody.plain, fun rest' => hbody.reads _ _ rest' ?_⟩
  simp only [List.length_cons, List.length_append]
  omega

end Strings

/-- The character is a mark, a digit or a letter of ASCII. -/
def Visible (c : Char) : Prop :=
  0x20 < c.toNat ∧ c.toNat < 0x7F

instance (c : Char) : Decidable (Visible c) :=
  inferInstanceAs (Decidable (_ ∧ _))

theorem visible_of_all {text : List Char} (h : text.all fun c => decide (Visible c)) :
    ∀ c ∈ text, Visible c :=
  fun c hc => of_decide_eq_true (List.all_eq_true.mp h c hc)

theorem visible_of_isDigit {d : Char} (hd : d.isDigit) : Visible d := by
  obtain ⟨hlow, hhigh⟩ : 48 ≤ d.toNat ∧ d.toNat ≤ 57 := by
    simpa [Char.isDigit, UInt32.le_iff_toNat_le] using hd
  exact ⟨by omega, by omega⟩

section Numbers

variable {cs rest ds : List Char}

structure Digits (cs ds rest : List Char) : Prop where
  text : cs = ds ++ rest
  nonempty : ds ≠ []
  digits : ∀ d ∈ ds, d.isDigit
  ends : ∀ c more, rest = c :: more → ¬c.isDigit

theorem Digits.run (h : Digits cs ds rest) :
    cs.takeWhile Char.isDigit = ds ∧ cs.dropWhile Char.isDigit = rest := by
  rw [h.text, List.takeWhile_append_of_pos h.digits, List.dropWhile_append_of_pos h.digits]
  cases rest with
  | nil => exact ⟨List.append_nil ds, rfl⟩
  | cons c cs =>
    have hc := h.ends c cs rfl
    rw [List.takeWhile_cons_of_neg hc, List.dropWhile_cons_of_neg hc, List.append_nil]
    exact ⟨rfl, rfl⟩

theorem digits_of_run (hne : ¬(cs.takeWhile Char.isDigit).isEmpty) :
    Digits cs (cs.takeWhile Char.isDigit) (cs.dropWhile Char.isDigit) where
  text := List.takeWhile_append_dropWhile.symm
  nonempty := by simpa using hne
  digits := fun d hd => List.mem_takeWhile_imp hd
  ends := by
    intro c more heq hc
    have hhead := List.head?_dropWhile_not Char.isDigit cs
    rw [heq] at hhead
    simp [hc] at hhead

/-- A look at the digits in front. -/
theorem Digits.ite {α : Type} (h : Digits cs ds rest) (none : α)
    (some : List Char → List Char → α) :
    (if (cs.takeWhile Char.isDigit).isEmpty then none
      else some (cs.takeWhile Char.isDigit) (cs.dropWhile Char.isDigit)) = some ds rest := by
  rw [h.run.1, h.run.2, if_neg]
  simpa using h.nonempty

theorem Digits.wholeDigits? (h : Digits cs ds rest) (hzero : ds.head? ≠ some '0') :
    wholeDigits? cs = some (ds, rest) := by
  unfold Json.wholeDigits?
  split
  next cs =>
    obtain ⟨d, more, rfl⟩ := List.exists_cons_of_ne_nil h.nonempty
    exact absurd (congrArg some (List.cons.inj h.text).1.symm) hzero
  next => exact h.ite none fun ds rest => some (ds, rest)

/-- A whole part is a single zero, or digits that begin with another one. -/
theorem wholeDigits?_cases (h : wholeDigits? cs = some (ds, rest)) :
    cs = '0' :: rest ∧ ds = ['0'] ∨ Digits cs ds rest ∧ ds.head? ≠ some '0' := by
  unfold wholeDigits? at h
  split at h
  next cs =>
    obtain ⟨rfl, rfl⟩ := Prod.mk.inj (Option.some.inj h)
    exact .inl ⟨rfl, rfl⟩
  next hzero =>
    dsimp only at h
    split at h
    · cases h
    next hne =>
      obtain ⟨rfl, rfl⟩ := Prod.mk.inj (Option.some.inj h)
      refine .inr ⟨digits_of_run hne, fun hhead => ?_⟩
      obtain ⟨more, hmore⟩ := List.head?_eq_some_iff.mp hhead
      refine hzero (more ++ cs.dropWhile Char.isDigit) ?_
      rw [← List.cons_append, ← hmore]
      exact (digits_of_run hne).text

theorem Digits.fractionDigits (h : Digits cs ds rest) :
    fractionDigits ('.' :: cs) = (ds, rest) :=
  h.ite ([], '.' :: cs) fun ds rest => (ds, rest)

/-- A fraction is a point with digits, and otherwise nothing is taken. -/
theorem fractionDigits_cases (h : fractionDigits cs = (ds, rest)) :
    ds = [] ∧ rest = cs ∨ ∃ more, cs = '.' :: more ∧ Digits more ds rest := by
  unfold fractionDigits at h
  split at h
  next cs =>
    dsimp only at h
    split at h
    · obtain ⟨rfl, rfl⟩ := Prod.mk.inj h
      exact .inl ⟨rfl, rfl⟩
    next hne =>
      obtain ⟨rfl, rfl⟩ := Prod.mk.inj h
      exact .inr ⟨cs, rfl, digits_of_run hne⟩
  next =>
    obtain ⟨rfl, rfl⟩ := Prod.mk.inj h
    exact .inl ⟨rfl, rfl⟩

inductive ExponentMark : List Char → Bool → Prop where
  | minus {e : Char} (he : e = 'e' ∨ e = 'E') : ExponentMark [e, '-'] true
  | plus {e : Char} (he : e = 'e' ∨ e = 'E') : ExponentMark [e, '+'] false
  | unsigned {e : Char} (he : e = 'e' ∨ e = 'E') : ExponentMark [e] false

variable {mark : List Char} {negative : Bool}

theorem Digits.exponent? (h : Digits cs ds rest) (hmark : ExponentMark mark negative) :
    exponent? (mark ++ cs) = some (negative, ds, rest) := by
  cases hmark with
  | minus he => rcases he with rfl | rfl <;> exact h.ite none fun ds rest => some (true, ds, rest)
  | plus he => rcases he with rfl | rfl <;> exact h.ite none fun ds rest => some (false, ds, rest)
  | @unsigned e he =>
    obtain ⟨d, more, rfl⟩ := List.exists_cons_of_ne_nil h.nonempty
    have hd : d.isDigit := h.digits d List.mem_cons_self
    have hdigit {e' c : Char} {more : List Char} (heq : [e] ++ cs = e' :: c :: more) :
        c.isDigit := by
      rw [h.text] at heq
      cases heq
      exact hd
    unfold Json.exponent?
    split
    next heq => exact absurd (hdigit heq) (by decide)
    next heq => exact absurd (hdigit heq) (by decide)
    next heq => exact absurd (hdigit heq) (by decide)
    next heq => exact absurd (hdigit heq) (by decide)
    next heq =>
      obtain ⟨rfl, rfl⟩ := List.cons.inj heq
      exact h.ite none fun ds rest => some (false, ds, rest)
    next heq =>
      obtain ⟨rfl, rfl⟩ := List.cons.inj heq
      exact h.ite none fun ds rest => some (false, ds, rest)
    next hsmall hlarge =>
      rcases he with rfl | rfl
      · exact (hsmall cs rfl).elim
      · exact (hlarge cs rfl).elim

theorem exponent?_cases (h : exponent? cs = some (negative, ds, rest)) :
    ∃ mark more, ExponentMark mark negative ∧ cs = mark ++ more ∧ Digits more ds rest := by
  have hdigits {b : Bool} {cs : List Char} (h : (if (cs.takeWhile Char.isDigit).isEmpty then none
      else some (b, cs.takeWhile Char.isDigit, cs.dropWhile Char.isDigit)) =
        some (negative, ds, rest)) : b = negative ∧ Digits cs ds rest := by
    split at h
    · cases h
    next hne =>
      obtain ⟨rfl, hpair⟩ := Prod.mk.inj (Option.some.inj h)
      obtain ⟨rfl, rfl⟩ := Prod.mk.inj hpair
      exact ⟨rfl, digits_of_run hne⟩
  unfold exponent? at h
  split at h
  next more =>
    obtain ⟨rfl, hmore⟩ := hdigits h
    exact ⟨['e', '-'], more, .minus (.inl rfl), rfl, hmore⟩
  next more =>
    obtain ⟨rfl, hmore⟩ := hdigits h
    exact ⟨['E', '-'], more, .minus (.inr rfl), rfl, hmore⟩
  next more =>
    obtain ⟨rfl, hmore⟩ := hdigits h
    exact ⟨['e', '+'], more, .plus (.inl rfl), rfl, hmore⟩
  next more =>
    obtain ⟨rfl, hmore⟩ := hdigits h
    exact ⟨['E', '+'], more, .plus (.inr rfl), rfl, hmore⟩
  next more _ _ =>
    obtain ⟨rfl, hmore⟩ := hdigits h
    exact ⟨['e'], more, .unsigned (.inl rfl), rfl, hmore⟩
  next more _ _ =>
    obtain ⟨rfl, hmore⟩ := hdigits h
    exact ⟨['E'], more, .unsigned (.inr rfl), rfl, hmore⟩
  next => cases h

def exponentPart (cs : List Char) : Option (Bool × List Char) × List Char :=
  match exponent? cs with
  | none => (none, cs)
  | some (negative, ds, rest) => (some (negative, ds), rest)

/-- The number that is written with these digits; without a fraction and an exponent it is an
integer. -/
def ofDigits (negative : Bool) (whole fraction : List Char) (exponent : Option (Bool × List Char)) :
    Except Stop Value :=
  match fraction, exponent with
  | [], none =>
    if Text.digitLimit < whole.length then .error (.digits whole.length)
    else
      let n : Int := Text.decimalValue whole
      .ok (.int (if negative then -n else n))
  | fraction, exponent =>
    let e : Int :=
      match exponent with
      | none => 0
      | some (below, ds) =>
        let n : Int := Text.decimalValue ds
        if below then -n else n
    let m := Text.decimalValue (whole ++ fraction)
    .ok (.float (.ofDecimal negative m (e - fraction.length)))

def sign (negative : Bool) : List Char :=
  if negative then ['-'] else []

variable {whole fraction cs₁ cs₂ : List Char} {exponent : Option (Bool × List Char)}

theorem text_of_wholeDigits? (h : wholeDigits? cs = some (whole, rest)) :
    cs = whole ++ rest ∧ whole ≠ [] ∧ ∀ d ∈ whole, d.isDigit := by
  rcases wholeDigits?_cases h with ⟨rfl, rfl⟩ | ⟨hdigits, -⟩
  · refine ⟨rfl, List.cons_ne_nil _ _, fun d hd => ?_⟩
    rw [List.mem_singleton.mp hd]
    rfl
  · exact ⟨hdigits.text, hdigits.nonempty, hdigits.digits⟩

theorem readNumber_eq (hwhole : wholeDigits? cs = some (whole, cs₁))
    (hfraction : fractionDigits cs₁ = (fraction, cs₂))
    (hexponent : exponentPart cs₂ = (exponent, rest)) (negative : Bool) :
    readNumber (sign negative ++ cs) =
      (ofDigits negative whole fraction exponent).map (·, rest) := by
  unfold readNumber
  split
  next negative' cs' hsign =>
    have hparts : negative' = negative ∧ cs' = cs := by
      cases negative with
      | true =>
        obtain ⟨rfl, rfl⟩ := Prod.mk.inj hsign
        exact ⟨rfl, rfl⟩
      | false =>
        obtain ⟨rfl, hne, hdigits⟩ := text_of_wholeDigits? hwhole
        obtain ⟨d, more, rfl⟩ := List.exists_cons_of_ne_nil hne
        have hd := ne_minus_of_isDigit (hdigits d List.mem_cons_self)
        split at hsign
        next heq => exact absurd (List.cons.inj heq).1 hd
        next =>
          obtain ⟨rfl, rfl⟩ := Prod.mk.inj hsign
          exact ⟨rfl, rfl⟩
    obtain ⟨rfl, rfl⟩ := hparts
    rw [hwhole]
    dsimp only
    rw [hfraction]
    dsimp only
    unfold exponentPart at hexponent
    cases hexp : exponent? cs₂ with
    | none =>
      rw [hexp] at hexponent
      obtain ⟨rfl, rfl⟩ := Prod.mk.inj hexponent
      cases fraction with
      | nil =>
        unfold ofDigits
        dsimp only
        split <;> rfl
      | cons => rfl
    | some e =>
      rw [hexp] at hexponent
      obtain ⟨rfl, rfl⟩ := Prod.mk.inj hexponent
      cases fraction <;> rfl

theorem readNumber_cases {start : List Char} {v : Value} (h : readNumber start = .ok (v, rest)) :
    ∃ negative cs whole cs₁ fraction cs₂ exponent, start = sign negative ++ cs ∧
      wholeDigits? cs = some (whole, cs₁) ∧ fractionDigits cs₁ = (fraction, cs₂) ∧
      exponentPart cs₂ = (exponent, rest) ∧ ofDigits negative whole fraction exponent = .ok v := by
  obtain ⟨negative, cs, rfl, parts, hwhole⟩ : ∃ negative cs, start = sign negative ++ cs ∧
      ∃ parts, wholeDigits? cs = some parts := by
    unfold readNumber at h
    split at h
    next negative cs hsign =>
      refine ⟨negative, cs, ?_, ?_⟩
      · split at hsign
        · obtain ⟨rfl, rfl⟩ := Prod.mk.inj hsign
          rfl
        · obtain ⟨rfl, rfl⟩ := Prod.mk.inj hsign
          rfl
      · split at h
        · cases h
        next hwhole => exact ⟨_, hwhole⟩
  obtain ⟨whole, cs₁⟩ := parts
  obtain ⟨fraction, cs₂, hfraction⟩ : ∃ f r, fractionDigits cs₁ = (f, r) := ⟨_, _, rfl⟩
  obtain ⟨exponent, behind, hexponent⟩ : ∃ e r, exponentPart cs₂ = (e, r) := ⟨_, _, rfl⟩
  rw [readNumber_eq hwhole hfraction hexponent] at h
  cases hvalue : ofDigits negative whole fraction exponent with
  | error e =>
    rw [hvalue] at h
    cases h
  | ok w =>
    rw [hvalue] at h
    obtain ⟨rfl, rfl⟩ := Prod.mk.inj (Except.ok.inj h)
    exact ⟨negative, cs, whole, cs₁, fraction, cs₂, exponent, rfl, hwhole, hfraction, hexponent,
      hvalue⟩

def EndsFraction (rest : List Char) : Prop :=
  ∀ c cs, rest = c :: cs → ¬c.isDigit ∧ c ≠ '.'

theorem wholeDigits?_local (h : wholeDigits? cs = some (whole, rest)) {rest' : List Char}
    (hrest : ∀ c more, rest' = c :: more → ¬c.isDigit) :
    wholeDigits? (whole ++ rest') = some (whole, rest') := by
  rcases wholeDigits?_cases h with ⟨-, rfl⟩ | ⟨hdigits, hzero⟩
  · rfl
  · exact Digits.wholeDigits? ⟨rfl, hdigits.nonempty, hdigits.digits, hrest⟩ hzero

theorem fractionDigits_local (h : fractionDigits cs = (fraction, rest)) :
    ∃ text, cs = text ++ rest ∧ (∀ c ∈ text, Visible c) ∧ ∀ rest', EndsFraction rest' →
      fractionDigits (text ++ rest') = (fraction, rest') ∧
        ∀ c more, text ++ rest' = c :: more → ¬c.isDigit := by
  rcases fractionDigits_cases h with ⟨rfl, rfl⟩ | ⟨more, rfl, hdigits⟩
  · refine ⟨[], rfl, fun c hc => absurd hc List.not_mem_nil, fun rest' hrest => ⟨?_, ?_⟩⟩
    · rw [List.nil_append]
      unfold fractionDigits
      split
      next more => exact absurd rfl (hrest '.' more rfl).2
      next => rfl
    · exact fun c more hmore => (hrest c more hmore).1
  · refine ⟨'.' :: fraction, by rw [hdigits.text, List.cons_append], fun c hc => ?_,
      fun rest' hrest => ⟨?_, ?_⟩⟩
    · rcases List.mem_cons.mp hc with rfl | hc
      · decide
      · exact visible_of_isDigit (hdigits.digits c hc)
    · exact Digits.fractionDigits
        ⟨rfl, hdigits.nonempty, hdigits.digits, fun c more hmore => (hrest c more hmore).1⟩
    · intro c more hmore
      rw [← (List.cons.inj hmore).1]
      decide

theorem ExponentMark.eq_cons {mark : List Char} {negative : Bool}
    (h : ExponentMark mark negative) : (∃ e more, mark = e :: more ∧ (e = 'e' ∨ e = 'E')) ∧
      ∀ c ∈ mark, Visible c := by
  cases h with
  | minus he => rcases he with rfl | rfl <;> exact ⟨⟨_, _, rfl, by decide⟩, visible_of_all rfl⟩
  | plus he => rcases he with rfl | rfl <;> exact ⟨⟨_, _, rfl, by decide⟩, visible_of_all rfl⟩
  | unsigned he => rcases he with rfl | rfl <;> exact ⟨⟨_, _, rfl, by decide⟩, visible_of_all rfl⟩

theorem exponentPart_local (h : exponentPart cs = (exponent, rest)) :
    ∃ text, cs = text ++ rest ∧ (∀ c ∈ text, Visible c) ∧ ∀ rest', EndsNumber rest' →
      exponentPart (text ++ rest') = (exponent, rest') ∧ EndsFraction (text ++ rest') := by
  unfold exponentPart at h
  split at h
  next hnone =>
    obtain ⟨rfl, rfl⟩ := Prod.mk.inj h
    refine ⟨[], rfl, fun c hc => absurd hc List.not_mem_nil, fun rest' hrest => ⟨?_, ?_⟩⟩
    · rw [List.nil_append, exponentPart, exponent?_of_ends hrest]
    · exact fun c more hmore => ⟨(hrest c more hmore).1, (hrest c more hmore).2.1⟩
  next negative ds behind hsome =>
    obtain ⟨rfl, rfl⟩ := Prod.mk.inj h
    obtain ⟨mark, more, hmark, rfl, hdigits⟩ := exponent?_cases hsome
    obtain ⟨⟨e, tail, rfl, he⟩, hvisible⟩ := hmark.eq_cons
    refine ⟨e :: tail ++ ds, by rw [hdigits.text, List.append_assoc], fun c hc => ?_,
      fun rest' hrest => ⟨?_, ?_⟩⟩
    · rcases List.mem_append.mp hc with hc | hc
      · exact hvisible c hc
      · exact visible_of_isDigit (hdigits.digits c hc)
    · have hread := Digits.exponent? ⟨rfl, hdigits.nonempty, hdigits.digits,
        fun c more hmore => (hrest c more hmore).1⟩ hmark
      rw [List.append_assoc, exponentPart, hread]
    · intro c more hmore
      rw [← (List.cons.inj hmore).1]
      rcases he with rfl | rfl <;> decide

/-- A number is read from the same characters, whatever follows that cannot belong to it. -/
theorem readNumber_local {start : List Char} {v : Value} (h : readNumber start = .ok (v, rest)) :
    ∃ text, start = text ++ rest ∧ StartsNumber text ∧ (∀ c ∈ text, Visible c) ∧
      ∀ rest', EndsNumber rest' → readNumber (text ++ rest') = .ok (v, rest') := by
  obtain ⟨negative, cs, whole, cs₁, fraction, cs₂, exponent, rfl, hwhole, hfraction, hexponent,
    hvalue⟩ := readNumber_cases h
  obtain ⟨rfl, hne, hdigits⟩ := text_of_wholeDigits? hwhole
  obtain ⟨ftext, rfl, hfvisible, hfread⟩ := fractionDigits_local hfraction
  obtain ⟨etext, rfl, hevisible, heread⟩ := exponentPart_local hexponent
  obtain ⟨d, ds, rfl⟩ := List.exists_cons_of_ne_nil hne
  have hd : d.isDigit := hdigits d List.mem_cons_self
  refine ⟨sign negative ++ (d :: ds ++ (ftext ++ etext)), by simp only [List.append_assoc], ?_,
    fun c hc => ?_, fun rest' hrest => ?_⟩
  · cases negative with
    | true => exact .minus hd
    | false => exact .digit hd
  · rcases List.mem_append.mp hc with hc | hc
    · cases negative with
      | true =>
        rw [List.mem_singleton.mp hc]
        decide
      | false => cases hc
    rcases List.mem_append.mp hc with hc | hc
    · exact visible_of_isDigit (hdigits c hc)
    rcases List.mem_append.mp hc with hc | hc
    · exact hfvisible c hc
    · exact hevisible c hc
  · obtain ⟨heread, hends⟩ := heread rest' hrest
    obtain ⟨hfread, hends⟩ := hfread _ hends
    simp only [List.append_assoc]
    rw [readNumber_eq (wholeDigits?_local hwhole hends) hfread heread, hvalue]
    rfl

end Numbers

end Json

end TreePaths
