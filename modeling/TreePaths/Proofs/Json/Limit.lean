import TreePaths.Proofs.Json.Extent
import TreePaths.Proofs.Outcome

/-!
Where reading stops at an integer with too many digits: just if such an integer stands where a value
is awaited, and everything before it is read. What comes after it does not matter.
-/

namespace TreePaths.Json

/-- Neither a fraction nor an exponent begins here. -/
def EndsWhole (rest : List Char) : Prop :=
  (∀ d more, rest = '.' :: d :: more → ¬d.isDigit) ∧
    ∀ mark negative d more, ExponentMark mark negative → rest = mark ++ d :: more → ¬d.isDigit

inductive Spot where
  | value
  | item
  | member

/-- A quote, these characters and a quote are the text of a name, whatever follows. -/
def Names (body : List Char) (name : String) : Prop :=
  (∀ c ∈ body, 0x20 ≤ c.toNat) ∧
    ∀ rest, readQuoted ('"' :: (body ++ '"' :: rest)) = .ok (name, rest)

inductive Exceeds (n : Nat) : Spot → List Char → Prop where
  | number (negative : Bool) {ds rest : List Char} :
      Digits (ds ++ rest) ds rest → ds.head? ≠ some '0' → EndsWhole rest → ds.length = n →
      Text.digitLimit < n → Exceeds n .value (sign negative ++ (ds ++ rest))
  | list {ws cs : List Char} :
      (∀ d ∈ ws, isSpace d) → Exceeds n .item cs → Exceeds n .value ('[' :: (ws ++ cs))
  | struct {ws cs : List Char} :
      (∀ d ∈ ws, isSpace d) → Exceeds n .member cs → Exceeds n .value ('\x7b' :: (ws ++ cs))
  | item {cs : List Char} : Exceeds n .value cs → Exceeds n .item cs
  | nextItem {text ws ws' cs : List Char} {v : Value} :
      Stands readValue text v → (∀ d ∈ ws, isSpace d) → (∀ d ∈ ws', isSpace d) →
      Exceeds n .item cs → Exceeds n .item (text ++ (ws ++ ',' :: (ws' ++ cs)))
  | member {body ws ws' cs : List Char} {name : String} :
      Names body name → (∀ d ∈ ws, isSpace d) → (∀ d ∈ ws', isSpace d) →
      Exceeds n .value cs → Exceeds n .member (Json.member body ws ws' cs)
  | nextMember {body ws ws' text ws₁ ws₂ cs : List Char} {name : String} {v : Value} :
      Names body name → (∀ d ∈ ws, isSpace d) → (∀ d ∈ ws', isSpace d) → Stands readValue text v →
      (∀ d ∈ ws₁, isSpace d) → (∀ d ∈ ws₂, isSpace d) → Exceeds n .member cs →
      Exceeds n .member (Json.member body ws ws' text ++ (ws₁ ++ ',' :: (ws₂ ++ cs)))

variable {cs rest : List Char} {n fuel : Nat}

section Whole

/-- An integer ends here exactly if the reader finds neither a fraction nor an exponent. -/
theorem endsWhole_iff :
    EndsWhole rest ↔ fractionDigits rest = ([], rest) ∧ exponent? rest = none := by
  constructor
  · rintro ⟨hpoint, hmark⟩
    constructor
    · obtain ⟨ds, r, h⟩ : ∃ ds r, fractionDigits rest = (ds, r) := ⟨_, _, rfl⟩
      rcases fractionDigits_cases h with ⟨rfl, rfl⟩ | ⟨more, rfl, hdigits⟩
      · exact h
      · obtain ⟨d, ds, rfl⟩ := List.exists_cons_of_ne_nil hdigits.nonempty
        rw [hdigits.text] at hpoint
        exact absurd (hdigits.digits d List.mem_cons_self) (hpoint d _ rfl)
    · cases h : exponent? rest with
      | none => rfl
      | some e =>
        obtain ⟨mark, more, hexp, rfl, hdigits⟩ := exponent?_cases h
        obtain ⟨d, ds, hds⟩ := List.exists_cons_of_ne_nil hdigits.nonempty
        rw [hdigits.text, hds] at hmark
        exact absurd (hdigits.digits d (hds ▸ List.mem_cons_self)) (hmark mark _ d _ hexp rfl)
  · rintro ⟨hfraction, hexponent⟩
    constructor
    · rintro d more rfl hd
      have hdigits : Digits (d :: more) _ _ := digits_of_run (by simp [hd])
      rw [hdigits.fractionDigits] at hfraction
      exact hdigits.nonempty (Prod.mk.inj hfraction).1
    · rintro mark negative d more hmark rfl hd
      have hdigits : Digits (d :: more) _ _ := digits_of_run (by simp [hd])
      rw [hdigits.exponent? hmark] at hexponent
      cases hexponent

theorem ofDigits_eq_digits {negative : Bool} {whole fraction : List Char}
    {exponent : Option (Bool × List Char)} :
    ofDigits negative whole fraction exponent = .error (.digits n) ↔
      fraction = [] ∧ exponent = none ∧ whole.length = n ∧ Text.digitLimit < n := by
  unfold ofDigits
  split
  · split <;> grind
  · grind

/-- A text as a sign and what follows; without digits there it is no number. -/
theorem readNumber_sign (start : List Char) : ∃ negative cs, start = sign negative ++ cs ∧
    (wholeDigits? cs = none → readNumber start = stopAt .expectedValue start) := by
  unfold readNumber
  split
  next negative cs hsign =>
    refine ⟨negative, cs, ?_, fun hnone => by rw [hnone]⟩
    split at hsign
    · obtain ⟨rfl, rfl⟩ := Prod.mk.inj hsign
      rfl
    · obtain ⟨rfl, rfl⟩ := Prod.mk.inj hsign
      rfl

theorem exceeds_of_readNumber (h : readNumber cs = .error (.digits n)) : Exceeds n .value cs := by
  obtain ⟨negative, cs, rfl, hnone⟩ := readNumber_sign cs
  cases hwhole : wholeDigits? cs with
  | none =>
    rw [hnone hwhole] at h
    cases h
  | some parts =>
    obtain ⟨whole, cs₁⟩ := parts
    obtain ⟨fraction, cs₂, hfraction⟩ : ∃ f r, fractionDigits cs₁ = (f, r) := ⟨_, _, rfl⟩
    obtain ⟨exponent, behind, hexponent⟩ : ∃ e r, exponentPart cs₂ = (e, r) := ⟨_, _, rfl⟩
    rw [readNumber_eq hwhole hfraction hexponent, map_eq_error, ofDigits_eq_digits] at h
    obtain ⟨rfl, rfl, rfl, hlimit⟩ := h
    rcases wholeDigits?_cases hwhole with ⟨rfl, rfl⟩ | ⟨hdigits, hzero⟩
    · exact absurd hlimit (by decide)
    obtain rfl := hdigits.text
    have hends : EndsWhole cs₁ := by
      rcases fractionDigits_cases hfraction with ⟨-, rfl⟩ | ⟨more, -, hmore⟩
      · refine endsWhole_iff.mpr ⟨hfraction, ?_⟩
        unfold exponentPart at hexponent
        split at hexponent
        next hnone => exact hnone
        next => cases hexponent
      · exact absurd rfl hmore.nonempty
    exact .number negative hdigits hzero hends rfl hlimit

theorem readNumber_overlong (negative : Bool) {ds : List Char}
    (hdigits : Digits (ds ++ rest) ds rest) (hzero : ds.head? ≠ some '0') (hends : EndsWhole rest)
    (hlength : ds.length = n) (hlimit : Text.digitLimit < n) :
    readNumber (sign negative ++ (ds ++ rest)) = .error (.digits n) := by
  obtain ⟨hfraction, hexponent⟩ := endsWhole_iff.mp hends
  have hpart : exponentPart rest = (none, rest) := by rw [exponentPart, hexponent]
  rw [readNumber_eq (hdigits.wholeDigits? hzero) hfraction hpart, map_eq_error, ofDigits_eq_digits]
  exact ⟨rfl, rfl, hlength, hlimit⟩

end Whole

theorem Exceeds.opens {spot : Spot} (h : Exceeds n spot cs) :
    ∃ c tail, cs = c :: tail ∧ Opens c := by
  induction h with
  | @number negative ds rest hdigits =>
    obtain ⟨d, ds, rfl⟩ := List.exists_cons_of_ne_nil hdigits.nonempty
    have hd := hdigits.digits d List.mem_cons_self
    cases negative with
    | true => exact ⟨'-', _, rfl, by decide⟩
    | false =>
      refine ⟨d, _, rfl, visible_of_isDigit hd, ?_, ?_⟩
      · rintro rfl
        cases hd
      · rintro rfl
        cases hd
  | list | struct | member | nextMember => exact ⟨_, _, rfl, by decide⟩
  | item _ ih => exact ih
  | nextItem hstands =>
    obtain ⟨c, tail, rfl, hc⟩ := hstands.starts
    exact ⟨c, _, rfl, hc⟩

theorem Exceeds.skipSpace {spot : Spot} {ws : List Char} (h : Exceeds n spot cs)
    (hws : ∀ d ∈ ws, isSpace d) : skipSpace (ws ++ cs) = cs := by
  obtain ⟨c, tail, rfl, hc⟩ := h.opens
  exact skipSpace_append hws hc.1.not_isSpace

theorem Exceeds.readOpened {spot : Spot} (h : Exceeds n spot cs) {closing : Char}
    (hclosing : ¬Opens closing) (empty : Value) (more : List Char → Reading Value) :
    readOpened closing empty more cs = more cs := by
  obtain ⟨c, tail, rfl, hc⟩ := h.opens
  rw [Json.readOpened, if_neg]
  rintro rfl
  exact hclosing hc

/-- Behind a comma a container goes on. -/
theorem Exceeds.readBehind {spot : Spot} (h : Exceeds n spot cs) {ws ws' : List Char}
    (hws : ∀ d ∈ ws, isSpace d) (hws' : ∀ d ∈ ws', isSpace d) {closing : Char}
    (hclosing : closing ≠ ',') (whole : Value) (more : List Char → Reading Value) :
    readBehind closing whole more (Json.skipSpace (ws ++ ',' :: (ws' ++ cs))) = more cs := by
  rw [skipSpace_append hws rfl, Json.readBehind, if_neg hclosing.symm, if_pos rfl,
    h.skipSpace hws']

/-- Reading at a spot, with as many steps as it may take, stops at the overlong integer. -/
def Spot.Stops (n : Nat) (cs : List Char) : Spot → Prop
  | value => ∀ fuel, 2 * cs.length ≤ fuel + 1 → readValue (fuel + 1) cs = .error (.digits n)
  | item => ∀ fuel done, 2 * cs.length ≤ fuel → readItems (fuel + 1) done cs = .error (.digits n)
  | member =>
    ∀ fuel done, 2 * cs.length ≤ fuel → readMembers (fuel + 1) done cs = .error (.digits n)

theorem Digits.startsNumber {ds : List Char} (h : Digits cs ds rest) (negative : Bool) :
    StartsNumber (sign negative ++ (ds ++ rest)) := by
  obtain ⟨d, ds, rfl⟩ := List.exists_cons_of_ne_nil h.nonempty
  have hd := h.digits d List.mem_cons_self
  cases negative with
  | true => exact .minus hd
  | false => exact .digit hd

theorem readValue_of_startsNumber (h : StartsNumber cs) :
    readValue (fuel + 1) cs = readNumber cs := by
  obtain ⟨c, tail, rfl⟩ := h.eq_cons
  have hne : c ≠ '"' ∧ c ≠ '[' ∧ c ≠ '\x7b' :=
    ⟨h.ne rfl (by decide), h.ne rfl (by decide), h.ne rfl (by decide)⟩
  rw [readValue_atom hne, readAtom_of_startsNumber h]

/-- Where an overlong integer is reached, reading stops. -/
theorem Exceeds.stops {spot : Spot} (h : Exceeds n spot cs) : spot.Stops n cs := by
  induction h with
  | @number negative ds rest hdigits hzero hends hlength hlimit =>
    intro fuel _
    rw [readValue_of_startsNumber (hdigits.startsNumber negative)]
    exact readNumber_overlong negative hdigits hzero hends hlength hlimit
  | @list ws cs hws hitem ih =>
    intro fuel hfuel
    simp only [List.length_cons, List.length_append] at hfuel
    obtain ⟨fuel, rfl⟩ : ∃ k, fuel = k + 1 := Nat.exists_eq_add_one_of_ne_zero (by omega)
    rw [readValue_list, hitem.skipSpace hws, hitem.readOpened (by decide)]
    exact ih fuel [] (by omega)
  | @struct ws cs hws hmember ih =>
    intro fuel hfuel
    simp only [List.length_cons, List.length_append] at hfuel
    obtain ⟨fuel, rfl⟩ : ∃ k, fuel = k + 1 := Nat.exists_eq_add_one_of_ne_zero (by omega)
    rw [readValue_struct, hmember.skipSpace hws, hmember.readOpened (by decide)]
    exact ih fuel [] (by omega)
  | @item cs hvalue ih =>
    intro fuel done hfuel
    obtain ⟨c, tail, rfl, -⟩ := hvalue.opens
    rw [List.length_cons] at hfuel
    obtain ⟨fuel, rfl⟩ : ∃ k, fuel = k + 1 := Nat.exists_eq_add_one_of_ne_zero (by omega)
    rw [readItems_eq, ih fuel (by rw [List.length_cons]; omega)]
  | @nextItem text ws ws' cs v hstands hws hws' hitem ih =>
    intro fuel done hfuel
    simp only [List.length_cons, List.length_append] at hfuel
    have hends := endsNumber_append hws (endsNumber_cons (c := ',') (by decide) (ws' ++ cs))
    have hlength := hstands.length_pos
    rw [(leads_item hstands done).reads fuel _ (by omega) hends,
      hitem.readBehind hws hws' (by decide)]
    obtain ⟨fuel, rfl⟩ : ∃ k, fuel = k + 1 := Nat.exists_eq_add_one_of_ne_zero (by omega)
    exact ih fuel (v :: done) (by omega)
  | @member body ws ws' cs name hname hws hws' hvalue ih =>
    intro fuel done hfuel
    simp only [Json.member, List.length_cons, List.length_append] at hfuel
    obtain ⟨fuel, rfl⟩ : ∃ k, fuel = k + 1 := Nat.exists_eq_add_one_of_ne_zero (by omega)
    rw [Json.member, readMembers_eq (hname.2 _) (skipSpace_append hws rfl),
      hvalue.skipSpace hws', ih fuel (by omega)]
  | @nextMember body ws ws' text ws₁ ws₂ cs name v hname hws hws' hstands hws₁ hws₂ hmember ih =>
    intro fuel done hfuel
    simp only [List.length_cons, List.length_append] at hfuel
    have hends := endsNumber_append hws₁ (endsNumber_cons (c := ',') (by decide) (ws₂ ++ cs))
    have hlength : 0 < (Json.member body ws ws' text).length := by simp [Json.member]
    rw [(leads_member hname.1 hname.2 hws hws' hstands done).reads fuel _ (by omega) hends,
      hmember.readBehind hws₁ hws₂ (by decide)]
    obtain ⟨fuel, rfl⟩ : ∃ k, fuel = k + 1 := Nat.exists_eq_add_one_of_ne_zero (by omega)
    exact ih fuel _ (by omega)

section Stopped

variable {closing : Char} {whole : Value} {more : List Char → Reading Value}

theorem readCode_ne_digits : readCode cs ≠ .error (.digits n) := by
  unfold readCode
  split
  · nofun
  · repeat' split
    all_goals nofun

theorem readString_ne_digits {start done : List Char} :
    readString start fuel done cs ≠ .error (.digits n) := by
  fun_induction readString start fuel done cs with
  | case5 _ _ _ e he =>
    rintro ⟨⟩
    exact readCode_ne_digits he
  | case6 _ _ _ _ _ _ ih => exact ih
  | case7 _ _ _ _ _ _ _ ih => exact ih
  | case10 _ _ _ _ _ _ _ _ _ ih => exact ih
  | _ => nofun

theorem readOpened_digits (h : readOpened closing whole more cs = .error (.digits n)) :
    more cs = .error (.digits n) := by
  cases cs with
  | nil => exact h
  | cons c cs =>
    rw [readOpened] at h
    split at h
    · cases h
    · exact h

theorem readBehind_digits (h : readBehind closing whole more cs = .error (.digits n)) :
    ∃ tail, cs = ',' :: tail ∧ more (skipSpace tail) = .error (.digits n) := by
  cases cs with
  | nil => cases h
  | cons c cs =>
    rw [readBehind] at h
    split at h
    next => cases h
    split at h
    next hc => exact ⟨cs, by rw [hc], h⟩
    next => cases h

theorem readAtom_digits (h : readAtom cs = .error (.digits n)) : Exceeds n .value cs := by
  unfold readAtom at h
  split at h
  next => cases h
  next => cases h
  next => cases h
  next => cases h
  next => cases h
  next => cases h
  next => exact exceeds_of_readNumber h

theorem readMembers_digits {done : List (String × Value)}
    (h : readMembers (fuel + 1) done cs = .error (.digits n)) :
    ∃ tail name behind value, cs = '"' :: tail ∧ readQuoted ('"' :: tail) = .ok (name, behind) ∧
      skipSpace behind = ':' :: value ∧ (readValue fuel (skipSpace value) = .error (.digits n) ∨
        ∃ w after, readValue fuel (skipSpace value) = .ok (w, after) ∧
          readBehind '\x7d' (.struct ((name, w) :: done).reverse)
            (readMembers fuel ((name, w) :: done)) (skipSpace after) = .error (.digits n)) := by
  obtain ⟨tail, rfl, name, behind, hname, value, hcolon⟩ : ∃ tail, cs = '"' :: tail ∧
      ∃ name behind, readQuoted ('"' :: tail) = .ok (name, behind) ∧
        ∃ value, skipSpace behind = ':' :: value := by
    unfold readMembers at h
    split at h
    next tail =>
      refine ⟨tail, rfl, ?_⟩
      split at h
      next he =>
        cases h
        exact absurd he readString_ne_digits
      next name behind hname =>
        refine ⟨name, behind, hname, ?_⟩
        split at h
        next value hcolon => exact ⟨value, hcolon⟩
        next => cases h
    next => cases h
  rw [readMembers_eq hname hcolon] at h
  refine ⟨tail, name, behind, value, rfl, hname, hcolon, ?_⟩
  split at h
  next he => exact .inl (he.trans h)
  next w after hw => exact .inr ⟨w, after, hw, h⟩

end Stopped

section Step

variable (hvalue : ∀ cs, readValue fuel cs = .error (.digits n) → Exceeds n .value cs)
  (hitems : ∀ done cs, readItems fuel done cs = .error (.digits n) → Exceeds n .item cs)
  (hmembers : ∀ done cs, readMembers fuel done cs = .error (.digits n) → Exceeds n .member cs)

include hitems hmembers in
theorem exceeds_of_readValue (h : readValue (fuel + 1) cs = .error (.digits n)) :
    Exceeds n .value cs := by
  by_cases hquote : ∃ tail, cs = '"' :: tail
  · obtain ⟨tail, rfl⟩ := hquote
    rw [readValue] at h
    split at h
    next he =>
      cases h
      exact absurd he readString_ne_digits
    next => cases h
  by_cases hlist : ∃ tail, cs = '[' :: tail
  · obtain ⟨tail, rfl⟩ := hlist
    rw [readValue_list] at h
    obtain ⟨ws, htail, hws⟩ := skipSpace_split tail
    rw [htail]
    exact .list hws (hitems [] _ (readOpened_digits h))
  by_cases hstruct : ∃ tail, cs = '\x7b' :: tail
  · obtain ⟨tail, rfl⟩ := hstruct
    rw [readValue_struct] at h
    obtain ⟨ws, htail, hws⟩ := skipSpace_split tail
    rw [htail]
    exact .struct hws (hmembers [] _ (readOpened_digits h))
  cases cs with
  | nil => exact readAtom_digits h
  | cons c cs =>
    rw [readValue_atom ⟨fun hc => hquote ⟨cs, by rw [hc]⟩, fun hc => hlist ⟨cs, by rw [hc]⟩,
      fun hc => hstruct ⟨cs, by rw [hc]⟩⟩] at h
    exact readAtom_digits h

include hvalue hitems in
theorem exceeds_of_readItems {done : List Value}
    (h : readItems (fuel + 1) done cs = .error (.digits n)) : Exceeds n .item cs := by
  rw [readItems_eq] at h
  split at h
  next he => exact .item (hvalue cs (he.trans h))
  next v rest hv =>
    obtain ⟨text, rfl, hstands⟩ := (stands_of_read fuel).1 _ _ _ hv
    obtain ⟨tail, hcomma, hnext⟩ := readBehind_digits h
    obtain ⟨ws, hrest, hws⟩ := skipSpace_split rest
    obtain ⟨ws', htail, hws'⟩ := skipSpace_split tail
    rw [hrest, hcomma, htail]
    exact .nextItem hstands hws hws' (hitems _ _ hnext)

include hvalue hmembers in
theorem exceeds_of_readMembers {done : List (String × Value)}
    (h : readMembers (fuel + 1) done cs = .error (.digits n)) : Exceeds n .member cs := by
  obtain ⟨tail, name, behind, value, rfl, hname, hcolon, hfails⟩ := readMembers_digits h
  obtain ⟨body, rfl, hbody, hquoted⟩ := readQuoted_local hname
  obtain ⟨ws, hbehind, hws⟩ := skipSpace_split behind
  obtain ⟨ws', hvalue', hws'⟩ := skipSpace_split value
  rw [hbehind, hcolon, hvalue']
  rcases hfails with hfails | ⟨w, after, hw, hfails⟩
  · exact .member ⟨hbody, hquoted⟩ hws hws' (hvalue _ hfails)
  · obtain ⟨text, htext, hstands⟩ := (stands_of_read fuel).1 _ _ _ hw
    obtain ⟨tail, hcomma, hnext⟩ := readBehind_digits hfails
    obtain ⟨ws₁, hafter, hws₁⟩ := skipSpace_split after
    obtain ⟨ws₂, htail, hws₂⟩ := skipSpace_split tail
    have hnextMember := Exceeds.nextMember ⟨hbody, hquoted⟩ hws hws' hstands hws₁ hws₂
      (hmembers _ _ hnext)
    rw [htext, hafter, hcomma, htail]
    simpa only [member, List.cons_append, List.append_assoc] using hnextMember

end Step

/-- Reading stops so only where an overlong integer is reached. -/
theorem exceeds_of_stop (fuel : Nat) :
    (∀ cs, readValue fuel cs = .error (.digits n) → Exceeds n .value cs) ∧
    (∀ done cs, readItems fuel done cs = .error (.digits n) → Exceeds n .item cs) ∧
    (∀ done cs, readMembers fuel done cs = .error (.digits n) → Exceeds n .member cs) := by
  induction fuel with
  | zero => exact ⟨nofun, nofun, nofun⟩
  | succ fuel ih =>
    obtain ⟨hvalue, hitems, hmembers⟩ := ih
    exact ⟨fun _ => exceeds_of_readValue hitems hmembers,
      fun _ _ => exceeds_of_readItems hvalue hitems,
      fun _ _ => exceeds_of_readMembers hvalue hmembers⟩

def Overlong (cs : List Char) (n : Nat) : Prop :=
  ∃ ws rest, cs = ws ++ rest ∧ (∀ d ∈ ws, isSpace d) ∧ Exceeds n .value rest

theorem not_overlong_nil : ¬Overlong [] n := by
  rintro ⟨ws, rest, hnil, -, hexceeds⟩
  obtain ⟨c, tail, rfl, -⟩ := hexceeds.opens
  simp at hnil

/-- A text is refused for the length of an integer exactly if the reader comes to that integer. -/
theorem read_eq_digits : read cs = .error (.digits n) ↔ Overlong cs n := by
  constructor
  · intro h
    unfold read at h
    split at h
    next => cases h
    next stop hstop =>
      obtain rfl : stop = .digits n := by
        cases stop with
        | fault => cases h
        | digits => cases h; rfl
      unfold readDocument at hstop
      split at hstop
      next => cases hstop
      split at hstop
      next he =>
        cases hstop
        obtain ⟨ws, hcs, hws⟩ := skipSpace_split cs
        exact ⟨ws, _, hcs, hws, (exceeds_of_stop _).1 _ he⟩
      next =>
        split at hstop
        · cases hstop
        · cases hstop
  · rintro ⟨ws, rest, rfl, hws, hexceeds⟩
    have hread := hexceeds.stops (2 * (ws ++ rest).length + 1)
      (by simp only [List.length_append]; omega)
    have hdocument : readDocument (ws ++ rest) = .error (.digits n) := by
      unfold readDocument
      split
      next heq =>
        obtain ⟨c, tail, rfl, hc⟩ := hexceeds.opens
        exact absurd heq (ne_mark hws hc _)
      next => rw [hexceeds.skipSpace hws, hread]
    rw [read, hdocument]
    rfl

theorem overlong_of_digits {ds : List Char} (hdigits : ∀ d ∈ ds, d.isDigit)
    (hzero : ds.head? ≠ some '0') (hlimit : Text.digitLimit < ds.length) :
    Overlong ds ds.length := by
  have hne : ds ≠ [] := List.ne_nil_of_length_pos (Nat.zero_lt_of_lt hlimit)
  have hwhole : Digits (ds ++ []) ds [] := ⟨rfl, hne, hdigits, nofun⟩
  have hends : EndsWhole [] := ⟨nofun, by simp⟩
  refine ⟨[], ds, rfl, nofun, ?_⟩
  simpa [sign] using Exceeds.number false hwhole hzero hends rfl hlimit

end TreePaths.Json
