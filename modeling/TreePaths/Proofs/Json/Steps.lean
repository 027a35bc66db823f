import TreePaths.Json.Reader

/-!
How containers in JSON are read, step by step: behind the opening, and behind an item or a member.
-/

namespace TreePaths.Json

variable {cs rest : List Char} {closing : Char} {v whole : Value}
  {more : List Char → Reading Value} {fuel : Nat}

/-- How a container is read behind its opening: it may be empty. -/
def readOpened (closing : Char) (empty : Value) (more : List Char → Reading Value) :
    List Char → Reading Value
  | [] => more []
  | c :: rest => if c = closing then .ok (empty, rest) else more (c :: rest)

/-- How a container is read behind a part of it: `whole` is its value if it ends here. -/
def readBehind (closing : Char) (whole : Value) (more : List Char → Reading Value) :
    List Char → Reading Value
  | [] => stopAt .expectedComma []
  | c :: rest =>
    if c = closing then .ok (whole, rest)
    else if c = ',' then more (skipSpace rest)
    else stopAt .expectedComma (c :: rest)

theorem readOpened_cases (h : readOpened closing whole more cs = .ok (v, rest)) :
    cs = closing :: rest ∧ v = whole ∨ more cs = .ok (v, rest) := by
  cases cs with
  | nil => exact .inr h
  | cons c cs =>
    rw [readOpened] at h
    split at h
    next hc =>
      obtain ⟨rfl, rfl⟩ := Prod.mk.inj (Except.ok.inj h)
      exact .inl ⟨by rw [hc], rfl⟩
    next => exact .inr h

theorem readBehind_cases (h : readBehind closing whole more cs = .ok (v, rest)) :
    cs = closing :: rest ∧ v = whole ∨
      ∃ tail, cs = ',' :: tail ∧ more (skipSpace tail) = .ok (v, rest) := by
  cases cs with
  | nil => cases h
  | cons c cs =>
    rw [readBehind] at h
    split at h
    next hc =>
      obtain ⟨rfl, rfl⟩ := Prod.mk.inj (Except.ok.inj h)
      exact .inl ⟨by rw [hc], rfl⟩
    next =>
      split at h
      next hc => exact .inr ⟨cs, by rw [hc], h⟩
      next => cases h

theorem readValue_list (fuel : Nat) (cs : List Char) :
    readValue (fuel + 1) ('[' :: cs) =
      readOpened ']' (.list []) (readItems fuel []) (skipSpace cs) := by
  rw [readValue]
  split
  next heq => rw [heq, readOpened, if_pos rfl]
  next hno =>
    cases hcs : skipSpace cs with
    | nil => rfl
    | cons c rest =>
      rw [readOpened, if_neg]
      rintro rfl
      exact hno rest hcs

theorem readValue_struct (fuel : Nat) (cs : List Char) :
    readValue (fuel + 1) ('\x7b' :: cs) =
      readOpened '\x7d' (.struct []) (readMembers fuel []) (skipSpace cs) := by
  rw [readValue]
  split
  next heq => rw [heq, readOpened, if_pos rfl]
  next hno =>
    cases hcs : skipSpace cs with
    | nil => rfl
    | cons c rest =>
      rw [readOpened, if_neg]
      rintro rfl
      exact hno rest hcs

theorem readItems_eq (fuel : Nat) (done : List Value) (cs : List Char) :
    readItems (fuel + 1) done cs =
      match readValue fuel cs with
      | .error e => .error e
      | .ok (v, rest) =>
        readBehind ']' (.list (v :: done).reverse) (readItems fuel (v :: done))
          (skipSpace rest) := by
  rw [readItems]
  cases readValue fuel cs with
  | error e => rfl
  | ok read =>
    dsimp only
    split
    next heq => rw [heq, readBehind, if_pos rfl]
    next heq => rw [heq, readBehind, if_neg (by decide), if_pos rfl]
    next hclose hcomma =>
      cases hcs : skipSpace read.2 with
      | nil => rfl
      | cons c cs =>
        rw [readBehind, if_neg, if_neg]
        · rintro rfl
          exact hcomma cs hcs
        · rintro rfl
          exact hclose cs hcs

theorem readItems_cases {done : List Value} (h : readItems (fuel + 1) done cs = .ok (v, rest)) :
    ∃ w behind, readValue fuel cs = .ok (w, behind) ∧
      readBehind ']' (.list (w :: done).reverse) (readItems fuel (w :: done)) (skipSpace behind) =
        .ok (v, rest) := by
  rw [readItems_eq] at h
  split at h
  · cases h
  next w behind hw => exact ⟨w, behind, hw, h⟩

theorem readMembers_eq {fuel : Nat} {done : List (String × Value)} {name : String}
    {cs behind value : List Char} (hname : readQuoted ('"' :: cs) = .ok (name, behind))
    (hcolon : skipSpace behind = ':' :: value) :
    readMembers (fuel + 1) done ('"' :: cs) =
      match readValue fuel (skipSpace value) with
      | .error e => .error e
      | .ok (v, rest) => readBehind '\x7d' (.struct ((name, v) :: done).reverse)
        (readMembers fuel ((name, v) :: done)) (skipSpace rest) := by
  rw [readMembers, hname]
  simp only [hcolon]
  cases readValue fuel (skipSpace value) with
  | error e => rfl
  | ok read =>
    dsimp only
    split
    next heq => rw [heq, readBehind, if_pos rfl]
    next heq => rw [heq, readBehind, if_neg (by decide), if_pos rfl]
    next hclose hcomma =>
      cases hcs : skipSpace read.2 with
      | nil => rfl
      | cons c cs =>
        rw [readBehind, if_neg, if_neg]
        · rintro rfl
          exact hcomma cs hcs
        · rintro rfl
          exact hclose cs hcs

theorem readMembers_cases {done : List (String × Value)}
    (h : readMembers (fuel + 1) done cs = .ok (v, rest)) :
    ∃ tail name behind value w after, cs = '"' :: tail ∧
      readQuoted ('"' :: tail) = .ok (name, behind) ∧ skipSpace behind = ':' :: value ∧
      readValue fuel (skipSpace value) = .ok (w, after) ∧
      readBehind '\x7d' (.struct ((name, w) :: done).reverse)
        (readMembers fuel ((name, w) :: done)) (skipSpace after) = .ok (v, rest) := by
  obtain ⟨tail, rfl, name, behind, hname, value, hcolon⟩ : ∃ tail, cs = '"' :: tail ∧
      ∃ name behind, readQuoted ('"' :: tail) = .ok (name, behind) ∧
        ∃ value, skipSpace behind = ':' :: value := by
    unfold readMembers at h
    split at h
    next tail =>
      refine ⟨tail, rfl, ?_⟩
      split at h
      · cases h
      next name behind hname =>
        refine ⟨name, behind, hname, ?_⟩
        split at h
        next value hcolon => exact ⟨value, hcolon⟩
        · cases h
    · cases h
  rw [readMembers_eq hname hcolon] at h
  split at h
  · cases h
  next w after hw => exact ⟨tail, name, behind, value, w, after, rfl, hname, hcolon, hw, h⟩

end TreePaths.Json
