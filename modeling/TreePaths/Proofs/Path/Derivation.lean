import TreePaths.Proofs.Path.Lexeme

/-!
The grammar of search paths, `Ann* ( (Ann* Atom)* )` over tokens, and what a derivation means.
-/

namespace TreePaths

inductive Token.Denotes : Token → Atom → Prop
  | quoted {q : Char} {body meaning : List Char} {offset : Nat} :
      Quotes q body meaning →
      Denotes ⟨.quoted, q :: (body ++ [q]), offset⟩ ⟨.ofList meaning, true⟩
  | bare {text : List Char} {offset : Nat} : Denotes ⟨.bare, text, offset⟩ ⟨.ofList text, false⟩

structure Item where
  annotations : List Atom
  atom : Atom

structure Outline where
  anchor : List Atom
  items : List Item

/-- `Ann*`: atoms with a separator after each of them. -/
inductive Annotates : List Token → List Atom → Prop
  | nil : Annotates [] []
  | cons {t s : Token} {a : Atom} {ts : List Token} {as : List Atom} :
      t.Denotes a → s.kind = .separator → Annotates ts as → Annotates (t :: s :: ts) (a :: as)

/-- `(Ann* Atom)*` -/
inductive Itemizes : List Token → List Item → Prop
  | nil : Itemizes [] []
  | cons {us ts : List Token} {t : Token} {as : List Atom} {a : Atom} {items : List Item} :
      Annotates us as → t.Denotes a → Itemizes ts items →
      Itemizes (us ++ t :: ts) (⟨as, a⟩ :: items)

/-- `Ann* ( (Ann* Atom)* )` -/
inductive Derives : List Token → Outline → Prop
  | list {us vs : List Token} {o c : Token} {as : List Atom} {items : List Item} :
      Annotates us as → o.kind = .opening → Itemizes vs items → c.kind = .closing →
      Derives (us ++ o :: (vs ++ [c])) ⟨as, items⟩

/-- A row of digits that a minus sign may precede. -/
def IntegerText (s : String) (negative : Bool) (digits : List Char) : Prop :=
  s.toList = (if negative then ['-'] else []) ++ digits ∧ digits ≠ [] ∧
    ∀ d ∈ digits, Text.isDigit d

namespace Item

/-- The item names a field whatever it looks like. -/
def IsName (i : Item) : Prop :=
  i.atom.isQuoted ∨ ∃ a ∈ i.annotations, a.isEscape

/-- The item is an integer that is no index: it is negative or has too many digits. -/
def Refused (i : Item) : Prop :=
  ¬i.IsName ∧ ∃ negative digits, IntegerText i.atom.text negative digits ∧
    (Text.digitLimit < digits.length ∨ negative ∧ Text.decimalValue digits ≠ 0)

inductive Selects (i : Item) : Selector → Prop
  | name : i.IsName → Selects i (.field i.atom.text)
  | wildcard : ¬i.IsName → i.atom.text = "*" → Selects i .wildcard
  | index {negative : Bool} {digits : List Char} :
      ¬i.IsName → IntegerText i.atom.text negative digits → ¬i.Refused →
      Selects i (.index (Text.decimalValue digits))
  | field : ¬i.IsName → i.atom.text ≠ "*" →
      (∀ negative digits, ¬IntegerText i.atom.text negative digits) →
      Selects i (.field i.atom.text)

/-- The component that an item means. The escape, unquoted, is no annotation of it. -/
def Means (i : Item) (c : Component) : Prop :=
  i.Selects c.selector ∧ c.annotations = (i.annotations.filter (!·.isEscape)).map (·.text)

end Item

def Outline.Means (d : Outline) (p : SearchPath) : Prop :=
  p.annotations = d.anchor.map (·.text) ∧ List.Forall₂ Item.Means d.items p.components

section Atoms

variable {t : Token} {a : Atom} {s : String} {negative : Bool} {digits : List Char}

theorem Token.Denotes.atom? (h : t.Denotes a) : t.atom? = some a := by
  cases h with
  | quoted hquotes => simp [Token.atom?, hquotes.unescape_eq]
  | bare => rfl

theorem Token.Denotes.unique {b : Atom} (h : t.Denotes a) (h' : t.Denotes b) : a = b :=
  Option.some.inj (h.atom?.symm.trans h'.atom?)

theorem Token.denotes_of_atom? (hlexeme : Token.Lexeme t.kind t.text) (h : t.atom? = some a) :
    t.Denotes a := by
  obtain ⟨kind, text, offset⟩ := t
  cases hlexeme with
  | opening => cases h
  | closing => cases h
  | separator => cases h
  | quoted _ hquotes =>
    have hdenotes := (Token.Denotes.quoted hquotes : Token.Denotes ⟨_, _, offset⟩ _)
    rw [hdenotes.atom?] at h
    exact Option.some.inj h ▸ hdenotes
  | bare _ _ =>
    cases h
    exact .bare

theorem Token.Denotes.kind_ne (h : t.Denotes a) :
    t.kind ≠ .separator ∧ t.kind ≠ .opening ∧ t.kind ≠ .closing := by
  cases h <;> simp

theorem Token.atom?_of_opening (h : t.kind = .opening) : t.atom? = none := by
  unfold Token.atom?
  rw [h]

theorem isDigits_iff (ds : List Char) :
    (!ds.isEmpty && ds.all Text.isDigit) = true ↔ ds ≠ [] ∧ ∀ d ∈ ds, Text.isDigit d := by
  simp

/-- The reader takes a text as an integer exactly if it is a row of digits, with a minus sign or
without. -/
theorem Atom.integer?_eq_some_iff :
    Atom.integer? s = some (negative, digits) ↔ IntegerText s negative digits := by
  constructor
  · intro h
    unfold Atom.integer? at h
    dsimp only at h
    split at h
    next ds hs =>
      split at h
      next hds =>
        cases h
        exact ⟨hs, (isDigits_iff _).mp hds⟩
      next => cases h
    next =>
      split at h
      next hds =>
        cases h
        exact ⟨rfl, (isDigits_iff _).mp hds⟩
      next => cases h
  · intro ⟨htext, hdigits⟩
    unfold Atom.integer?
    rw [htext]
    cases negative with
    | true => exact if_pos ((isDigits_iff _).mpr hdigits)
    | false =>
      obtain ⟨d, ds, rfl⟩ := List.exists_cons_of_ne_nil hdigits.1
      have hd : d ≠ '-' := by
        rintro rfl
        exact absurd (hdigits.2 _ List.mem_cons_self) (by decide)
      dsimp only [Bool.false_eq_true, if_false, List.nil_append]
      split
      next he => exact absurd (List.cons.inj he).1 hd
      next => exact if_pos ((isDigits_iff _).mpr hdigits)

theorem IntegerText.unique {negative' : Bool} {digits' : List Char}
    (h : IntegerText s negative digits) (h' : IntegerText s negative' digits') :
    negative = negative' ∧ digits = digits' := by
  rw [← Atom.integer?_eq_some_iff] at h h'
  exact Prod.mk.inj (Option.some.inj (h.symm.trans h'))

end Atoms

namespace Item

variable {i : Item} {c : Component} {source : String}

theorem isName_iff : (i.atom.isQuoted || i.annotations.any Atom.isEscape) = true ↔ i.IsName := by
  simp [IsName]

theorem refused_iff {negative : Bool} {digits : List Char} (hname : ¬i.IsName)
    (h : IntegerText i.atom.text negative digits) :
    i.Refused ↔ Text.digitLimit < digits.length ∨ negative ∧ Text.decimalValue digits ≠ 0 := by
  constructor
  · rintro ⟨-, negative', digits', h', hbad⟩
    obtain ⟨rfl, rfl⟩ := h.unique h'
    exact hbad
  · intro hbad
    exact ⟨hname, negative, digits, h, hbad⟩

theorem not_integerText_star (negative : Bool) (digits : List Char) :
    ¬IntegerText "*" negative digits := by
  rw [← Atom.integer?_eq_some_iff, (by decide : Atom.integer? "*" = none)]
  simp

theorem selects_name_iff (hname : i.IsName) {k : Selector} :
    i.Selects k ↔ k = .field i.atom.text := by
  constructor
  · intro h
    cases h with
    | name => rfl
    | wildcard h => exact absurd hname h
    | index h => exact absurd hname h
    | field => rfl
  · rintro rfl
    exact .name hname

theorem selects_star_iff (hname : ¬i.IsName) (hstar : i.atom.text = "*") {k : Selector} :
    i.Selects k ↔ k = .wildcard := by
  constructor
  · intro h
    cases h with
    | name h => exact absurd h hname
    | wildcard => rfl
    | index _ h => exact absurd (hstar ▸ h) (not_integerText_star _ _)
    | field _ h => exact absurd hstar h
  · rintro rfl
    exact .wildcard hname hstar

/-- An integer that names no field selects the child at that index, unless it is refused. -/
theorem selects_integer_iff {negative : Bool} {digits : List Char} (hname : ¬i.IsName)
    (htext : IntegerText i.atom.text negative digits) {k : Selector} :
    i.Selects k ↔ k = .index (Text.decimalValue digits) ∧ ¬i.Refused := by
  constructor
  · intro h
    cases h with
    | name h => exact absurd h hname
    | wildcard _ h => exact absurd (h ▸ htext) (not_integerText_star _ _)
    | index _ h hr =>
      obtain ⟨rfl, rfl⟩ := htext.unique h
      exact ⟨rfl, hr⟩
    | field _ _ h => exact absurd htext (h _ _)
  · rintro ⟨rfl, hr⟩
    exact .index hname htext hr

theorem selects_other_iff (hname : ¬i.IsName) (hstar : i.atom.text ≠ "*")
    (hnone : ∀ negative digits, ¬IntegerText i.atom.text negative digits) {k : Selector} :
    i.Selects k ↔ k = .field i.atom.text := by
  constructor
  · intro h
    cases h with
    | name => rfl
    | wildcard _ h => exact absurd h hstar
    | index _ h => exact absurd h (hnone _ _)
    | field => rfl
  · rintro rfl
    exact .field hname hstar hnone

/-- What an item selects that is no name: the selector that is read, or nothing. -/
theorem selector_eq_ok_iff (hname : ¬i.IsName) {k : Selector} :
    Atom.selector i.atom.text source = .ok k ↔ i.Selects k := by
  by_cases hstar : i.atom.text = "*"
  · rw [selects_star_iff hname hstar, Atom.selector, if_pos hstar, Except.ok.injEq, eq_comm]
  cases hinteger : Atom.integer? i.atom.text with
  | none =>
    have hnone (negative : Bool) (digits : List Char) :
        ¬IntegerText i.atom.text negative digits := by
      rw [← Atom.integer?_eq_some_iff, hinteger]
      simp
    rw [selects_other_iff hname hstar hnone, Atom.selector, if_neg hstar, hinteger, Except.ok.injEq,
      eq_comm]
  | some e =>
    obtain ⟨negative, digits⟩ := e
    have htext := Atom.integer?_eq_some_iff.mp hinteger
    rw [selects_integer_iff hname htext, refused_iff hname htext, Atom.selector, if_neg hstar,
      hinteger]
    dsimp only
    by_cases hlimit : Text.digitLimit < digits.length
    · simp [hlimit]
    rw [if_neg hlimit]
    by_cases hnegative : negative ∧ Text.decimalValue digits ≠ 0
    · simp [hnegative]
    · have hbad : ¬(negative && decide (Text.decimalValue digits ≠ 0)) = true := by
        simpa using hnegative
      rw [if_neg hbad, Except.ok.injEq]
      simp only [hlimit, hnegative, or_self, not_false_eq_true, and_true]
      exact eq_comm

/-- The reader makes the component that the item means. -/
theorem component_eq_ok_iff :
    i.atom.component i.annotations source = .ok c ↔ i.Means c := by
  obtain ⟨selector, annotations⟩ := c
  unfold Atom.component Means
  dsimp only
  by_cases hname : i.IsName
  · rw [if_pos (isName_iff.mpr hname), selects_name_iff hname]
    constructor
    · rintro ⟨⟩
      exact ⟨rfl, rfl⟩
    · rintro ⟨rfl, rfl⟩
      rfl
  · rw [if_neg (mt isName_iff.mp hname), ← @selector_eq_ok_iff i source hname]
    cases Atom.selector i.atom.text source with
    | error e => exact ⟨fun h => (by cases h), fun h => (by cases h.1)⟩
    | ok k =>
      constructor
      · rintro ⟨⟩
        exact ⟨rfl, rfl⟩
      · rintro ⟨⟨⟩, rfl⟩
        rfl

theorem not_refused_of_selects {k : Selector} (h : i.Selects k) : ¬i.Refused := by
  intro hr
  obtain ⟨hname, negative, digits, htext, -⟩ := id hr
  cases h with
  | name h => exact hname h
  | wildcard _ h => exact not_integerText_star negative digits (h ▸ htext)
  | index _ _ h => exact h hr
  | field _ _ h => exact h negative digits htext

/-- An item means a component unless it is refused. -/
theorem exists_means (h : ¬i.Refused) : ∃ c, i.Means c := by
  have hselects : ∃ k, i.Selects k := by
    by_cases hname : i.IsName
    · exact ⟨_, .name hname⟩
    by_cases hstar : i.atom.text = "*"
    · exact ⟨_, .wildcard hname hstar⟩
    by_cases htext : ∃ negative digits, IntegerText i.atom.text negative digits
    · obtain ⟨negative, digits, htext⟩ := htext
      exact ⟨_, .index hname htext h⟩
    · exact ⟨_, .field hname hstar fun negative digits ht => htext ⟨negative, digits, ht⟩⟩
  obtain ⟨k, hk⟩ := hselects
  exact ⟨⟨k, _⟩, hk, rfl⟩

end Item

end TreePaths
