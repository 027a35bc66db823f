import Mathlib.Data.List.Forall2
import TreePaths.Proofs.Path.Written

/-!
The text of a search path reads back as the path, unless a name in it is an identifier that a line
feed follows: such a name is written bare, and its line feed is read as a blank.
-/

namespace TreePaths

/-- The names that stand in a component: its annotations, and the field that it selects. -/
def Component.names (c : Component) : List String :=
  c.annotations ++
    match c.selector with
    | .field n => [n]
    | _ => []

def SearchPath.names (p : SearchPath) : List String :=
  p.annotations ++ p.components.flatMap Component.names

section Items

variable {c : Component} {s : String} {as : List String} {cs : List Char}

theorem not_integerText_of_isIdentifier (h : isIdentifier s.toList) (negative : Bool)
    (digits : List Char) : ¬IntegerText s negative digits := by
  rintro ⟨htext, hne, hdigits⟩
  obtain ⟨d, ds, rfl⟩ := List.exists_cons_of_ne_nil hne
  rw [htext] at h
  cases negative with
  | true =>
    have hminus : isNameStart '-' = false := by decide
    simp [isIdentifier, hminus] at h
  | false =>
    simp only [Bool.false_eq_true, if_false, List.nil_append, isIdentifier, Bool.and_eq_true] at h
    have hd := not_isDigit_of_isNameStart h.1
    rw [hdigits d List.mem_cons_self] at hd
    cases hd

theorem ne_star_of_isIdentifier (h : isIdentifier s.toList) : s ≠ "*" := by
  rintro rfl
  exact absurd h (by decide)

/-- No name that is written is read as the field escape, unless a line feed follows it. -/
theorem not_isEscape_writtenName (h : ¬LineFed s) : (writtenName s).isEscape = false := by
  rcases writtenName_of_not_lineFed h with h | ⟨h, -, hne⟩
  · rw [h]
    rfl
  · rw [h]
    simp [Atom.isEscape, hne]

/-- Written annotations are read back just if no line feed follows any of them. -/
theorem annotations_eq_iff :
    as = ((as.map writtenName).filter (!·.isEscape)).map (·.text) ↔ ∀ a ∈ as, ¬LineFed a := by
  constructor
  · intro h
    have hlength := congrArg List.length h
    rw [List.length_map] at hlength
    have hall : (as.map writtenName).filter (!·.isEscape) = as.map writtenName := by
      refine List.filter_eq_self.mpr (List.length_filter_eq_length_iff.mp ?_)
      rw [← hlength, List.length_map]
    rw [hall, List.map_map] at h
    have hmap : as.map id = as.map _ := (List.map_id as).trans h
    intro a ha
    exact text_writtenName_eq_iff.mp (List.map_inj_left.mp hmap a ha).symm
  · intro h
    have hall : (as.map writtenName).filter (!·.isEscape) = as.map writtenName := by
      apply List.filter_eq_self.mpr
      intro b hb
      obtain ⟨a, ha, rfl⟩ := List.mem_map.mp hb
      rw [not_isEscape_writtenName (h a ha)]
      rfl
    rw [hall, List.map_map]
    have hmap : as.map id = as.map _ :=
      List.map_inj_left.mpr fun a ha => (text_writtenName_eq_iff.mpr (h a ha)).symm
    exact (List.map_id as).symm.trans hmap

theorem text_of_selects {i : Item} {n : String} (h : i.Selects (.field n)) : n = i.atom.text := by
  cases h <;> rfl

/-- Written annotations are no field escape, so what is bare stays bare under them. -/
theorem not_isName_of_annotations (h : ∀ a ∈ as, ¬LineFed a) (s : String) :
    ¬Item.IsName ⟨as.map writtenName, ⟨s, false⟩⟩ := by
  rintro (hquoted | ⟨_, ha, hescape⟩)
  · cases hquoted
  · obtain ⟨a, ha', rfl⟩ := List.mem_map.mp ha
    rw [not_isEscape_writtenName (h a ha')] at hescape
    cases hescape

theorem integerText_toString (i : Nat) :
    IntegerText (toString i) false (Nat.toDigits 10 i) := by
  refine ⟨?_, Nat.toDigits_ne_nil, fun d hd => ?_⟩
  · rw [Nat.toString_eq_repr, Nat.toList_repr]
    rfl
  · exact Text.isDigit_of_isDigit (Nat.isDigit_of_mem_toDigits (by decide) (by decide) hd)

/-- A written component is read back just if no line feed follows a name in it. -/
theorem means_writtenItem_iff
    (hindex : ∀ i : Nat, c.selector = .index i → Text.isWritable i) :
    (writtenItem c).Means c ↔ ∀ s ∈ c.names, ¬LineFed s := by
  obtain ⟨selector, annotations⟩ := c
  constructor
  · rintro ⟨hselects, hannotations⟩ s hs
    rcases List.mem_append.mp hs with hs | hs
    · exact annotations_eq_iff.mp hannotations s hs
    · cases selector with
      | field n =>
        rw [List.mem_singleton.mp hs]
        exact text_writtenName_eq_iff.mp (text_of_selects hselects).symm
      | index i => cases hs
      | wildcard => cases hs
  · intro h
    have hannotations : ∀ a ∈ annotations, ¬LineFed a :=
      fun a ha => h a (List.mem_append_left _ ha)
    refine ⟨?_, annotations_eq_iff.mpr hannotations⟩
    cases selector with
    | field n =>
      have hn : ¬LineFed n := h n (List.mem_append_right _ List.mem_cons_self)
      show Item.Selects ⟨annotations.map writtenName, writtenName n⟩ (.field n)
      rcases writtenName_of_not_lineFed hn with hn | ⟨hn, hident, -⟩
      · rw [hn]
        exact .name (i := ⟨_, ⟨n, true⟩⟩) (.inl rfl)
      · rw [hn]
        exact .field (i := ⟨_, ⟨n, false⟩⟩) (not_isName_of_annotations hannotations n)
          (ne_star_of_isIdentifier hident) (not_integerText_of_isIdentifier hident)
    | index i =>
      have hname := not_isName_of_annotations hannotations (toString i)
      have htext := integerText_toString i
      have haccepted : ¬Item.Refused ⟨annotations.map writtenName, ⟨toString i, false⟩⟩ := by
        rw [Item.refused_iff hname htext]
        rintro (hlimit | ⟨hnegative, -⟩)
        · have hwritable := hindex i rfl
          simp only [Text.isWritable, Text.digitCount, Int.natAbs_natCast] at hwritable
          exact absurd hlimit (Nat.not_lt.mpr (of_decide_eq_true hwritable))
        · cases hnegative
      have hselects := Item.Selects.index hname htext haccepted
      rw [Text.decimalValue_toDigits] at hselects
      exact hselects
    | wildcard => exact .wildcard (not_isName_of_annotations hannotations "*") rfl

/-- What is written for a path means this path exactly if none of its names is an identifier with a
line feed. -/
theorem means_writtenOutline_iff {p : SearchPath}
    (hindex : ∀ c ∈ p.components, ∀ i : Nat, c.selector = .index i → Text.isWritable i) :
    (writtenOutline p).Means p ↔ ∀ s ∈ p.names, ¬LineFed s := by
  have hanchor : p.annotations = (p.annotations.map writtenName).map (·.text) ↔
      ∀ s ∈ p.annotations, ¬LineFed s := by
    have hid : p.annotations = p.annotations.map id := (List.map_id _).symm
    conv_lhs => lhs; rw [hid]
    rw [List.map_map, List.map_inj_left]
    exact forall₂_congr fun a _ => eq_comm.trans text_writtenName_eq_iff
  have hcomponents : List.Forall₂ Item.Means (p.components.map writtenItem) p.components ↔
      ∀ c ∈ p.components, ∀ s ∈ c.names, ¬LineFed s := by
    rw [List.forall₂_map_left_iff, List.forall₂_same]
    exact forall₂_congr fun c hc => means_writtenItem_iff (hindex c hc)
  rw [Outline.Means, writtenOutline, hanchor, hcomponents, SearchPath.names]
  constructor
  · rintro ⟨hanchor, hcomponents⟩ s hs
    rcases List.mem_append.mp hs with hs | hs
    · exact hanchor s hs
    · obtain ⟨c, hc, hs⟩ := List.mem_flatMap.mp hs
      exact hcomponents c hc s hs
  · intro h
    refine ⟨fun s hs => h s (List.mem_append_left _ hs), fun c hc s hs => ?_⟩
    exact h s (List.mem_append_right _ (List.mem_flatMap.mpr ⟨c, hc, hs⟩))

end Items

/-- The text of a path is read as the path just if no name in it is an identifier that a line feed
follows. -/
theorem SearchPath.parse_text_iff (p : SearchPath)
    (hindex : ∀ c ∈ p.components, ∀ i : Nat, c.selector = .index i → Text.isWritable i) :
    parse p.text = .ok p ↔ ∀ s ∈ p.names, ¬LineFed s := by
  obtain ⟨ts, hsplits, hd⟩ := splitsInto_text p 0
  rw [← means_writtenOutline_iff hindex]
  constructor
  · intro h
    obtain ⟨us, d, hsplits', hd', hmeans⟩ := parse_sound h
    obtain rfl := hsplits.unique hsplits'
    obtain rfl := hd.unique hd'
    exact hmeans
  · intro hmeans
    exact parse_complete hsplits hd hmeans

/-- Names that a reader might take for something else, and none that a line feed spoils. -/
def Sample.path : SearchPath where
  annotations := ["", "a::b", "it's"]
  components :=
    [⟨.field "$ion_extractor_field", ["$ion_extractor_field"]⟩, ⟨.index 12, []⟩,
      ⟨.wildcard, ["a\nb"]⟩, ⟨.field "*", []⟩, ⟨.field "-7", ["(", "\\"]⟩, ⟨.field "é\n", []⟩]

theorem SearchPath.parse_text_iff_sample :
    ((∀ c ∈ Sample.path.components, ∀ i : Nat, c.selector = .index i → Text.isWritable i) ∧
      ∀ s ∈ Sample.path.names, ¬LineFed s) ∧
    parse Sample.path.text = .ok Sample.path := by
  have hindex : ∀ c ∈ Sample.path.components, ∀ i : Nat, c.selector = .index i →
      Text.isWritable i := by
    intro c hc i hi
    simp only [Sample.path, List.mem_cons, List.not_mem_nil, or_false] at hc
    rcases hc with rfl | rfl | rfl | rfl | rfl | rfl
    case inr.inl =>
      cases hi
      decide
    all_goals cases hi
  have hnames : ∀ s ∈ Sample.path.names, ¬LineFed s := by
    have hdecided : ∀ s ∈ Sample.path.names,
        ¬(s.toList.getLast? = some '\n' && isIdentifier s.toList.dropLast) = true := by
      decide
    exact fun s hs hfed => hdecided s hs (lineFed_iff.mp hfed)
  exact ⟨⟨hindex, hnames⟩, (parse_text_iff Sample.path hindex).mpr hnames⟩

end TreePaths
