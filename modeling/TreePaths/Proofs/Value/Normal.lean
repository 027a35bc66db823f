import Mathlib.Data.List.Induction
import TreePaths.Proofs.Value.Plain

/-!
Plain data as a normal form. Making a value plain drops its annotations and tells maps from structs
and tuples from lists no more, at every depth, and once plain it stays as it is. A name that repeats
keeps its first place and its last value.
-/

namespace TreePaths

namespace Value

def childNames (v : Value) : List String :=
  v.children.filterMap fun c =>
    match c.1 with
    | .name n => some n
    | .index _ => none

def childrenNamed (name : String) (v : Value) : List Value :=
  (v.children.filter (·.1 = .name name)).map (·.2)

def isNamed : Value → Bool
  | struct _ | map _ => true
  | _ => false

/-- Values that become each other when annotations come or go, maps become structs and tuples
become lists, at any place that the containers lead to. -/
inductive Alike : Value → Value → Prop where
  | refl (v : Value) : Alike v v
  | symm {v w : Value} : Alike v w → Alike w v
  | trans {u v w : Value} : Alike u v → Alike v w → Alike u w
  | annotated (v : Value) (as : List String) : Alike (annotated v as) v
  | map (es : List (Value × Value)) : Alike (map es) (struct (es.map fun e => (e.1.label, e.2)))
  | tuple (xs : List Value) : Alike (tuple xs) (list xs)
  | inList (front back : List Value) {v w : Value} :
      Alike v w → Alike (list (front ++ v :: back)) (list (front ++ w :: back))
  | inTuple (front back : List Value) {v w : Value} :
      Alike v w → Alike (.tuple (front ++ v :: back)) (.tuple (front ++ w :: back))
  | inStruct (front back : List (String × Value)) (name : String) {v w : Value} :
      Alike v w → Alike (struct (front ++ (name, v) :: back)) (struct (front ++ (name, w) :: back))
  | inMap (front back : List (Value × Value)) (key : Value) {v w : Value} :
      Alike v w → Alike (.map (front ++ (key, v) :: back)) (.map (front ++ (key, w) :: back))

theorem plain_struct (fs : List (String × Value)) :
    (struct fs).plain = ofFields (fs.map fun f => (f.1, f.2.plain)) := by
  simp [plain, plainFields_eq]

theorem plain_map (es : List (Value × Value)) :
    (map es).plain = ofFields (es.map fun e => (e.1.label, e.2.plain)) := by
  simp [plain, plainEntries_eq]

theorem plain_bare (v : Value) : v.bare.plain = v.plain := by
  induction v using bare.induct with
  | case1 v as ih => simpa [bare, plain] using ih
  | case2 v h => simp [bare]

/-- Values that differ in such ways are the same plain data. -/
theorem Alike.plain_eq {v w : Value} (h : Alike v w) : v.plain = w.plain := by
  induction h with
  | refl v => rfl
  | symm _ ih => exact ih.symm
  | trans _ _ ih₁ ih₂ => exact ih₁.trans ih₂
  | annotated v as => simp [plain]
  | map es => simp [plain_map, plain_struct, Function.comp_def]
  | tuple xs => simp [plain]
  | inList front back _ ih => simp [plain, plainAll_eq, ih]
  | inTuple front back _ ih => simp [plain, plainAll_eq, ih]
  | inStruct front back name _ ih => simp [plain_struct, ih]
  | inMap front back key _ ih => simp [plain_map, ih]

section lastFields

variable {fs : List (String × Value)} {name : String} {v : Value}

theorem lastFields_concat (fs : List (String × Value)) (f : String × Value) :
    lastFields (fs ++ [f]) = setField f.1 f.2 (lastFields fs) := by
  simp [lastFields]

theorem names_lastFields (fs : List (String × Value)) :
    (lastFields fs).map (·.1) = (fs.map (·.1)).eraseDups := by
  induction fs using List.reverseRecOn with
  | nil => rfl
  | append_singleton fs f ih =>
    rw [lastFields_concat, names_setField, ih, List.map_append, List.eraseDups_append]
    by_cases hf : f.1 ∈ fs.map (·.1)
    · simp [hf, List.removeAll]
    · simp [hf, List.removeAll, List.eraseDups_cons]

theorem mem_setField {n : String} {w : Value} (h : (fs.map (·.1)).Nodup) :
    (n, w) ∈ setField name v fs ↔ if n = name then w = v else (n, w) ∈ fs := by
  induction fs with
  | nil => by_cases hn : n = name <;> simp [setField, hn]
  | cons f fs ih =>
    obtain ⟨hf, hfs⟩ := List.nodup_cons.mp h
    have hout (u : Value) : (f.1, u) ∉ fs := fun hu => hf (List.mem_map.mpr ⟨_, hu, rfl⟩)
    unfold setField
    by_cases hfn : f.1 = name
    · grind
    · grind

/-- A name stands for its last value. -/
theorem mem_lastFields :
    (name, v) ∈ lastFields fs ↔ ((fs.filter (·.1 = name)).map (·.2)).getLast? = some v := by
  induction fs using List.reverseRecOn with
  | nil => simp [lastFields]
  | append_singleton fs f ih =>
    rw [lastFields_concat, mem_setField (nodup_lastFields fs), ih]
    by_cases hf : f.1 = name
    · simp [hf, eq_comm]
    · simp [hf, Ne.symm hf]

/-- Changing every value in the same way commutes with the choice of the last ones. -/
theorem lastFields_map (g : Value → Value) (fs : List (String × Value)) :
    lastFields (fs.map fun f => (f.1, g f.2)) = (lastFields fs).map fun f => (f.1, g f.2) := by
  have hset (n : String) (w : Value) (fs : List (String × Value)) :
      setField n (g w) (fs.map fun f => (f.1, g f.2)) =
        (setField n w fs).map fun f => (f.1, g f.2) := by
    induction fs with
    | nil => rfl
    | cons f fs ih => by_cases hf : f.1 = n <;> simp [setField, hf, ih]
  induction fs using List.reverseRecOn with
  | nil => rfl
  | append_singleton fs f ih =>
    rw [List.map_append, List.map_singleton, lastFields_concat, ih, hset, lastFields_concat]

end lastFields

theorem plain_ofFields (fs : List (String × Value)) :
    (ofFields fs).plain = ofFields (fs.map fun f => (f.1, f.2.plain)) := by
  calc (ofFields fs).plain
      = ofFields ((lastFields fs).map fun f => (f.1, f.2.plain)) := by
        simp [ofFields, plain_map, label, Function.comp_def]
    _ = ofFields (lastFields (fs.map fun f => (f.1, f.2.plain))) := by rw [lastFields_map]
    _ = ofFields (fs.map fun f => (f.1, f.2.plain)) := by
        rw [ofFields, lastFields_lastFields, ← ofFields]

mutual

theorem plain_plain (v : Value) : v.plain.plain = v.plain := by
  cases v with
  | annotated v as => exact plain_plain v
  | struct fs => rw [plain, plain_ofFields, plain_plainFields fs]
  | map es => rw [plain, plain_ofFields, plain_plainEntries es]
  | list xs => rw [plain, plain, plainAll_eq (plainAll xs), plain_plainAll xs]
  | tuple xs => rw [plain, plain, plainAll_eq (plainAll xs), plain_plainAll xs]
  | _ => rfl

theorem plain_plainAll (xs : List Value) : (plainAll xs).map plain = plainAll xs := by
  cases xs with
  | nil => rfl
  | cons v vs => rw [plainAll, List.map_cons, plain_plain v, plain_plainAll vs]

theorem plain_plainFields (fs : List (String × Value)) :
    ((plainFields fs).map fun f => (f.1, f.2.plain)) = plainFields fs := by
  cases fs with
  | nil => rfl
  | cons f fs => rw [plainFields, List.map_cons, plain_plain f.2, plain_plainFields fs]

theorem plain_plainEntries (es : List (Value × Value)) :
    ((plainEntries es).map fun f => (f.1, f.2.plain)) = plainEntries es := by
  cases es with
  | nil => rfl
  | cons e es => rw [plainEntries, List.map_cons, plain_plain e.2, plain_plainEntries es]

end

/-- The fields of a struct, or those that a map stands for. -/
theorem exists_fields {v : Value} (h : v.isNamed) :
    ∃ fs : List (String × Value), v.children = fs.map (fun f => (.name f.1, f.2)) ∧
      v.plain = ofFields (fs.map fun f => (f.1, f.2.plain)) := by
  cases v with
  | struct fs => exact ⟨fs, rfl, plain_struct fs⟩
  | map es =>
    exact ⟨es.map fun e => (e.1.label, e.2), by simp [children],
      by simp [plain_map, Function.comp_def]⟩
  | _ => cases h

/-- Where children have names, plain data holds each name once, in the order of the first
occurrences, with its last value. -/
theorem plain_of_isNamed {v : Value} (h : v.bare.isNamed) :
    ∃ fields : List (String × Value), v.plain = record fields ∧
      fields.map (·.1) = v.bare.childNames.eraseDups ∧
      ∀ f ∈ fields, (v.bare.childrenNamed f.1).getLast?.map plain = some f.2 := by
  obtain ⟨fs, hchildren, hplain⟩ := exists_fields h
  refine ⟨lastFields (fs.map fun f => (f.1, f.2.plain)), ?_, ?_, fun f hf => ?_⟩
  · rw [← plain_bare, hplain]
    rfl
  · simp [names_lastFields, childNames, hchildren, List.filterMap_map, Function.comp_def]
  · rw [mem_lastFields] at hf
    rw [childrenNamed, hchildren]
    simpa [List.filter_map, Function.comp_def] using hf

/-- Plain data is a normal form. It is plain already, it is the same for values that differ in
annotations and in the kinds of their containers only, and what comes out of a struct or a map has
the names of the children in the order of their first occurrence, each with the last child. -/
theorem plain_canonical (v : Value) :
    v.plain.plain = v.plain ∧ (∀ w, Alike v w → w.plain = v.plain) ∧
      (v.bare.isNamed → ∃ fields : List (String × Value), v.plain = record fields ∧
        fields.map (·.1) = v.bare.childNames.eraseDups ∧
        ∀ f ∈ fields, (v.bare.childrenNamed f.1).getLast?.map plain = some f.2) := by
  refine ⟨plain_plain v, fun w h => ?_, plain_of_isNamed⟩
  exact h.plain_eq.symm

/-- A struct in which a name repeats, with and without an annotation on the first of its values. -/
theorem plain_canonical_sample :
    let v := struct [("a", annotated (int 1) ["x"]), ("b", tuple [int 2]), ("a", int 3)]
    let w := struct [("a", int 1), ("b", tuple [int 2]), ("a", int 3)]
    Alike v w ∧ w.plain = v.plain ∧ v.bare.isNamed ∧ ∃ fields : List (String × Value),
      v.plain = record fields ∧ fields.map (·.1) = ["a", "b"] := by
  have hin := Alike.inStruct [] [("b", tuple [int 2]), ("a", int 3)] "a" (.annotated (int 1) ["x"])
  obtain ⟨-, halike, hnamed⟩ := plain_canonical
    (struct [("a", annotated (int 1) ["x"]), ("b", tuple [int 2]), ("a", int 3)])
  obtain ⟨fields, hplain, hnames, -⟩ := hnamed rfl
  exact ⟨hin, halike _ hin, rfl, fields, hplain, hnames⟩

end Value

end TreePaths
