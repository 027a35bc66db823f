import TreePaths.Proofs.Value.Rendering
import TreePaths.Text.Fold

/-!
Documents with folded names and annotations: the same tree, in which case makes no difference.
-/

namespace TreePaths

namespace Value

mutual

/-- The document with its field names and annotations folded. Maps become structs, in which names
that have become equal remain apart. -/
def folded : Value → Value
  | annotated v as => annotated (folded v) (as.map Text.fold)
  | struct fs => struct (foldedFields fs)
  | map es => struct (foldedEntries es)
  | list xs => list (foldedAll xs)
  | tuple xs => tuple (foldedAll xs)
  | v => v

def foldedAll : List Value → List Value
  | [] => []
  | v :: vs => folded v :: foldedAll vs

def foldedFields : List (String × Value) → List (String × Value)
  | [] => []
  | (k, v) :: fs => (Text.fold k, folded v) :: foldedFields fs

def foldedEntries : List (Value × Value) → List (String × Value)
  | [] => []
  | (k, v) :: es => (Text.fold k.label, folded v) :: foldedEntries es

end

theorem foldedFields_eq (fs : List (String × Value)) :
    foldedFields fs = fs.map fun f => (Text.fold f.1, f.2.folded) := by
  induction fs with
  | nil => rfl
  | cons f fs ih => rw [foldedFields, ih, List.map_cons]

theorem foldedEntries_eq (es : List (Value × Value)) :
    foldedEntries es = es.map fun e => (Text.fold e.1.label, e.2.folded) := by
  induction es with
  | nil => rfl
  | cons e es ih => rw [foldedEntries, ih, List.map_cons]

theorem bare_folded (v : Value) : v.folded.bare = v.bare.folded := by
  fun_induction bare v with
  | case1 v as ih => exact ih
  | case2 v h => cases v <;> first | rfl | exact absurd rfl (h _ _)

theorem annotations_folded (v : Value) : v.folded.annotations = v.annotations.map Text.fold := by
  fun_induction annotations v with
  | case1 v as ih => rw [folded, annotations, ih, List.map_append]
  | case2 v h => cases v <;> first | rfl | exact absurd rfl (h _ _)

end Value

def Position.folded : Position → Position
  | name s => .name (Text.fold s)
  | index i => .index i

namespace Value

theorem indexed_folded (n : Nat) (xs : List Value) :
    indexed n (foldedAll xs) = (indexed n xs).map fun e => (e.1.folded, e.2.folded) := by
  induction xs generalizing n with
  | nil => rfl
  | cons v vs ih => rw [foldedAll, indexed, ih, indexed, List.map_cons, Position.folded]

theorem children_folded (v : Value) :
    v.folded.children = v.children.map fun e => (e.1.folded, e.2.folded) := by
  cases v with
  | list xs => exact indexed_folded 0 xs
  | tuple xs => exact indexed_folded 0 xs
  | struct fs =>
    rw [folded, children, children, foldedFields_eq, List.map_map, List.map_map]
    rfl
  | map es =>
    rw [folded, children, children, foldedEntries_eq, List.map_map, List.map_map]
    rfl
  | _ => rfl

mutual

theorem isFinite_folded (v : Value) (h : v.isFinite) : v.folded.isFinite := by
  cases v with
  | annotated v as => exact isFinite_folded v h
  | list xs =>
    rw [isFinite_list] at h
    rw [folded, isFinite_list]
    exact isFinite_foldedAll xs h
  | tuple xs =>
    rw [isFinite_tuple] at h
    rw [folded, isFinite_tuple]
    exact isFinite_foldedAll xs h
  | struct fs =>
    rw [isFinite_struct] at h
    rw [folded, isFinite_struct]
    exact isFinite_foldedFields fs h
  | map es =>
    rw [isFinite_map] at h
    rw [folded, isFinite_struct]
    exact isFinite_foldedEntries es h
  | _ => exact h

theorem isFinite_foldedAll (xs : List Value) (h : xs.all isFinite) :
    (foldedAll xs).all isFinite := by
  cases xs with
  | nil => rfl
  | cons v vs =>
    rw [List.all_cons, Bool.and_eq_true] at h
    rw [foldedAll, List.all_cons, Bool.and_eq_true]
    exact ⟨isFinite_folded v h.1, isFinite_foldedAll vs h.2⟩

theorem isFinite_foldedFields (fs : List (String × Value)) (h : fs.all fun f => f.2.isFinite) :
    (foldedFields fs).all fun f => f.2.isFinite := by
  cases fs with
  | nil => rfl
  | cons f fs =>
    obtain ⟨k, v⟩ := f
    rw [List.all_cons, Bool.and_eq_true] at h
    rw [foldedFields, List.all_cons, Bool.and_eq_true]
    exact ⟨isFinite_folded v h.1, isFinite_foldedFields fs h.2⟩

theorem isFinite_foldedEntries (es : List (Value × Value))
    (h : es.all fun e => e.1.isFinite && e.2.isFinite) :
    (foldedEntries es).all fun f => f.2.isFinite := by
  cases es with
  | nil => rfl
  | cons e es =>
    obtain ⟨k, v⟩ := e
    rw [List.all_cons, Bool.and_eq_true, Bool.and_eq_true] at h
    rw [foldedEntries, List.all_cons, Bool.and_eq_true]
    exact ⟨isFinite_folded v h.1.2, isFinite_foldedEntries es h.2⟩

end

theorem isContainer_folded (v : Value) : v.folded.isContainer = v.isContainer := by
  cases v <;> rfl

end Value

def Rendering.folded : Rendering where
  position := Position.folded
  value := Value.folded
  children v := by rw [Value.bare_folded, Value.children_folded]
  isContainer v := by rw [Value.bare_folded, Value.isContainer_folded]
  isFinite := Value.isFinite_folded

end TreePaths
