import Mathlib.Data.List.Nodup
import TreePaths.Value.Key
import TreePaths.Value.Tree

/-!
Plain data: the fields of its maps have different names, each in its first place with its last
value.
-/

namespace TreePaths

namespace Value

theorem plainAll_eq (vs : List Value) : plainAll vs = vs.map plain := by
  induction vs with
  | nil => rfl
  | cons v vs ih => rw [plainAll, ih, List.map_cons]

theorem plainFields_eq (fs : List (String × Value)) :
    plainFields fs = fs.map fun f => (f.1, f.2.plain) := by
  induction fs with
  | nil => rfl
  | cons f fs ih => rw [plainFields, ih, List.map_cons]

theorem plainEntries_eq (es : List (Value × Value)) :
    plainEntries es = es.map fun e => (e.1.label, e.2.plain) := by
  induction es with
  | nil => rfl
  | cons e es ih => rw [plainEntries, ih, List.map_cons]

theorem setField_eq_insertBy (name : String) (v : Value) (fs : List (String × Value)) :
    setField name v fs = insertBy (fun n m => n = m) name v fs := by
  induction fs with
  | nil => rfl
  | cons f fs ih => simp only [setField, insertBy, ih, decide_eq_true_eq]

theorem setField_of_not_mem {name : String} {v : Value} {fs : List (String × Value)}
    (h : name ∉ fs.map (·.1)) : setField name v fs = fs ++ [(name, v)] := by
  induction fs with
  | nil => rfl
  | cons f fs ih =>
    rw [List.map_cons, List.mem_cons, not_or] at h
    rw [setField, if_neg (Ne.symm h.1), ih h.2, List.cons_append]

/-- Fields of different names all stay. -/
theorem lastFields_of_nodup {fs : List (String × Value)} (h : (fs.map (·.1)).Nodup) :
    lastFields fs = fs := by
  have hfold (done : List (String × Value)) (hdone : ((done ++ fs).map (·.1)).Nodup) :
      fs.foldl (fun acc f => setField f.1 f.2 acc) done = done ++ fs := by
    induction fs generalizing done with
    | nil => rw [List.foldl_nil, List.append_nil]
    | cons f fs ih =>
      have hf : f.1 ∉ done.map (·.1) := by
        rw [List.map_append, List.map_cons] at hdone
        exact fun hmem => (List.nodup_append.mp hdone).2.2 _ hmem _ List.mem_cons_self rfl
      rw [List.map_cons] at h
      rw [List.append_cons] at hdone
      rw [List.foldl_cons, setField_of_not_mem hf, ih (List.nodup_cons.mp h).2 _ hdone,
        List.append_assoc, List.singleton_append]
  exact hfold [] h

theorem ofFields_of_nodup {fs : List (String × Value)} (h : (fs.map (·.1)).Nodup) :
    ofFields fs = record fs := by
  rw [ofFields, lastFields_of_nodup h]
  rfl

theorem names_setField (name : String) (v : Value) (fs : List (String × Value)) :
    (setField name v fs).map (·.1) =
      if name ∈ fs.map (·.1) then fs.map (·.1) else fs.map (·.1) ++ [name] := by
  induction fs with
  | nil => rfl
  | cons f fs ih =>
    unfold setField
    by_cases h : f.1 = name
    · rw [if_pos h, List.map_cons, List.map_cons, if_pos (h ▸ List.mem_cons_self)]
    · rw [if_neg h, List.map_cons, List.map_cons, ih]
      by_cases hmem : name ∈ fs.map (·.1)
      · rw [if_pos hmem, if_pos (List.mem_cons_of_mem _ hmem)]
      · rw [if_neg hmem, if_neg (by simpa [Ne.symm h] using hmem), List.cons_append]

theorem nodup_setField {name : String} {v : Value} {fs : List (String × Value)}
    (h : (fs.map (·.1)).Nodup) : ((setField name v fs).map (·.1)).Nodup := by
  rw [names_setField]
  split
  · exact h
  · rename_i hmem
    exact List.nodup_append.2 ⟨h, List.nodup_singleton name, fun a ha b hb hab =>
      hmem (List.mem_singleton.1 hb ▸ hab ▸ ha)⟩

theorem nodup_lastFields (fs : List (String × Value)) : ((lastFields fs).map (·.1)).Nodup := by
  have hfold : ∀ done : List (String × Value), (done.map (·.1)).Nodup →
      ((fs.foldl (fun acc f => setField f.1 f.2 acc) done).map (·.1)).Nodup := by
    induction fs with
    | nil => exact fun done h => h
    | cons f fs ih => exact fun done h => ih _ (nodup_setField h)
  exact hfold [] List.nodup_nil

theorem lastFields_lastFields (fs : List (String × Value)) :
    lastFields (lastFields fs) = lastFields fs :=
  lastFields_of_nodup (nodup_lastFields fs)

end Value

end TreePaths
