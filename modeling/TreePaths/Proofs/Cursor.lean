import TreePaths.Cursor
import TreePaths.Proofs.Value.Trail

/-!
Where a cursor stands when it has followed a trail, and how its moves lead from there to the next
node.
-/

namespace TreePaths.Cursor

/-- The cursor in the container `v` on which `c` stands, after it has come to `n` of the children
there. -/
def inside (c : Cursor) (v : Value) (n : Nat) : Cursor :=
  ⟨{ Frame.opened v.bare with reached := n }, c.frame :: c.outer⟩

/-- The cursor on the node at the end of a trail from `root`, on which `c` stands. -/
def along (c : Cursor) (root : Value) : Trail → Cursor
  | [] => c
  | s :: t => (c.along root t).inside (Trail.value root t) (s.ordinal + 1)

variable {c : Cursor} {v : Value} {n : Nat} {e : Position × Value}

@[simp] theorem outer_inside : (c.inside v n).outer = c.frame :: c.outer := rfl

@[simp] theorem depth_inside : (c.inside v n).depth = c.depth + 1 := rfl

theorem depth_along (c : Cursor) (root : Value) (t : Trail) :
    (c.along root t).depth = c.depth + t.length := by
  induction t with
  | nil => rfl
  | cons s t ih => simp [along, ih, Nat.add_assoc]

@[simp] theorem entries_length_opened (v : Value) :
    (Frame.opened v).entries.length = v.children.length := by
  simp [Frame.opened]

theorem next_inside (h : v.bare.children[n]? = some e) :
    (c.inside v n).next = c.inside v (n + 1) := by
  obtain ⟨hn, -⟩ := List.getElem?_eq_some_iff.mp h
  simp only [inside, next, Frame.advanced, entries_length_opened]
  congr 2
  omega

theorem next_inside_last (h : v.bare.children.length ≤ n) :
    (c.inside v n).next.isInside = false := by
  simp only [inside, next, Frame.advanced, isInside, entries_length_opened]
  simp
  omega

theorem isInside_inside (h : v.bare.children[n]? = some e) : (c.inside v (n + 1)).isInside := by
  obtain ⟨hn, -⟩ := List.getElem?_eq_some_iff.mp h
  simpa [inside, isInside] using Nat.succ_le_of_lt hn

theorem frame_current?_inside (h : v.bare.children[n]? = some e) :
    (c.inside v (n + 1)).frame.current? = some (some e.1, e.2) := by
  simp [inside, Frame.current?, Frame.opened, h]

theorem current?_inside (h : v.bare.children[n]? = some e) :
    (c.inside v (n + 1)).current? = some e.2 := by
  rw [current?, frame_current?_inside h, Option.map_some]

theorem position_inside (h : v.bare.children[n]? = some e) :
    (c.inside v (n + 1)).position = some e.1 := by
  rw [position, frame_current?_inside h, Option.bind_some]

theorem location_inside (h : v.bare.children[n]? = some e) :
    (c.inside v (n + 1)).location = c.location ++ [e.1] := by
  have hframes : (c.inside v (n + 1)).frames.drop 1 =
      c.frames.drop 1 ++ [(c.inside v (n + 1)).frame] := by
    rw [frames, outer_inside, List.reverse_cons, List.drop_append_of_le_length (by simp)]
    rfl
  have hlast : (c.inside v (n + 1)).frame.current?.bind (·.1) = some e.1 := by
    rw [frame_current?_inside h, Option.bind_some]
  rw [location, hframes, List.filterMap_append]
  exact congrArg (c.location ++ ·)
    (List.filterMap_cons_some (f := fun f : Frame => f.current?.bind (·.1)) hlast)

theorem annotations_of_current? (h : c.current? = some v) : c.annotations = v.annotations := by
  rw [annotations, h, Option.map_some, Option.getD_some]

theorem isContainer_of_current? (h : c.current? = some v) : c.isContainer = v.bare.isContainer := by
  rw [isContainer, h, Option.map_some, Option.getD_some]

theorem value_of_current? (h : c.current? = some v) (hv : v.isFinite) : c.value = .ok v.plain := by
  rw [value, h]
  exact if_pos hv

theorem stepIn_of_current? (h : c.current? = some v) (hv : v.bare.isContainer)
    (hf : v.isFinite) : c.stepIn = .ok (c.inside v 0) := by
  have hne := Value.bare_ne_endless hf
  rw [stepIn, h]
  dsimp only
  split
  next m hm => exact absurd hm (hne m)
  next => rw [if_pos hv]; rfl

theorem outer_of_stepIn {d : Cursor} (h : c.stepIn = .ok d) : d.outer = c.frame :: c.outer := by
  rw [stepIn] at h
  split at h
  · cases h
  · split at h
    · cases h
    · split at h
      · cases h; rfl
      · cases h

theorem depth_of_stepIn {d : Cursor} (h : c.stepIn = .ok d) : d.depth = c.depth + 1 := by
  rw [depth, outer_of_stepIn h]
  rfl

theorem stepOut_of_outer {d : Cursor} (h : d.outer = c.frame :: c.outer) : d.stepOut = .ok c := by
  rw [stepOut, h]

theorem depth_of_stepOut {d : Cursor} (h : c.stepOut = .ok d) : c.depth = d.depth + 1 := by
  cases ho : c.outer with
  | nil =>
    rw [stepOut, ho] at h
    cases h
  | cons f fs =>
    rw [stepOut, ho] at h
    cases h
    rw [depth, ho]
    rfl

/-- Out of the container that was entered, however far the cursor has gone on in it. -/
theorem stepOut_of_stepIn {d e : Cursor} (hin : c.stepIn = .ok d) (houter : e.outer = d.outer) :
    e.stepOut = .ok c :=
  stepOut_of_outer (houter.trans (outer_of_stepIn hin))

theorem current?_along {root : Value} {t : Trail} (h : c.current? = some root)
    (ht : t.Leads root) : (c.along root t).current? = some (t.value root) := by
  cases t with
  | nil => exact h
  | cons s t => exact current?_inside ht.2

theorem location_along {root : Value} {t : Trail} (ht : t.Leads root) :
    (c.along root t).location = c.location ++ (t.map (·.position)).reverse := by
  induction t with
  | nil => exact (List.append_nil _).symm
  | cons s t ih =>
    rw [along, location_inside ht.2, ih ht.1, List.map_cons, List.reverse_cons, List.append_assoc]

end TreePaths.Cursor
