import Mathlib.Data.List.Flatten
import TreePaths.Proofs.Value.Trail

/-!
Sweeps over a document without a walk: the nodes in pre-order, and after a node at which containers
are left, on to the next node that is not in one of them.
-/

namespace TreePaths

def Trail.Under (u a : Trail) : Prop :=
  a.address <:+ u.address

instance (u a : Trail) : Decidable (u.Under a) :=
  inferInstanceAs (Decidable (_ <:+ _))

/-- The later nodes that are left when the callbacks at a node ask to leave `n` containers: those
that are not below its ancestor `n` levels up. -/
def Trail.leave (n : Nat) (u : Trail) (later : List Trail) : List Trail :=
  if n = 0 then later else later.filter fun w => ¬w.Under (u.drop n)

theorem Trail.length_leave_le (n : Nat) (u : Trail) (later : List Trail) :
    (u.leave n later).length ≤ later.length := by
  rw [leave]
  split
  · exact le_rfl
  · exact List.length_filter_le _ _

def greatest (counts : List Nat) : Nat :=
  counts.foldr max 0

theorem greatest_eq_zero {counts : List Nat} (h : ∀ n ∈ counts, n = 0) : greatest counts = 0 := by
  induction counts with
  | nil => rfl
  | cons n counts ih =>
    have hn := h n List.mem_cons_self
    have hrest := ih fun m hm => h m (List.mem_cons_of_mem _ hm)
    unfold greatest at hrest ⊢
    rw [List.foldr_cons, hrest, hn]
    rfl

/-- The calls on a row of nodes, if the callbacks answer with these counts one after another. At
each node the chosen callbacks are called; the greatest of their counts tells which later nodes are
skipped. -/
def sweep (chosen : Trail → List Nat) : List Trail → List Nat → List (Nat × Trail)
  | [], _ => []
  | u :: later, counts =>
    let here := chosen u
    here.map (·, u) ++
      sweep chosen (u.leave (greatest (counts.take here.length)) later) (counts.drop here.length)
termination_by nodes => nodes.length
decreasing_by exact Nat.lt_succ_of_le (u.length_leave_le _ later)

def sweepBy {α : Type} (choose : Trail → List α) (count : α → Trail → Nat) :
    List Trail → List (α × Trail)
  | [] => []
  | u :: later =>
    (choose u).map (·, u) ++
      sweepBy choose count (u.leave (greatest ((choose u).map (count · u))) later)
termination_by nodes => nodes.length
decreasing_by exact Nat.lt_succ_of_le (u.length_leave_le _ later)

theorem Trail.leave_sublist (n : Nat) (u : Trail) (later : List Trail) :
    (u.leave n later).Sublist later := by
  rw [leave]
  split
  · exact List.Sublist.refl later
  · exact List.filter_sublist

section Sweep

variable {choose : Trail → List Nat} {u t : Trail} {later rest : List Trail}
  {counts more : List Nat}

/-- A sweep begins with the calls at the first node and goes on over the later nodes that they do
not leave. -/
theorem sweep_cons (h : counts.length = (choose u).length) :
    sweep choose (u :: later) (counts ++ more) =
      (choose u).map (·, u) ++ sweep choose (u.leave (greatest counts) later) more := by
  rw [sweep, List.take_left' h, List.drop_left' h]

/-- If no container is ever left, no node is skipped. -/
theorem sweep_of_forall_zero {nodes : List Trail} (h : ∀ n ∈ counts, n = 0) :
    sweep choose nodes counts = nodes.flatMap fun u => (choose u).map (·, u) := by
  induction nodes generalizing counts with
  | nil => rw [sweep, List.flatMap_nil]
  | cons u later ih =>
    have hzero : greatest (counts.take (choose u).length) = 0 :=
      greatest_eq_zero fun n hn => h n (List.mem_of_mem_take hn)
    rw [sweep, hzero, Trail.leave, if_pos rfl, ih fun n hn => h n (List.mem_of_mem_drop hn),
      List.flatMap_cons]

/-- A sweep comes over nothing but the nodes. -/
theorem mem_of_mem_sweep {nodes : List Trail} {e : Nat × Trail}
    (h : e ∈ sweep choose nodes counts) : e.2 ∈ nodes := by
  fun_induction sweep choose nodes counts with
  | case1 => cases h
  | case2 u later counts here ih =>
    rcases List.mem_append.mp h with h | h
    · obtain ⟨i, -, rfl⟩ := List.mem_map.mp h
      exact List.mem_cons_self
    · exact List.mem_cons_of_mem u ((Trail.leave_sublist _ u later).subset (ih h))

/-- A sweep whose counts are those that labels tell. -/
theorem sweep_eq_sweepBy {α : Type} {label : Trail → List α} {count : α → Trail → Nat}
    {name : α → Nat} {nodes : List Trail} (answer : Nat → Trail → Nat)
    (hlabel : ∀ u, choose u = (label u).map name)
    (hanswer : ∀ u, ∀ a ∈ label u, answer (name a) u = count a u)
    (hcounts : counts = (sweep choose nodes counts).map fun e => answer e.1 e.2) :
    sweep choose nodes counts = (sweepBy label count nodes).map fun e => (name e.1, e.2) := by
  fun_induction sweep choose nodes counts with
  | case1 => rw [sweepBy, List.map_nil]
  | case2 u later counts here ih =>
    have hhere : here.map (answer · u) = (label u).map (count · u) := by
      rw [show here = (label u).map name from hlabel u, List.map_map]
      exact List.map_congr_left fun a ha => hanswer u a ha
    rw [List.map_append, List.map_map] at hcounts
    have htake : counts.take here.length = (label u).map (count · u) := by
      rw [hcounts, List.take_left' (List.length_map _)]
      exact hhere
    have hdrop := congrArg (List.drop here.length) hcounts
    rw [List.drop_left' (List.length_map _)] at hdrop
    have hlater := ih hdrop
    rw [htake] at hlater ⊢
    rw [sweepBy, List.map_append, hlater, List.map_map, show here = _ from hlabel u, List.map_map]
    rfl

/-- A sweep makes some of the calls that it makes if no container is ever left, in their order. -/
theorem sweep_sublist (nodes : List Trail) :
    (sweep choose nodes counts).Sublist (nodes.flatMap fun u => (choose u).map (·, u)) := by
  fun_induction sweep choose nodes counts with
  | case1 => exact List.nil_sublist _
  | case2 u later counts here ih =>
    rw [List.flatMap_cons]
    exact (ih.trans ((Trail.leave_sublist _ u later).flatMap _)).append_left _

theorem mem_of_mem_sweepBy {α : Type} {label : Trail → List α} {count : α → Trail → Nat}
    {nodes : List Trail} {e : α × Trail} (h : e ∈ sweepBy label count nodes) :
    e.1 ∈ label e.2 ∧ e.2 ∈ nodes := by
  fun_induction sweepBy label count nodes with
  | case1 => cases h
  | case2 u later ih =>
    rcases List.mem_append.mp h with h | h
    · obtain ⟨a, ha, rfl⟩ := List.mem_map.mp h
      exact ⟨ha, List.mem_cons_self⟩
    · obtain ⟨hlabel, hlater⟩ := ih h
      exact ⟨hlabel, List.mem_cons_of_mem u ((Trail.leave_sublist _ u later).subset hlater)⟩

/-- Labels may be told by others. -/
theorem sweepBy_map {α β : Type} {label : Trail → List α} (f : α → β) (count : β → Trail → Nat)
    (nodes : List Trail) : sweepBy (fun u => (label u).map f) count nodes =
      (sweepBy label (fun a => count (f a)) nodes).map fun e => (f e.1, e.2) := by
  fun_induction sweepBy label (fun a => count (f a)) nodes with
  | case1 => rw [sweepBy, List.map_nil]
  | case2 u later ih =>
    rw [sweepBy, List.map_append, ← ih, List.map_map, List.map_map, List.map_map]
    rfl

theorem sweep_append_of_not_chosen (h : ∀ u ∈ later, choose u = []) :
    sweep choose (later ++ rest) counts = sweep choose rest counts := by
  induction later with
  | nil => rfl
  | cons u later ih =>
    have hu := h u List.mem_cons_self
    have hstep : sweep choose (u :: (later ++ rest)) ([] ++ counts) = _ :=
      sweep_cons (by simp [hu])
    rw [List.nil_append, hu, List.map_nil, List.nil_append, greatest, List.foldr_nil, Trail.leave,
      if_pos rfl] at hstep
    rw [List.cons_append, hstep]
    exact ih fun w hw => h w (List.mem_cons_of_mem _ hw)

end Sweep

namespace Trail

variable {s : Step} {t u w : Trail} {i : Nat} {es : List (Position × Value)} {rest : List Trail}

theorem under_of_suffix (h : t <:+ u) : u.Under t := by
  obtain ⟨l, rfl⟩ := h
  exact ⟨l.map (·.ordinal), by simp [address]⟩

theorem Under.of_cons (h : w.Under (s :: t)) : w.Under t :=
  (List.suffix_cons s.ordinal _).trans h

theorem under_drop_of_mem_forest (h : w ∈ forest t i es) (n : Nat) : w.Under (t.drop n) := by
  obtain ⟨s, -, hs⟩ := suffix_of_mem_forest h
  exact under_of_suffix ((List.drop_suffix n t).trans ((List.suffix_cons s t).trans hs))

theorem not_under_of_mem_forest {p : Position} {v : Value} (h : w ∈ forest t (i + 1) es) :
    ¬w.Under (⟨i, p, v⟩ :: t) := by
  intro hu
  obtain ⟨s, hle, hs⟩ := suffix_of_mem_forest h
  have hlen : (address (⟨i, p, v⟩ :: t)).length = (address (s :: t)).length := by simp [address]
  have heq := (List.suffix_of_suffix_length_le hu (under_of_suffix hs) hlen.le).eq_of_length hlen
  have : i = s.ordinal := (List.cons.inj heq).1
  omega

/-- What comes after a node and all that is below it is not below it. -/
theorem not_under_of_later {p : Position} {v : Value} (hrest : ∀ w ∈ rest, ¬w.Under t) :
    ∀ w ∈ forest t (i + 1) es ++ rest, ¬w.Under (⟨i, p, v⟩ :: t) := by
  intro w hw
  rcases List.mem_append.mp hw with hw | hw
  · exact not_under_of_mem_forest hw
  · exact fun hu => hrest w hw hu.of_cons

theorem filter_append_of_under {nodes : List Trail} (h : ∀ w ∈ nodes, w.Under u) :
    (nodes ++ rest).filter (fun w => ¬w.Under u) = rest.filter fun w => ¬w.Under u := by
  rw [List.filter_append, List.filter_eq_nil_iff.mpr fun w hw => by simpa using h w hw,
    List.nil_append]

theorem filter_forest_append (n : Nat) :
    (forest t i es ++ rest).filter (fun w => ¬w.Under (t.drop n)) =
      rest.filter fun w => ¬w.Under (t.drop n) :=
  filter_append_of_under fun _ hw => under_drop_of_mem_forest hw n

theorem filter_not_under (h : ∀ w ∈ rest, ¬w.Under u) :
    rest.filter (fun w => ¬w.Under u) = rest :=
  List.filter_eq_self.mpr fun w hw => by simpa using h w hw

/-- Leaving containers at a child is leaving one less from the container that it is in. -/
theorem leave_cons {n : Nat} {later : List Trail} (h : n ≠ 0) :
    leave n (s :: t) later = later.filter fun w => ¬w.Under (t.drop (n - 1)) := by
  obtain ⟨m, rfl⟩ := Nat.exists_eq_add_one_of_ne_zero h
  rw [leave, if_neg h]
  rfl

end Trail

end TreePaths
