import Mathlib.Algebra.GroupWithZero.Nat
import TreePaths.Yaml.Graph

/-!
Documents whose nodes do not hold themselves: each node has a rank above those of the nodes in it,
no rank is above the number of nodes, and functions may be given for a node by those of the nodes in
it.
-/

namespace TreePaths.Yaml

section Lists

variable {α β : Type} {f f' : α → Option β} {l : List α}

theorem mapM_eq_some {r : List β} : l.mapM f = some r ↔ l.map f = r.map some := by
  induction l generalizing r with
  | nil => cases r <;> simp
  | cons x xs ih =>
    rw [List.mapM_cons]
    cases r with
    | nil => cases f x <;> cases xs.mapM f <;> simp
    | cons y ys =>
      rw [List.map_cons, List.map_cons, List.cons.injEq, ← ih]
      cases f x <;> cases xs.mapM f <;> simp

theorem mapM_congr (h : ∀ x ∈ l, f x = f' x) : l.mapM f = l.mapM f' := by
  induction l with
  | nil => rfl
  | cons x xs ih =>
    rw [List.mapM_cons, List.mapM_cons, h x List.mem_cons_self,
      ih fun y hy => h y (List.mem_cons_of_mem x hy)]

theorem mapM_eq_none {x : α} (hx : x ∈ l) (h : f x = none) : l.mapM f = none := by
  cases hl : l.mapM f with
  | none => rfl
  | some r =>
    have hmem : f x ∈ r.map some := mapM_eq_some.1 hl ▸ List.mem_map_of_mem hx
    obtain ⟨y, -, hy⟩ := List.mem_map.1 hmem
    exact absurd (hy.trans h) nofun

end Lists

theorem countP_lt_countP {α : Type} {p q : α → Bool} {l : List α} {x : α} (hx : x ∈ l)
    (hpq : ∀ y ∈ l, p y = true → q y = true) (hp : p x = false) (hq : q x = true) :
    l.countP p < l.countP q := by
  induction l with
  | nil => cases hx
  | cons y ys ih =>
    have hrest : ys.countP p ≤ ys.countP q :=
      List.countP_mono_left fun z hz => hpq z (List.mem_cons_of_mem y hz)
    have hhead := hpq y List.mem_cons_self
    simp only [List.countP_cons]
    cases hx with
    | head =>
      rw [if_neg (by simp [hp]), if_pos hq]
      omega
    | tail _ htail =>
      have htail := ih htail fun z hz => hpq z (List.mem_cons_of_mem y hz)
      by_cases hy : p y = true
      · rw [if_pos hy, if_pos (hhead hy)]
        omega
      · rw [if_neg hy]
        split <;> omega

theorem countP_le_sum {α : Type} {p : α → Bool} {f : α → Nat} {l : List α}
    (h : ∀ x ∈ l, p x = true → 0 < f x) : l.countP p ≤ (l.map f).sum := by
  induction l with
  | nil => exact Nat.le_refl 0
  | cons x xs ih =>
    have hx := h x List.mem_cons_self
    have hxs := ih fun y hy => h y (List.mem_cons_of_mem x hy)
    rw [List.countP_cons, List.map_cons, List.sum_cons]
    split
    next hp =>
      have := hx hp
      omega
    next => omega

/-- How many of the first `size` numbers with some property have no higher rank. -/
def level (size : Nat) (p : Nat → Bool) (rank : Nat → Nat) (n : Nat) : Nat :=
  (List.range size).countP fun m => p m && decide (rank m ≤ rank n)

theorem level_le (size : Nat) (p : Nat → Bool) (rank : Nat → Nat) (n : Nat) :
    level size p rank n ≤ size := by
  have h := List.countP_le_length (l := List.range size)
    (p := fun m => p m && decide (rank m ≤ rank n))
  rwa [List.length_range] at h

theorem level_lt {size m n : Nat} {p : Nat → Bool} {rank : Nat → Nat} (hn : n < size)
    (hp : p n = true) (hrank : rank m < rank n) : level size p rank m < level size p rank n := by
  unfold level
  apply countP_lt_countP (List.mem_range.2 hn)
  · intro k _ hk
    simp only [Bool.and_eq_true, decide_eq_true_eq] at hk ⊢
    exact ⟨hk.1, by omega⟩
  · simp only [Bool.and_eq_false_iff, decide_eq_false_iff_not]
    omega
  · simp [hp]

/-- A function of which the values are made of those of others, as far as they are found in `fuel`
steps. -/
def unfolded {ι α : Type} (step : (ι → Option α) → ι → Option α) : Nat → ι → Option α
  | 0, _ => none
  | fuel + 1, i => step (unfolded step fuel) i

def Falls {ι α : Type} (rank : ι → Nat) (step : (ι → Option α) → ι → Option α) : Prop :=
  ∀ f f' i, (∀ j, rank j < rank i → f j = f' j) → step f i = step f' i

namespace Falls

variable {ι α : Type} {rank : ι → Nat} {step : (ι → Option α) → ι → Option α}

/-- As soon as there are more steps than the rank, their number does not matter. -/
theorem unfolded_stable (hstep : Falls rank step) {i : ι} :
    ∀ {k l : Nat}, rank i < k → rank i < l → unfolded step k i = unfolded step l i := by
  intro k
  induction k generalizing i with
  | zero => intro l hk; omega
  | succ k ih =>
    intro l hk hl
    cases l with
    | zero => omega
    | succ l =>
      show step (unfolded step k) i = step (unfolded step l) i
      apply hstep
      intro j hj
      exact ih (by omega) (by omega)

/-- Where ranks are low enough, the function is made of its own values. -/
theorem unfolded_eq (hstep : Falls rank step) {fuel : Nat} {i : ι} (h : rank i < fuel) :
    unfolded step fuel i = step (unfolded step fuel) i := by
  cases fuel with
  | zero => omega
  | succ fuel =>
    show step (unfolded step fuel) i = _
    apply hstep
    intro j hj
    exact hstep.unfolded_stable (by omega) (by omega)

end Falls

namespace Graph

def children (g : Graph) (n : NodeId) : List NodeId :=
  match g.content n with
  | .scalar .. => []
  | .sequence ns => ns
  | .mapping es => es.flatMap fun e => [e.1, e.2]

/-- A node that holds others is one of the graph. -/
theorem lt_size_of_mem_children {g : Graph} {n c : NodeId} (h : c ∈ g.children n) : n < g.size := by
  rcases Nat.lt_or_ge n g.size with hn | hn
  · exact hn
  · have hnode : g.node n = .missing := by
      rw [node, Array.getD_eq_getD_getElem?, Array.getElem?_eq_none hn]
      rfl
    rw [children, content, hnode] at h
    cases h

theorem mem_children_of_sequence {g : Graph} {n c : NodeId} {ns : List NodeId}
    (h : g.content n = .sequence ns) (hc : c ∈ ns) : c ∈ g.children n := by
  rw [children, h]
  exact hc

theorem mem_children_of_mapping {g : Graph} {n : NodeId} {es : List Entry} {e : Entry}
    (h : g.content n = .mapping es) (he : e ∈ es) :
    e.1 ∈ g.children n ∧ e.2 ∈ g.children n := by
  rw [children, h]
  exact ⟨List.mem_flatMap.2 ⟨e, he, by simp⟩, List.mem_flatMap.2 ⟨e, he, by simp⟩⟩

/-- A document as it is composed: its nodes are all there, and none holds itself. -/
structure IsDocument (g : Graph) (root : NodeId) : Prop where
  root_lt : root < g.size
  child_lt : ∀ n, ∀ c ∈ g.children n, c < g.size
  acyclic : ∃ rank : NodeId → Nat, ∀ n, ∀ c ∈ g.children n, rank c < rank n

structure Ranked (g : Graph) (rank : NodeId → Nat) : Prop where
  lt : ∀ n, ∀ c ∈ g.children n, rank c < rank n
  le : ∀ n, rank n ≤ g.size

theorem tag_of_size_le {g : Graph} {n : NodeId} (h : g.size ≤ n) : g.tag n = .null := by
  rw [tag, node, Array.getD_eq_getD_getElem?, Array.getElem?_eq_none h]
  rfl

/-- A graph whose nodes are all there, with falling ranks, is a document. -/
theorem isDocument_of_ranks {g : Graph} {root : NodeId} (rank : NodeId → Nat)
    (hroot : root < g.size)
    (h : ∀ n < g.size, ∀ c ∈ g.children n, c < g.size ∧ rank c < rank n) : g.IsDocument root where
  root_lt := hroot
  child_lt n c hc := (h n (lt_size_of_mem_children hc) c hc).1
  acyclic := ⟨rank, fun n c hc => (h n (lt_size_of_mem_children hc) c hc).2⟩

theorem IsDocument.exists_ranked {g : Graph} {root : NodeId} (h : g.IsDocument root) :
    ∃ rank, g.Ranked rank := by
  obtain ⟨rank, hrank⟩ := h.acyclic
  refine ⟨level g.size (fun _ => true) rank, ?_, fun n => level_le _ _ _ _⟩
  intro n c hc
  exact level_lt (lt_size_of_mem_children hc) rfl (hrank n c hc)

end Graph

end TreePaths.Yaml
