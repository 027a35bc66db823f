import Mathlib.Data.List.Infix
import Mathlib.Tactic.Common
import TreePaths.Value.Tree

/-!
The nodes of a document in pre-order. A node is told by the way that leads to it from the root, one
child after the other; two children of one name are two nodes.
-/

namespace TreePaths

namespace Value

theorem allItems_eq (p : Value → Bool) (xs : List Value) : allItems p xs = xs.all (all p) := by
  induction xs with
  | nil => rfl
  | cons v vs ih => simp [allItems, ih]

theorem allFields_eq (p : Value → Bool) (fs : List (String × Value)) :
    allFields p fs = fs.all fun f => all p f.2 := by
  induction fs with
  | nil => rfl
  | cons f fs ih => simp [allFields, ih]

theorem allEntries_eq (p : Value → Bool) (es : List (Value × Value)) :
    allEntries p es = es.all fun e => all p e.1 && all p e.2 := by
  induction es with
  | nil => rfl
  | cons e es ih => simp [allEntries, ih]

theorem isFinite_list (xs : List Value) : (list xs).isFinite = xs.all isFinite :=
  allItems_eq _ xs

theorem isFinite_tuple (xs : List Value) : (tuple xs).isFinite = xs.all isFinite :=
  allItems_eq _ xs

theorem isFinite_struct (fs : List (String × Value)) :
    (struct fs).isFinite = fs.all fun f => f.2.isFinite :=
  allFields_eq _ fs

theorem isFinite_map (es : List (Value × Value)) :
    (map es).isFinite = es.all fun e => e.1.isFinite && e.2.isFinite :=
  allEntries_eq _ es

theorem snd_mem_of_mem_indexed {xs : List Value} {n : Nat} {e : Position × Value}
    (h : e ∈ indexed n xs) : e.2 ∈ xs := by
  induction xs generalizing n with
  | nil => simp [indexed] at h
  | cons v vs ih =>
    rcases List.mem_cons.mp h with rfl | h
    · exact List.mem_cons_self
    · exact List.mem_cons_of_mem _ (ih h)

theorem all_of_mem_children {p : Value → Bool} {v : Value} (h : v.all p)
    {e : Position × Value} (he : e ∈ v.bare.children) : e.2.all p := by
  fun_induction bare v with
  | case1 v as ih =>
    simp only [all, Bool.and_eq_true] at h
    exact ih h.2 he
  | case2 v =>
    cases v with
    | list xs =>
      simp only [all, allItems_eq, Bool.and_eq_true, List.all_eq_true] at h
      exact h.2 _ (snd_mem_of_mem_indexed he)
    | tuple xs =>
      simp only [all, allItems_eq, Bool.and_eq_true, List.all_eq_true] at h
      exact h.2 _ (snd_mem_of_mem_indexed he)
    | struct fs =>
      simp only [all, allFields_eq, Bool.and_eq_true, List.all_eq_true] at h
      obtain ⟨f, hf, rfl⟩ := List.mem_map.mp he
      exact h.2 f hf
    | map es =>
      simp only [all, allEntries_eq, Bool.and_eq_true, List.all_eq_true] at h
      obtain ⟨f, hf, rfl⟩ := List.mem_map.mp he
      exact (h.2 f hf).2
    | _ => simp [children] at he

theorem isFinite_of_mem_children {v : Value} (h : v.isFinite) {e : Position × Value}
    (he : e ∈ v.bare.children) : e.2.isFinite :=
  all_of_mem_children h he

theorem bare_ne_endless {v : Value} (h : v.isFinite) (mark : String) : v.bare ≠ endless mark := by
  fun_induction bare v with
  | case1 v as ih =>
    simp only [isFinite, all, Bool.and_eq_true] at h
    exact ih h.2
  | case2 v =>
    rintro rfl
    simp [isFinite, all] at h

theorem children_of_not_isContainer {v : Value} (h : v.isContainer = false) : v.children = [] := by
  cases v <;> simp_all [isContainer, children]

def weight (es : List (Position × Value)) : Nat :=
  es.foldr (fun e n => e.2.nodes + n) 0

@[simp] theorem weight_nil : weight [] = 0 := rfl

@[simp] theorem weight_cons (e : Position × Value) (es : List (Position × Value)) :
    weight (e :: es) = e.2.nodes + weight es := rfl

theorem weight_indexed (n : Nat) (xs : List Value) : weight (indexed n xs) = nodesOfAll xs := by
  induction xs generalizing n with
  | nil => rfl
  | cons v vs ih => simp [indexed, nodesOfAll, ih]

theorem weight_fields (fs : List (String × Value)) :
    weight (fs.map fun f => (.name f.1, f.2)) = nodesOfFields fs := by
  induction fs with
  | nil => rfl
  | cons f fs ih => simp [nodesOfFields, ih]

theorem weight_entries (es : List (Value × Value)) :
    weight (es.map fun e => (.name e.1.label, e.2)) = nodesOfEntries es := by
  induction es with
  | nil => rfl
  | cons e es ih => simp [nodesOfEntries, ih]

theorem weight_children_lt (v : Value) : weight v.bare.children < v.nodes := by
  fun_induction bare v with
  | case1 v as ih => simp only [nodes]; omega
  | case2 v =>
    cases v <;> simp [children, nodes, weight_indexed, weight_fields, weight_entries]

end Value

structure Step where
  ordinal : Nat
  position : Position
  value : Value

/-- The steps from a value down to one of its nodes, the last one first. -/
abbrev Trail := List Step

namespace Trail

def address (t : Trail) : List Nat :=
  t.map (·.ordinal)

def value (root : Value) : Trail → Value
  | [] => root
  | s :: _ => s.value

/-- Every step of the trail goes to a child that is there. -/
def Leads (root : Value) : Trail → Prop
  | [] => True
  | s :: t =>
    Leads root t ∧ (value root t).bare.children[s.ordinal]? = some (s.position, s.value)

/-- The nodes below the end of a trail in pre-order, if these are the children there from the `i`-th
one on. -/
def forest (t : Trail) (i : Nat) : List (Position × Value) → List Trail
  | [] => []
  | (p, v) :: es =>
    (⟨i, p, v⟩ :: t) :: (forest (⟨i, p, v⟩ :: t) 0 v.bare.children ++ forest t (i + 1) es)
termination_by es => Value.weight es
decreasing_by
  · have := Value.weight_children_lt v
    simp only [Value.weight_cons]
    omega
  · have := Value.weight_children_lt v
    simp only [Value.weight_cons]
    omega

variable {root : Value} {t u : Trail}

theorem Leads.of_suffix (h : t <:+ u) (hu : Leads root u) : Leads root t := by
  induction u with
  | nil => simp_all
  | cons s u ih =>
    rcases List.suffix_cons_iff.mp h with rfl | h
    · exact hu
    · exact ih h hu.1

theorem Leads.isFinite (hroot : root.isFinite) (ht : Leads root t) : (t.value root).isFinite := by
  induction t with
  | nil => exact hroot
  | cons s t ih => exact Value.isFinite_of_mem_children (ih ht.1) (List.mem_of_getElem? ht.2)

/-- The first of the children that are left stands at their offset. -/
theorem getElem?_of_drop {α : Type} {l es : List α} {i : Nat} {e : α}
    (h : l.drop i = e :: es) : l[i]? = some e ∧ l.drop (i + 1) = es := by
  refine ⟨?_, by rw [← List.tail_drop, h, List.tail_cons]⟩
  rw [← List.head?_drop, h, List.head?_cons]

theorem eq_or_cons_suffix {α : Type} {l m : List α} (h : l <:+ m) :
    m = l ∨ ∃ a, a :: l <:+ m := by
  obtain ⟨w, rfl⟩ := h
  rcases List.eq_nil_or_concat w with rfl | ⟨w, a, rfl⟩
  · exact .inl rfl
  · exact .inr ⟨a, w, by simp⟩

/-- The forest from the `i`-th child on holds that child, the later ones, and all below them. -/
theorem mem_forest {i : Nat} {es : List (Position × Value)} (ht : Leads root t)
    (he : (value root t).bare.children.drop i = es) :
    u ∈ forest t i es ↔ Leads root u ∧ ∃ s : Step, i ≤ s.ordinal ∧ s :: t <:+ u := by
  fun_induction forest t i es with
  | case1 t i =>
    simp only [List.not_mem_nil, false_iff, not_and, not_exists]
    intro hu s hi hs
    have hl := (hu.of_suffix hs).2
    have := (List.getElem?_eq_some_iff.mp hl).1
    have := List.drop_eq_nil_iff.mp he
    omega
  | case2 t i p v es ihv ihes =>
    obtain ⟨hi, hd⟩ := getElem?_of_drop he
    have hs : Leads root (⟨i, p, v⟩ :: t) := ⟨ht, hi⟩
    simp only [List.mem_cons, List.mem_append, ihv hs rfl, ihes ht hd]
    constructor
    · rintro (rfl | ⟨hu, s, -, hsuf⟩ | ⟨hu, s, hle, hsuf⟩)
      · exact ⟨hs, _, le_refl i, List.suffix_refl _⟩
      · exact ⟨hu, _, le_refl i, (List.suffix_cons s _).trans hsuf⟩
      · exact ⟨hu, s, by omega, hsuf⟩
    · rintro ⟨hu, s, hle, hsuf⟩
      rcases Nat.eq_or_lt_of_le hle with rfl | hlt
      · have hl := (hu.of_suffix hsuf).2
        rw [hi] at hl
        obtain ⟨rfl, rfl⟩ : p = s.position ∧ v = s.value := by simpa using hl
        rcases eq_or_cons_suffix hsuf with hus | ⟨s', hs'⟩
        · exact .inl hus
        · exact .inr (.inl ⟨hu, s', Nat.zero_le _, hs'⟩)
      · exact .inr (.inr ⟨hu, s, hlt, hsuf⟩)

/-- Everything in a forest goes through one of its children. -/
theorem suffix_of_mem_forest {i : Nat} {es : List (Position × Value)} (hu : u ∈ forest t i es) :
    ∃ s : Step, i ≤ s.ordinal ∧ s :: t <:+ u := by
  fun_induction forest t i es with
  | case1 => simp at hu
  | case2 t i p v es ihv ihes =>
    simp only [List.mem_cons, List.mem_append] at hu
    rcases hu with rfl | hu | hu
    · exact ⟨_, le_refl i, List.suffix_refl _⟩
    · obtain ⟨s, -, hs⟩ := ihv hu
      exact ⟨⟨i, p, v⟩, le_refl i, (List.suffix_cons s _).trans hs⟩
    · obtain ⟨s, hle, hs⟩ := ihes hu
      exact ⟨s, by omega, hs⟩

@[simp] theorem address_cons (s : Step) (t : Trail) : address (s :: t) = s.ordinal :: t.address :=
  rfl

theorem reverse_address_of_suffix {s : Step} (h : s :: t <:+ u) :
    ∃ r, u.address.reverse = t.address.reverse ++ s.ordinal :: r := by
  obtain ⟨w, rfl⟩ := h
  exact ⟨(w.map (·.ordinal)).reverse, by simp [address]⟩

/-- Nodes come in the order of their ordinals from the root downwards, a node before what is below
it. -/
theorem pairwise_forest (t : Trail) (i : Nat) (es : List (Position × Value)) :
    (forest t i es).Pairwise fun u w => u.address.reverse < w.address.reverse := by
  fun_induction forest t i es with
  | case1 => exact List.Pairwise.nil
  | case2 t i p v es ihv ihes =>
    have later {w : Trail} (hw : w ∈ forest t (i + 1) es) (l : List Nat) :
        t.address.reverse ++ i :: l < w.address.reverse := by
      obtain ⟨s, hs, hsuf⟩ := suffix_of_mem_forest hw
      obtain ⟨r, hr⟩ := reverse_address_of_suffix hsuf
      rw [hr]
      exact List.append_left_lt (.rel (Nat.lt_of_succ_le hs))
    refine List.pairwise_cons.mpr ⟨fun w hw => ?_, List.pairwise_append.mpr ⟨ihv, ihes, ?_⟩⟩
    · rcases List.mem_append.mp hw with hw | hw
      · obtain ⟨s, -, hsuf⟩ := suffix_of_mem_forest hw
        obtain ⟨r, hr⟩ := reverse_address_of_suffix hsuf
        have hlt : [i] < i :: s.ordinal :: r := .cons .nil
        have : t.address.reverse ++ [i] < t.address.reverse ++ i :: s.ordinal :: r :=
          List.append_left_lt hlt
        simpa [hr] using this
      · simpa using later hw []
    · intro u hu w hw
      obtain ⟨s, -, hsuf⟩ := suffix_of_mem_forest hu
      obtain ⟨r, hr⟩ := reverse_address_of_suffix ((List.suffix_cons s _).trans hsuf)
      rw [hr]
      exact later hw r

end Trail

def Value.preorder (root : Value) : List Trail :=
  Trail.forest [] 0 root.bare.children

/-- All nodes are met, and nothing else. -/
theorem Value.mem_preorder {root : Value} {u : Trail} :
    u ∈ root.preorder ↔ u ≠ [] ∧ u.Leads root := by
  have hm : u ∈ root.preorder ↔ _ := Trail.mem_forest (t := []) trivial rfl
  rw [hm, and_comm]
  refine and_congr_left fun _ => ⟨?_, fun hne => ?_⟩
  · rintro ⟨s, -, hs⟩ rfl
    simp at hs
  · rcases Trail.eq_or_cons_suffix (List.nil_suffix (l := u)) with h | ⟨s, hs⟩
    · exact absurd h hne
    · exact ⟨s, Nat.zero_le _, hs⟩

theorem Value.pairwise_preorder (root : Value) :
    root.preorder.Pairwise fun u w => u.address.reverse < w.address.reverse :=
  Trail.pairwise_forest [] 0 _

theorem Value.nodup_addresses (root : Value) : (root.preorder.map Trail.address).Nodup := by
  refine List.pairwise_map.mpr (root.pairwise_preorder.imp fun {u w} h he => ?_)
  rw [he] at h
  exact List.lt_irrefl _ h

theorem Value.nodup_addresses_nodes (root : Value) :
    (([] :: root.preorder).map Trail.address).Nodup := by
  refine List.nodup_cons.mpr ⟨fun h => ?_, root.nodup_addresses⟩
  obtain ⟨t, ht, hnil⟩ := List.mem_map.mp h
  exact (Value.mem_preorder.mp ht).1 (List.map_eq_nil_iff.mp hnil)

end TreePaths
