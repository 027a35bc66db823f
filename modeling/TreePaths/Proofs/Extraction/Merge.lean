import Mathlib.Data.List.Infix
import Mathlib.Tactic.Common

/-!
Sorting by a key that many elements share. The sort is stable, so two rows that are in order come
out merged key by key.
-/

namespace TreePaths

section Sorting

variable {α : Type} (key : α → Nat)

/-- Sorting by a key leaves the elements of one key in their order. -/
theorem filter_mergeSort_key (l : List α) (i : Nat) :
    (l.mergeSort fun a b => key a ≤ key b).filter (key · = i) = l.filter (key · = i) := by
  have hp : (l.filter (key · = i)).Pairwise fun a b => decide (key a ≤ key b) = true := by
    have htrivial : l.filter (key · = i) |>.Pairwise fun _ _ => True :=
      List.pairwise_of_forall fun _ _ => trivial
    refine List.Pairwise.imp_of_mem ?_ htrivial
    intro a b ha hb _
    simp only [List.mem_filter, decide_eq_true_eq] at ha hb
    simp [ha.2, hb.2]
  have hs := List.sublist_mergeSort (fun a b c hab hbc => by simp at *; omega)
    (fun a b => by simp; omega) hp (List.filter_sublist (l := l))
  have hf := hs.filter (key · = i)
  simp only [List.filter_filter, Bool.and_self] at hf
  exact (hf.eq_of_length (List.Perm.filter _ (List.mergeSort_perm l _)).length_eq.symm).symm

/-- A list in ascending order of the keys is told by its elements of each key. -/
theorem eq_of_filter_key {l m : List α} (hl : l.Pairwise fun a b => key a ≤ key b)
    (hm : m.Pairwise fun a b => key a ≤ key b)
    (h : ∀ i, l.filter (key · = i) = m.filter (key · = i)) : l = m := by
  induction l generalizing m with
  | nil =>
    cases m with
    | nil => rfl
    | cons b m => simpa using h (key b)
  | cons a l ih =>
    cases m with
    | nil => simpa using h (key a)
    | cons b m =>
      obtain ⟨hal, hl'⟩ := List.pairwise_cons.mp hl
      obtain ⟨hbm, hm'⟩ := List.pairwise_cons.mp hm
      have hb : b ∈ a :: l := by
        have := h (key b)
        exact (List.mem_filter.mp (this ▸ by simp : b ∈ (a :: l).filter (key · = key b))).1
      have ha : a ∈ b :: m := by
        have := h (key a)
        exact (List.mem_filter.mp (this ▸ by simp : a ∈ (b :: m).filter (key · = key a))).1
      have hle : key a ≤ key b := by
        rcases List.mem_cons.mp hb with rfl | hb
        · exact le_rfl
        · exact hal b hb
      have hge : key b ≤ key a := by
        rcases List.mem_cons.mp ha with rfl | ha
        · exact le_rfl
        · exact hbm a ha
      have hk : key a = key b := le_antisymm hle hge
      have heq := h (key b)
      simp only [List.filter_cons, hk, decide_true, if_true, List.cons.injEq] at heq
      obtain ⟨rfl, -⟩ := heq
      refine congrArg _ (ih hl' hm' fun i => ?_)
      have := h i
      simp only [List.filter_cons] at this
      split at this
      · exact (List.cons.inj this).2
      · exact this

variable {κ : Type} {index : κ → Nat} {ks : List κ} {f g : κ → List α}

theorem filter_key_flatMap (hf : ∀ k ∈ ks, ∀ a ∈ f k, key a = index k) (i : Nat) :
    (ks.flatMap f).filter (key · = i) = (ks.filter (index · = i)).flatMap f := by
  induction ks with
  | nil => rfl
  | cons k ks ih =>
    have hk := hf k List.mem_cons_self
    have ht := ih fun k' hk' => hf k' (List.mem_cons_of_mem _ hk')
    rw [List.flatMap_cons, List.filter_append, ht, List.filter_cons]
    by_cases hi : index k = i
    · rw [List.filter_eq_self.mpr fun a ha => by simp [hk a ha, hi]]
      simp [hi]
    · rw [List.filter_eq_nil_iff.mpr fun a ha => by simp [hk a ha, hi]]
      simp [hi]

/-- Rows that are sorted together come out side by side, those of the first list before those of
the second one. -/
theorem mergeSort_flatMap (hks : ks.Pairwise fun a b => index a < index b)
    (hf : ∀ k ∈ ks, ∀ a ∈ f k, key a = index k) (hg : ∀ k ∈ ks, ∀ a ∈ g k, key a = index k) :
    (ks.flatMap f ++ ks.flatMap g).mergeSort (fun a b => key a ≤ key b) =
      ks.flatMap fun k => f k ++ g k := by
  have hfg : ∀ k ∈ ks, ∀ a ∈ f k ++ g k, key a = index k := fun k hk a ha =>
    (List.mem_append.mp ha).elim (hf k hk a) (hg k hk a)
  refine eq_of_filter_key key ?_ ?_ fun i => ?_
  · exact (List.pairwise_mergeSort (fun a b c hab hbc => by simp at *; omega)
      (fun a b => by simp; omega) _).imp of_decide_eq_true
  · refine List.pairwise_flatMap.mpr ⟨fun k hk => ?_, hks.imp_of_mem fun ha hb hlt x hx y hy => ?_⟩
    · exact List.pairwise_of_forall_mem_list fun a ha b hb => by
        rw [hfg k hk a ha, hfg k hk b hb]
    · rw [hfg _ ha x hx, hfg _ hb y hy]
      exact hlt.le
  · rw [filter_mergeSort_key, List.filter_append, filter_key_flatMap key hf,
      filter_key_flatMap key hg, filter_key_flatMap key hfg]
    rcases hks' : ks.filter (index · = i) with _ | ⟨a, _ | ⟨b, l⟩⟩
    · rfl
    · simp
    · have hlt := (List.pairwise_cons.mp (hks' ▸ hks.filter _)).1 b List.mem_cons_self
      have hi : ∀ k ∈ a :: b :: l, index k = i := fun k hk => by
        simpa using (List.mem_filter.mp (hks' ▸ hk : k ∈ ks.filter (index · = i))).2
      have ha := hi a List.mem_cons_self
      have hb := hi b (by simp)
      omega

end Sorting
end TreePaths
