import Mathlib.Data.List.Flatten
import Mathlib.Data.List.Forall2
import Mathlib.Data.Nat.Find
import TreePaths.Proofs.Value.Trail
import TreePaths.Proofs.Yaml.Nodes
import TreePaths.Yaml.Draft

/-!
What a draft tells: a part that has an end is told to its end, where it is named and in the end.
-/

namespace TreePaths

namespace Value

theorem map_filterMap_of_length {α β : Type} {f : α → Option β} {back : β → α}
    (hback : ∀ a b, f a = some b → back b = a) (l : List α)
    (h : (l.filterMap f).length = l.length) : (l.filterMap f).map back = l := by
  induction l with
  | nil => rfl
  | cons x xs ih =>
    have hle := List.length_filterMap_le f xs
    cases hx : f x with
    | none =>
      rw [List.filterMap_cons_none hx, List.length_cons] at h
      omega
    | some y =>
      rw [List.filterMap_cons_some hx] at h ⊢
      rw [List.map_cons, hback x y hx, ih (by simpa using h)]

/-- The members of a set are only brought into another order. -/
theorem arranged_perm (vs : List Value) : (arranged vs).Perm vs := by
  unfold arranged
  simp only
  split
  · rename_i hlength
    refine ((List.mergeSort_perm _ _).map _).trans (List.Perm.of_eq ?_)
    apply map_filterMap_of_length _ _ hlength
    intro v e hv
    split at hv
    · cases hv
      rfl
    · cases hv
  · exact List.Perm.refl vs

theorem arranged_all (p : Value → Bool) (vs : List Value) : (arranged vs).all p = vs.all p :=
  (arranged_perm vs).all_eq

end Value

namespace Yaml

section Lists

variable {α β : Type} {R : α → β → Prop} {xs : List α} {ys : List β}

theorem exists_of_forall₂ (h : List.Forall₂ R xs ys) {x : α} (hx : x ∈ xs) :
    ∃ y, y ∈ ys ∧ R x y := by
  induction h with
  | nil => cases hx
  | cons hxy _ ih =>
    rcases List.mem_cons.1 hx with rfl | hx
    · exact ⟨_, List.mem_cons_self, hxy⟩
    · obtain ⟨y, hy, hR⟩ := ih hx
      exact ⟨y, List.mem_cons_of_mem _ hy, hR⟩

theorem map_eq_of_forall₂ (h : List.Forall₂ R xs ys) {f : α → β}
    (hf : ∀ x y, x ∈ xs → R x y → f x = y) : xs.map f = ys := by
  induction h with
  | nil => rfl
  | cons hxy _ ih =>
    rw [List.map_cons, hf _ _ List.mem_cons_self hxy,
      ih fun x y hx => hf x y (List.mem_cons_of_mem _ hx)]

theorem map_eq_map_of_forall₂ {γ : Type} (h : List.Forall₂ R xs ys) {f : α → γ} {f' : β → γ}
    (hf : ∀ x y, R x y → f x = f' y) : xs.map f = ys.map f' := by
  rw [← List.forall₂_eq_eq_eq, List.forall₂_map_left_iff, List.forall₂_map_right_iff]
  exact h.imp hf

end Lists

namespace Piece

def parts : Piece → List Part
  | list ps | set ps => ps
  | pairs es | map es => es.flatMap fun e => [e.1, e.2]
  | struct fs => fs.map (·.2)
  | annotated p _ => [p]

variable {p : Piece} {f f' : Nat → Value}

/-- The value of a piece depends on its parts alone. -/
theorem value_congr (h : ∀ q ∈ p.parts, q.value f = q.value f') : p.value f = p.value f' := by
  have hpair : ∀ {es : List (Part × Part)}, (∀ q ∈ es.flatMap fun e => [e.1, e.2],
      q.value f = q.value f') → ∀ e ∈ es, e.1.value f = e.1.value f' ∧ e.2.value f = e.2.value f' :=
    fun h e he => ⟨h _ (List.mem_flatMap.2 ⟨e, he, by simp⟩),
      h _ (List.mem_flatMap.2 ⟨e, he, by simp⟩)⟩
  cases p with
  | list ps => exact congrArg Value.list (List.map_congr_left h)
  | set ps => exact congrArg (Value.set ∘ Value.arranged) (List.map_congr_left h)
  | pairs es =>
    refine congrArg Value.list (List.map_congr_left fun e he => ?_)
    show Value.tuple [e.1.value f, e.2.value f] = Value.tuple [e.1.value f', e.2.value f']
    rw [(hpair h e he).1, (hpair h e he).2]
  | map es =>
    refine congrArg Value.map (List.map_congr_left fun e he => ?_)
    show (e.1.value f, e.2.value f) = (e.1.value f', e.2.value f')
    rw [(hpair h e he).1, (hpair h e he).2]
  | struct fs =>
    refine congrArg Value.struct (List.map_congr_left fun e he => ?_)
    show (e.1, e.2.value f) = (e.1, e.2.value f')
    rw [h e.2 (List.mem_map_of_mem he)]
  | annotated q as =>
    show Value.annotated _ as = Value.annotated _ as
    rw [h q List.mem_cons_self]

/-- A condition that the piece itself fulfils holds throughout it if it holds throughout its parts.
-/
theorem all_value {t : Value → Bool} (hpair : ∀ a b, t (.tuple [a, b]) = true)
    (hp : t (p.value f) = true) : (p.value f).all t = p.parts.all fun q => (q.value f).all t := by
  cases p with
  | list ps => simp_all [value, parts, Value.all, Value.allItems_eq, Function.comp_def]
  | set ps => simp_all [value, parts, Value.all, Value.allItems_eq, Value.arranged_all,
      Function.comp_def]
  | pairs es => simp_all [value, parts, Value.all, Value.allItems_eq, List.all_flatMap,
      Function.comp_def]
  | map es => simp_all [value, parts, Value.all, Value.allEntries_eq, List.all_flatMap,
      Function.comp_def]
  | struct fs => simp_all [value, parts, Value.all, Value.allFields_eq, Function.comp_def]
  | annotated q as => simp_all [value, parts, Value.all]

/-- A piece has an end if and only if all its parts have. -/
theorem isFinite_value : (p.value f).isFinite = p.parts.all fun q => (q.value f).isFinite :=
  all_value (fun _ _ => rfl) (by cases p <;> rfl)

theorem isWritable_value : (p.value f).isWritable = p.parts.all fun q => (q.value f).isWritable :=
  all_value (fun _ _ => rfl) (by cases p <;> rfl)

end Piece

namespace Draft

variable {d : Draft} {p : Part} {v w : Value} {i j k : Nat}

/-- The values of all pieces, told so many pieces deep. -/
def levels (d : Draft) : Nat → Array Value
  | 0 => #[]
  | j + 1 => d.deepen (d.levels j)

def told (d : Draft) (j : Nat) : Nat → Value :=
  d.knownPiece (d.levels j)

theorem told_succ (hk : k < d.size) : d.told (j + 1) k = (d.piece k).value (d.told j) := by
  have hk : k < d.pieces.size := hk
  unfold told
  rw [knownPiece, levels, deepen]
  simp [Array.getD_eq_getD_getElem?, hk, piece]

theorem lt_of_isFinite_told (h : (d.told j k).isFinite = true) : k < d.size ∧ 0 < j := by
  cases j with
  | zero => exact absurd h nofun
  | succ j =>
    refine ⟨?_, Nat.succ_pos j⟩
    rcases Nat.lt_or_ge k d.size with hk | hk
    · exact hk
    · have hk : d.pieces.size ≤ k := hk
      rw [told, knownPiece, levels, deepen, Array.getD_eq_getD_getElem?,
        Array.getElem?_eq_none (by simpa using hk)] at h
      exact absurd h nofun

theorem isFinite_parts (h : (d.told (j + 1) k).isFinite = true) {q : Part}
    (hq : q ∈ (d.piece k).parts) : (q.value (d.told j)).isFinite = true := by
  rw [told_succ (lt_of_isFinite_told h).1, Piece.isFinite_value, List.all_eq_true] at h
  exact h q hq

/-- What has been told to the end stays the same when it is told deeper. -/
theorem told_stable_succ (h : (p.value (d.told j)).isFinite = true) :
    p.value (d.told (j + 1)) = p.value (d.told j) := by
  induction j generalizing p with
  | zero =>
    cases p with
    | piece k => exact absurd h nofun
    | scalar v => rfl
    | nan o => rfl
  | succ j ih =>
    cases p with
    | piece k =>
      have hk := (lt_of_isFinite_told h).1
      show d.told (j + 2) k = d.told (j + 1) k
      rw [told_succ hk, told_succ hk]
      exact Piece.value_congr fun q hq => ih (isFinite_parts h hq)
    | scalar v => rfl
    | nan o => rfl

/-- What has come to its end stays the same when told deeper. -/
theorem told_stable (h : (p.value (d.told i)).isFinite = true) (hij : i ≤ j) :
    p.value (d.told j) = p.value (d.told i) := by
  induction hij with
  | refl => rfl
  | step _ ih => rw [told_stable_succ (by rwa [ih]), ih]

theorem told_unique (hi : (p.value (d.told i)).isFinite = true)
    (hj : (p.value (d.told j)).isFinite = true) : p.value (d.told i) = p.value (d.told j) := by
  rcases Nat.le_total i j with h | h
  · exact (told_stable hi h).symm
  · exact told_stable hj h

/-- Told deep enough, the part comes to its end. -/
def Tells (d : Draft) (p : Part) (v : Value) : Prop :=
  v.isFinite = true ∧ ∃ j, p.value (d.told j) = v

namespace Tells

theorem eq (hv : d.Tells p v) (hw : d.Tells p w) : v = w := by
  obtain ⟨hfv, i, rfl⟩ := hv
  obtain ⟨hfw, j, rfl⟩ := hw
  exact told_unique hfv hfw

theorem eventually (h : d.Tells p v) : ∃ i, ∀ j, i ≤ j → p.value (d.told j) = v := by
  obtain ⟨hfin, i, rfl⟩ := h
  exact ⟨i, fun j hij => told_stable hfin hij⟩

/-- Parts that come to an end do so at once when told deep enough. -/
theorem all_eventually {qs : List Part} (h : ∀ q ∈ qs, ∃ v, d.Tells q v) :
    ∃ i, ∀ q ∈ qs, ∀ v, d.Tells q v → q.value (d.told i) = v := by
  suffices ∃ i, ∀ j, i ≤ j → ∀ q ∈ qs, ∀ v, d.Tells q v → q.value (d.told j) = v from
    this.imp fun i hi => hi i (Nat.le_refl i)
  induction qs with
  | nil => exact ⟨0, nofun⟩
  | cons q qs ih =>
    obtain ⟨v, hv⟩ := h q List.mem_cons_self
    obtain ⟨i, hi⟩ := hv.eventually
    obtain ⟨i', hi'⟩ := ih fun r hr => h r (List.mem_cons_of_mem q hr)
    refine ⟨max i i', fun j hj r hr w hw => ?_⟩
    rcases List.mem_cons.1 hr with rfl | hr
    · rw [hi j (by omega), hv.eq hw]
    · exact hi' j (by omega) r hr w hw

/-- A piece comes to its end if all its parts do. -/
theorem piece (hk : k < d.size) (hparts : ∀ q ∈ (d.piece k).parts, ∃ v, d.Tells q v)
    (hv : ∀ f, (∀ q ∈ (d.piece k).parts, ∀ w, d.Tells q w → q.value f = w) →
      (d.piece k).value f = v) : d.Tells (.piece k) v := by
  obtain ⟨i, hi⟩ := all_eventually hparts
  have htold : d.told (i + 1) k = v := by rw [told_succ hk, hv _ hi]
  refine ⟨?_, i + 1, htold⟩
  rw [← hv _ hi, Piece.isFinite_value, List.all_eq_true]
  intro q hq
  obtain ⟨w, hw⟩ := hparts q hq
  rw [hi q hq w hw]
  exact hw.1

theorem scalar (hv : v.isFinite = true) : d.Tells (.scalar v) v :=
  ⟨hv, 0, rfl⟩

theorem nan (o : Option NodeId) : d.Tells (.nan o) (.float .nan) :=
  ⟨rfl, 0, rfl⟩

theorem list {ps : List Part} {vs : List Value} (hk : k < d.size) (hp : d.piece k = .list ps)
    (h : List.Forall₂ d.Tells ps vs) : d.Tells (.piece k) (.list vs) := by
  apply piece hk
  · rw [hp]
    intro q hq
    exact (exists_of_forall₂ h hq).imp fun _ => And.right
  · rw [hp]
    intro f hf
    exact congrArg Value.list (map_eq_of_forall₂ h fun q w hq hw => hf q hq w hw)

theorem set {ps : List Part} {vs : List Value} (hk : k < d.size) (hp : d.piece k = .set ps)
    (h : List.Forall₂ d.Tells ps vs) : d.Tells (.piece k) (.set (Value.arranged vs)) := by
  apply piece hk
  · rw [hp]
    intro q hq
    exact (exists_of_forall₂ h hq).imp fun _ => And.right
  · rw [hp]
    intro f hf
    exact congrArg (Value.set ∘ Value.arranged)
      (map_eq_of_forall₂ h fun q w hq hw => hf q hq w hw)

theorem pairs {ds : List (Part × Part)} {vs : List Value} (hk : k < d.size)
    (hp : d.piece k = .pairs ds) (h : List.Forall₂ (fun e v => ∃ a b, d.Tells e.1 a ∧
      d.Tells e.2 b ∧ v = .tuple [a, b]) ds vs) : d.Tells (.piece k) (.list vs) := by
  apply piece hk
  · rw [hp]
    intro q hq
    obtain ⟨e, he, hqe⟩ := List.mem_flatMap.1 hq
    obtain ⟨v, -, a, b, ha, hb, -⟩ := exists_of_forall₂ h he
    rcases List.mem_cons.1 hqe with rfl | hqe
    · exact ⟨a, ha⟩
    · exact ⟨b, List.mem_singleton.1 hqe ▸ hb⟩
  · rw [hp]
    intro f hf
    refine congrArg Value.list (map_eq_of_forall₂ h ?_)
    rintro e v he ⟨a, b, ha, hb, rfl⟩
    show Value.tuple [e.1.value f, e.2.value f] = _
    rw [hf _ (List.mem_flatMap.2 ⟨e, he, by simp⟩) a ha,
      hf _ (List.mem_flatMap.2 ⟨e, he, by simp⟩) b hb]

theorem map {ds : List (Part × Part)} {vs : List (Value × Value)} (hk : k < d.size)
    (hp : d.piece k = .map ds)
    (h : List.Forall₂ (fun e v => d.Tells e.1 v.1 ∧ d.Tells e.2 v.2) ds vs) :
    d.Tells (.piece k) (.map vs) := by
  apply piece hk
  · rw [hp]
    intro q hq
    obtain ⟨e, he, hqe⟩ := List.mem_flatMap.1 hq
    obtain ⟨v, -, ha, hb⟩ := exists_of_forall₂ h he
    rcases List.mem_cons.1 hqe with rfl | hqe
    · exact ⟨v.1, ha⟩
    · exact ⟨v.2, List.mem_singleton.1 hqe ▸ hb⟩
  · rw [hp]
    intro f hf
    refine congrArg Value.map (map_eq_of_forall₂ h ?_)
    rintro e v he ⟨ha, hb⟩
    show (e.1.value f, e.2.value f) = v
    rw [hf _ (List.mem_flatMap.2 ⟨e, he, by simp⟩) _ ha,
      hf _ (List.mem_flatMap.2 ⟨e, he, by simp⟩) _ hb]

theorem struct {ds : List (String × Part)} {vs : List (String × Value)} (hk : k < d.size)
    (hp : d.piece k = .struct ds)
    (h : List.Forall₂ (fun e v => e.1 = v.1 ∧ d.Tells e.2 v.2) ds vs) :
    d.Tells (.piece k) (.struct vs) := by
  apply piece hk
  · rw [hp]
    intro q hq
    obtain ⟨e, he, rfl⟩ := List.mem_map.1 hq
    obtain ⟨v, -, -, hv⟩ := exists_of_forall₂ h he
    exact ⟨v.2, hv⟩
  · rw [hp]
    intro f hf
    refine congrArg Value.struct (map_eq_of_forall₂ h ?_)
    rintro e v he ⟨hname, hv⟩
    show (e.1, e.2.value f) = v
    rw [hf _ (List.mem_map_of_mem he) _ hv, hname]

theorem annotated {q : Part} {as : List String} (hk : k < d.size)
    (hp : d.piece k = .annotated q as) (h : d.Tells q v) :
    d.Tells (.piece k) (.annotated v as) := by
  apply piece hk
  · rw [hp]
    intro c hc
    exact ⟨v, List.mem_singleton.1 hc ▸ h⟩
  · rw [hp]
    intro f hf
    exact congrArg (Value.annotated · as) (hf q List.mem_cons_self v h)

end Tells

section Heights

def Ending (d : Draft) (k : Nat) : Prop :=
  ∃ j, (d.told j k).isFinite = true

open Classical in
/-- How many pieces deep a piece has to be told. -/
noncomputable def height (d : Draft) (k : Nat) : Nat :=
  if h : d.Ending k then Nat.find h else 0

/-- The number of pieces that need not be told deeper. -/
noncomputable def depthOf (d : Draft) (k : Nat) : Nat :=
  level d.size (fun _ => true) d.height k

theorem isFinite_height (h : d.Ending k) : (d.told (d.height k) k).isFinite = true := by
  unfold height
  rw [dif_pos h]
  exact Nat.find_spec h

theorem height_le (h : (d.told j k).isFinite = true) : d.height k ≤ j := by
  have hend : d.Ending k := ⟨j, h⟩
  unfold height
  rw [dif_pos hend]
  exact Nat.find_min' hend h

/-- The pieces in a piece that comes to its end do so earlier. -/
theorem inner_lt (h : d.Ending k) {l : Nat} (hl : .piece l ∈ (d.piece k).parts) :
    d.Ending l ∧ d.height l < d.height k := by
  have hfin := isFinite_height h
  obtain ⟨j, hj⟩ := Nat.exists_eq_succ_of_ne_zero (Nat.ne_of_gt (lt_of_isFinite_told hfin).2)
  rw [hj] at hfin ⊢
  have hinner : (d.told j l).isFinite = true := isFinite_parts hfin hl
  exact ⟨⟨j, hinner⟩, Nat.lt_succ_of_le (height_le hinner)⟩

theorem depthOf_inner_lt (h : d.Ending k) {l : Nat} (hl : .piece l ∈ (d.piece k).parts) :
    d.depthOf l < d.depthOf k :=
  level_lt (lt_of_isFinite_told (isFinite_height h)).1 rfl (inner_lt h hl).2

theorem depthOf_pos (h : d.Ending k) : 0 < d.depthOf k := by
  unfold depthOf level
  rw [List.countP_pos_iff]
  exact ⟨k, List.mem_range.2 (lt_of_isFinite_told (isFinite_height h)).1, by simp⟩

/-- No piece has to be told deeper than there are pieces. -/
theorem isFinite_depthOf (h : d.Ending k) : (d.told (d.depthOf k) k).isFinite = true := by
  induction hm : d.depthOf k using Nat.strongRecOn generalizing k with
  | _ m ih =>
    have hpos := depthOf_pos h
    obtain ⟨j, rfl⟩ := Nat.exists_eq_succ_of_ne_zero (n := m) (by omega)
    have hk := (lt_of_isFinite_told (isFinite_height h)).1
    rw [told_succ hk, Piece.isFinite_value, List.all_eq_true]
    intro q hq
    cases q with
    | piece l =>
      have hlt := depthOf_inner_lt h hq
      have hfin := ih (d.depthOf l) (by omega) (inner_lt h hq).1 rfl
      have hstays := told_stable (p := .piece l) (j := j) hfin (by omega)
      show (d.told j l).isFinite = true
      rw [show d.told j l = d.told (d.depthOf l) l from hstays]
      exact hfin
    | scalar v =>
      obtain ⟨i, hi⟩ := h
      obtain ⟨i, rfl⟩ := Nat.exists_eq_succ_of_ne_zero (Nat.ne_of_gt (lt_of_isFinite_told hi).2)
      exact isFinite_parts hi hq
    | nan o => rfl

theorem valueWithin_of_isFinite {fuel : Nat} (h : (p.value (d.told (j + fuel))).isFinite = true) :
    ∃ i, d.valueWithin p fuel (d.levels j) = p.value (d.told i) ∧
      (p.value (d.told i)).isFinite = true := by
  induction fuel generalizing j with
  | zero => exact ⟨j, rfl, h⟩
  | succ fuel ih =>
    unfold valueWithin
    by_cases hfin : (p.value (d.told j)).isFinite = true
    · exact ⟨j, if_pos hfin, hfin⟩
    · obtain ⟨i, hi, hfini⟩ := ih (j := j + 1) (by rwa [Nat.add_right_comm])
      exact ⟨i, (if_neg hfin).trans hi, hfini⟩

/-- A part that comes to its end has that value. -/
theorem Tells.value_eq (h : d.Tells p v) : d.value p = v := by
  obtain ⟨hfin, j, rfl⟩ := h
  have hdeep : (p.value (d.told (max depth d.size))).isFinite = true := by
    cases p with
    | piece k =>
      have hend : d.Ending k := ⟨j, hfin⟩
      have hle := level_le d.size (fun _ => true) d.height k
      have hk := isFinite_depthOf hend
      rw [told_stable (p := .piece k) hk (Nat.le_trans hle (Nat.le_max_right depth _))]
      exact hk
    | scalar v => exact hfin
    | nan o => rfl
  rw [← Nat.zero_add (max depth d.size)] at hdeep
  obtain ⟨i, hi, hfini⟩ := valueWithin_of_isFinite hdeep
  exact hi.trans (told_unique hfini hfin)

/-- A piece that comes to its end is shown as it is told. -/
theorem shownPiece_of_ending {fuel : Nat} (around : List Nat) (h : d.Ending k)
    (haround : ∀ m ∈ around, d.height k < d.height m) (hfuel : d.depthOf k ≤ fuel) :
    ∃ i, d.shownPiece fuel around k = d.told i k ∧ (d.told i k).isFinite = true := by
  induction fuel generalizing around k with
  | zero => exact absurd (depthOf_pos h) (by omega)
  | succ fuel ih =>
    have hnew : around.contains k = false := by
      rw [Bool.eq_false_iff]
      intro hmem
      exact Nat.lt_irrefl _ (haround k (List.contains_iff_mem.1 hmem))
    have hfin := isFinite_height h
    obtain ⟨j, hj⟩ := Nat.exists_eq_succ_of_ne_zero (Nat.ne_of_gt (lt_of_isFinite_told hfin).2)
    rw [hj] at hfin
    refine ⟨j + 1, ?_, hfin⟩
    rw [shownPiece, hnew, told_succ (lt_of_isFinite_told hfin).1]
    refine Piece.value_congr fun q hq => ?_
    cases q with
    | piece l =>
      obtain ⟨hend, hlt⟩ := inner_lt h hq
      have hdepth := depthOf_inner_lt h hq
      obtain ⟨i, hi, hfini⟩ := ih (k :: around) hend (fun m hm => by
        rcases List.mem_cons.1 hm with rfl | hm
        · exact hlt
        · exact Nat.lt_trans hlt (haround m hm)) (by omega)
      exact hi.trans (told_unique (p := .piece l) hfini (isFinite_parts hfin hq))
    | scalar v => rfl
    | nan o => rfl

/-- A part that comes to its end is shown as its value. -/
theorem Tells.shown_eq (h : d.Tells p v) : d.shown p = v := by
  obtain ⟨hfin, j, rfl⟩ := h
  cases p with
  | piece k =>
    have hle := level_le d.size (fun _ => true) d.height k
    obtain ⟨i, hi, hfini⟩ :=
      shownPiece_of_ending [] ⟨j, hfin⟩ nofun (Nat.le_succ_of_le hle)
    exact hi.trans (told_unique (p := .piece k) hfini hfin)
  | scalar v => rfl
  | nan o => rfl

end Heights

end Draft

end Yaml

end TreePaths
