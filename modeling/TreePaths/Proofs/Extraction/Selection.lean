import TreePaths.Extraction.Extractor
import TreePaths.Proofs.Extraction.Merge
import TreePaths.Proofs.Value.Trail

/-!
Which nodes a search path selects, said without a walk; and the candidates that a walk holds in each
container, which are the beginnings of paths that have been matched on the way there.
-/

namespace TreePaths

def Step.fits (o : Options) (s : Step) (c : Component) : Bool :=
  c.accepts o.ignoreCase (some s.position) s.value.annotations

namespace SearchPath

/-- The first `m` components lead to a node: they fit its last `m` steps one by one, and the anchor
annotations hold where these steps begin. Without relative matching they begin at the root. -/
def reaches (o : Options) (root : Value) (p : SearchPath) (m : Nat) (t : Trail) : Bool :=
  (if o.relative then m ≤ t.length else m = t.length) &&
    ((p.components.take m).zip (t.take m).reverse).all (fun (c, s) => s.fits o c) &&
    annotationsHold o.ignoreCase p.annotations (Trail.value root (t.drop m)).annotations

/-- All components lead to the node. An empty path selects the root, any other path only nodes below
it. -/
def selects (o : Options) (root : Value) (p : SearchPath) (t : Trail) : Bool :=
  p.components.isEmpty == t.isEmpty && p.reaches o root p.length t

variable {o : Options} {root : Value} {p : SearchPath} {m : Nat} {s : Step} {t : Trail}

theorem reaches_succ {c : Component} (h : p.components[m]? = some c) :
    p.reaches o root (m + 1) (s :: t) = (p.reaches o root m t && s.fits o c) := by
  obtain ⟨hm, hc⟩ := List.getElem?_eq_some_iff.mp h
  by_cases hle : m ≤ t.length
  · have hz : (p.components.take (m + 1)).zip ((s :: t).take (m + 1)).reverse =
        (p.components.take m).zip (t.take m).reverse ++ [(c, s)] := by
      rw [List.take_add_one, h, List.take_succ_cons, List.reverse_cons]
      exact List.zip_append (by simp [hle, hm.le])
    simp only [reaches, hz, List.all_append, List.length_cons, List.drop_succ_cons]
    cases o.relative <;> simp [Bool.and_left_comm, Bool.and_comm]
  · have hne : m ≠ t.length := by omega
    cases hr : o.relative <;> simp [reaches, hr, hle, hne]

theorem reaches_zero_nil : p.reaches o root 0 [] =
    annotationsHold o.ignoreCase p.annotations root.annotations := by
  cases hr : o.relative <;> simp [reaches, hr, Trail.value]

theorem reaches_zero_cons : p.reaches o root 0 (s :: t) =
    (o.relative && annotationsHold o.ignoreCase p.annotations s.value.annotations) := by
  cases hr : o.relative <;> simp [reaches, hr, Trail.value]

theorem selects_nil : p.selects o root [] =
    (p.components.isEmpty && annotationsHold o.ignoreCase p.annotations root.annotations) := by
  cases hp : p.components with
  | nil => simp [selects, hp, length, reaches_zero_nil]
  | cons c cs => simp [selects, hp]

theorem selects_cons : p.selects o root (s :: t) =
    (!p.components.isEmpty && p.reaches o root p.length (s :: t)) := by
  cases hp : p.components <;> simp [selects, hp]

/-- The step goes to a child that the component after the first `m` ones accepts. -/
def goesOn (o : Options) (p : SearchPath) (s : Step) (m : Nat) : Bool :=
  p.components[m]?.any (s.fits o)

theorem reaches_succ_of_lt (h : m < p.length) :
    p.reaches o root (m + 1) (s :: t) = (p.reaches o root m t && p.goesOn o s m) := by
  have hc : p.components[m]? = some (p.components.get ⟨m, h⟩) :=
    List.getElem?_eq_getElem h
  rw [reaches_succ hc, goesOn, hc, Option.any_some]

/-- What leads to a node leads to the nodes above it. -/
theorem reaches_of_append {l t : Trail} (hm : m + l.length ≤ p.length)
    (h : p.reaches o root (m + l.length) (l ++ t)) : p.reaches o root m t := by
  induction l with
  | nil => exact h
  | cons s l ih =>
    rw [List.length_cons] at hm
    rw [List.length_cons, List.cons_append, ← Nat.add_assoc, reaches_succ_of_lt (by omega),
      Bool.and_eq_true] at h
    exact ih (by omega) h.1

theorem isTerminal_natCast : p.isTerminal (m : Int) = decide (m + 1 = p.length) := by
  have h : (m : Int) = p.length - 1 ↔ m + 1 = p.length := by omega
  simp [isTerminal, h]

/-- How many components may have been matched at the end of a trail, if not all of them, the most
first. -/
def stages (o : Options) (root : Value) (p : SearchPath) (t : Trail) : List Nat :=
  (List.range p.length).reverse.filter (p.reaches o root · t)

theorem stages_nil : p.stages o root [] =
    if !p.components.isEmpty && p.reaches o root 0 [] then [0] else [] := by
  have hpos {m : Nat} : p.reaches o root (m + 1) [] = false := by
    cases hr : o.relative <;> simp [reaches, hr]
  cases hk : p.components with
  | nil => simp [stages, length, hk]
  | cons c cs =>
    rw [stages, length, hk, List.length_cons, List.range_succ_eq_map, List.reverse_cons,
      List.filter_append, ← List.map_reverse, List.filter_map,
      List.filter_eq_nil_iff.mpr fun m _ => by simp [hpos]]
    by_cases h0 : p.reaches o root 0 [] <;> simp [h0]

/-- At most one stage ends at a child: the one before the last component, if the path selects the
child. -/
theorem filter_stages_terminal :
    (p.stages o root t).filter (fun m : Nat => p.goesOn o s m && p.isTerminal m) =
      if p.selects o root (s :: t) then [p.length - 1] else [] := by
  cases hk : p.length with
  | zero =>
    have : p.components = [] := List.length_eq_zero_iff.mp hk
    simp [stages, hk, selects, this]
  | succ j =>
    have hne : p.components ≠ [] := by rintro h; simp [length, h] at hk
    have hrest : ((List.range j).reverse.filter (p.reaches o root · t)).filter
        (fun m : Nat => p.goesOn o s m && p.isTerminal m) = [] := by
      rw [List.filter_eq_nil_iff]
      intro m hm
      have : m < j := by simpa using (List.mem_filter.mp hm).1
      simp [isTerminal_natCast, hk, this.ne]
    have hlast : p.reaches o root (j + 1) (s :: t) = (p.reaches o root j t && p.goesOn o s j) :=
      reaches_succ_of_lt (by omega)
    rw [stages, hk, List.range_succ, List.reverse_append, List.reverse_singleton,
      List.singleton_append, List.filter_cons, selects_cons, hk, hlast]
    by_cases hreach : p.reaches o root j t
    · rw [if_pos hreach, List.filter_cons, hrest]
      simp [hreach, isTerminal_natCast, hk, hne]
    · rw [if_neg hreach, hrest]
      simp [hreach]

/-- The stages at a child are those that go on to it, one component further, and in the end the
stage at which a path starts there. -/
theorem stages_cons : p.stages o root (s :: t) =
    ((p.stages o root t).filter fun m : Nat => p.goesOn o s m && !p.isTerminal m).map (· + 1) ++
      if !p.components.isEmpty && p.reaches o root 0 (s :: t) then [0] else [] := by
  cases hk : p.length with
  | zero =>
    have : p.components = [] := List.length_eq_zero_iff.mp hk
    simp [stages, hk, this]
  | succ j =>
    have hne : p.components ≠ [] := by rintro h; simp [length, h] at hk
    have hcarried : (p.stages o root t).filter
        (fun m : Nat => p.goesOn o s m && !p.isTerminal m) =
        (List.range j).reverse.filter fun m => p.reaches o root (m + 1) (s :: t) := by
      rw [stages, hk, List.range_succ, List.reverse_append, List.reverse_singleton,
        List.singleton_append, List.filter_filter, List.filter_cons_of_neg
          (by simp [isTerminal_natCast, hk])]
      apply List.filter_congr
      intro m hm
      have hm : m < j := by simpa using hm
      rw [reaches_succ_of_lt (by omega), isTerminal_natCast, hk]
      simp [hm.ne, Bool.and_comm]
    have hstart : (List.range (j + 1)).reverse = (List.range j).reverse.map (· + 1) ++ [0] := by
      rw [List.range_succ_eq_map, List.reverse_cons, List.map_reverse]
    rw [hcarried, stages, hk, hstart, List.filter_append, List.filter_map]
    congr 1
    by_cases h0 : p.reaches o root 0 (s :: t) <;> simp [h0, hne]

end SearchPath

namespace Extractor

variable {σ ε : Type}

/-- The candidates in the container at the end of a trail: in the order of registration, the stages
that each path has reached there. -/
def standing (x : Extractor σ ε) (root : Value) (t : Trail) : List (Candidate σ ε) :=
  x.registrations.zipIdx.flatMap fun e =>
    (e.1.path.stages x.options root t).map fun m => ⟨e.2, e.1, m⟩

def selecting (x : Extractor σ ε) (root : Value) (t : Trail) : List (Registration σ ε) :=
  x.registrations.filter fun r => r.path.selects x.options root t

def ending (x : Extractor σ ε) (s : Step) (cs : List (Candidate σ ε)) : List (Candidate σ ε) :=
  cs.filter fun c => c.registration.path.goesOn x.options s c.matched && c.isTerminal

def goingOn (x : Extractor σ ε) (s : Step) (cs : List (Candidate σ ε)) : List (Candidate σ ε) :=
  (cs.filter fun c => c.registration.path.goesOn x.options s c.matched && !c.isTerminal).map
    Candidate.advance

variable (x : Extractor σ ε) (root : Value) (s : Step) (t : Trail)

theorem flatMap_zipIdx_fst {α β : Type} (l : List α) (f : α → List β) :
    (l.zipIdx.flatMap fun e => f e.1) = l.flatMap f := by
  conv_rhs => rw [← List.zipIdx_map_fst 0 l]
  rw [List.flatMap_map]

theorem pairwise_zipIdx {α : Type} (l : List α) : l.zipIdx.Pairwise fun a b => a.2 < b.2 := by
  have h := List.pairwise_lt_range' (s := 0) (n := l.length)
  rw [← List.zipIdx_map_snd, List.pairwise_map] at h
  exact h

theorem flatMap_ite {α β : Type} (l : List α) (q : α → Bool) (f : α → β) :
    (l.flatMap fun a => if q a then [f a] else []) = (l.filter q).map f := by
  induction l with
  | nil => rfl
  | cons a l ih => by_cases h : q a <;> simp [h, ih]

theorem map_fst_filter_zipIdx {α : Type} (l : List α) (p : α → Bool) :
    (l.zipIdx.filter fun e => p e.1).map (·.1) = l.filter p := by
  conv_rhs => rw [← List.zipIdx_map_fst 0 l]
  rw [List.filter_map]
  rfl

/-- The candidates that end at a child, one for each path that selects it. -/
theorem ending_standing_eq : x.ending s (x.standing root t) =
    (x.registrations.zipIdx.filter fun e => e.1.path.selects x.options root (s :: t)).map
      fun e => ⟨e.2, e.1, e.1.path.length - 1⟩ := by
  have hone (e : Registration σ ε × Nat) :
      x.ending s ((e.1.path.stages x.options root t).map fun m => ⟨e.2, e.1, m⟩) =
        if e.1.path.selects x.options root (s :: t) then [⟨e.2, e.1, e.1.path.length - 1⟩]
        else [] := by
    rw [ending, List.filter_map]
    simp only [Function.comp_def, Candidate.isTerminal, SearchPath.filter_stages_terminal]
    split <;> rfl
  rw [← flatMap_ite, standing, ending, List.filter_flatMap]
  exact List.flatMap_congr fun e _ => hone e

theorem ending_standing :
    (x.ending s (x.standing root t)).map (·.registration) = x.selecting root (s :: t) := by
  rw [ending_standing_eq, List.map_map]
  exact map_fst_filter_zipIdx x.registrations fun r => r.path.selects x.options root (s :: t)

def carriedOf (x : Extractor σ ε) (root : Value) (s : Step) (t : Trail)
    (e : Registration σ ε × Nat) : List (Candidate σ ε) :=
  x.goingOn s ((e.1.path.stages x.options root t).map fun m => ⟨e.2, e.1, m⟩)

def seededOf (x : Extractor σ ε) (root : Value) (s : Step) (t : Trail)
    (e : Registration σ ε × Nat) : List (Candidate σ ε) :=
  if !e.1.path.components.isEmpty && e.1.path.reaches x.options root 0 (s :: t) then
    [⟨e.2, e.1, 0⟩]
  else []

theorem standing_cons : x.standing root (s :: t) =
    x.registrations.zipIdx.flatMap fun e => x.carriedOf root s t e ++ x.seededOf root s t e := by
  apply List.flatMap_congr
  intro e _
  rw [SearchPath.stages_cons, List.map_append, List.map_map, carriedOf, goingOn, List.filter_map,
    List.map_map, seededOf]
  congr 1
  split <;> rfl

theorem goingOn_standing :
    x.goingOn s (x.standing root t) = x.registrations.zipIdx.flatMap (x.carriedOf root s t) := by
  rw [goingOn, standing, List.filter_flatMap, List.map_flatMap]
  rfl

theorem length_ne_zero_eq (p : SearchPath) : decide (p.length ≠ 0) = !p.components.isEmpty := by
  cases hp : p.components <;> simp [SearchPath.length, hp]

theorem seedsAt_eq (annotations : List String) : x.seedsAt annotations =
    x.registrations.zipIdx.flatMap fun e =>
      if !e.1.path.components.isEmpty && x.anchors annotations e.1.path then [⟨e.2, e.1, 0⟩]
      else [] := by
  rw [flatMap_ite, seedsAt, seeds, List.filter_map, List.filter_filter]
  refine congrArg _ (List.filter_congr fun ⟨r, i⟩ _ => ?_)
  dsimp only [Function.comp_apply]
  rw [length_ne_zero_eq, Bool.and_comm]

/-- Candidates of several paths, in the order of registration, are merged path by path. -/
theorem merge_flatMap {ks : List (Registration σ ε × Nat)}
    {f g : Registration σ ε × Nat → List (Candidate σ ε)} (hks : ks.Pairwise fun a b => a.2 < b.2)
    (hf : ∀ k ∈ ks, ∀ c ∈ f k, c.order = k.2) (hg : ∀ k ∈ ks, ∀ c ∈ g k, c.order = k.2) :
    merge (ks.flatMap f) (ks.flatMap g) = ks.flatMap fun k => f k ++ g k := by
  unfold merge
  split
  next h =>
    apply List.flatMap_congr
    intro k hk
    have := List.flatMap_eq_nil_iff.mp (List.isEmpty_iff.mp h) k hk
    rw [this, List.append_nil]
  next =>
    split
    next h =>
      apply List.flatMap_congr
      intro k hk
      have := List.flatMap_eq_nil_iff.mp (List.isEmpty_iff.mp h) k hk
      rw [this, List.nil_append]
    next => exact mergeSort_flatMap Candidate.order hks hf hg

/-- The candidates below a child are those that stand there. -/
theorem below_standing :
    x.below s.value.annotations (x.goingOn s (x.standing root t)) = x.standing root (s :: t) := by
  rw [standing_cons, goingOn_standing, below]
  cases h : x.options.relative with
  | false =>
    apply List.flatMap_congr
    intro e _
    simp [seededOf, SearchPath.reaches_zero_cons, h]
  | true =>
    have hseeded : x.seedsAt s.value.annotations =
        x.registrations.zipIdx.flatMap (x.seededOf root s t) := by
      rw [seedsAt_eq]
      apply List.flatMap_congr
      intro e _
      rw [seededOf, SearchPath.reaches_zero_cons, h, Bool.true_and, anchors]
    rw [if_pos rfl, hseeded]
    refine merge_flatMap (pairwise_zipIdx _) (fun e _ c hc => ?_) fun e _ c hc => ?_
    · simp only [carriedOf, goingOn, List.mem_map, List.mem_filter] at hc
      obtain ⟨c, ⟨⟨m, -, rfl⟩, -⟩, rfl⟩ := hc
      rfl
    · simp only [seededOf] at hc
      split at hc
      · rw [List.mem_singleton.mp hc]
      · simp at hc

theorem standing_nil : x.standing root [] = x.seedsAt root.annotations := by
  rw [standing, seedsAt_eq]
  apply List.flatMap_congr
  intro e _
  rw [SearchPath.stages_nil, SearchPath.reaches_zero_nil, anchors]
  split <;> rfl

/-- The walk goes into a container: some path has begun on the way there, or may begin anywhere. -/
def enters (x : Extractor σ ε) (root : Value) (t : Trail) : Bool :=
  !(x.standing root t).isEmpty || x.entersAll

theorem not_enters :
    ((x.standing root t).isEmpty && !x.entersAll) = !x.enters root t := by
  rw [enters, Bool.not_or, Bool.not_not]

theorem entersAll_of_mem (hr : x.options.relative = true) {r : Registration σ ε}
    (h : r ∈ x.registrations) (hne : r.path.components.isEmpty = false) : x.entersAll := by
  obtain ⟨i, hi, rfl⟩ := List.mem_iff_getElem.mp h
  have hseed : (⟨i, x.registrations[i], 0⟩ : Candidate σ ε) ∈ x.seeds := by
    refine List.mem_map.mpr ⟨(x.registrations[i], i), List.mem_filter.mpr ⟨?_, ?_⟩, rfl⟩
    · exact List.mk_mem_zipIdx_iff_getElem?.mpr (List.getElem?_eq_getElem hi)
    · simp only [length_ne_zero_eq, hne, Bool.not_false]
  simpa [entersAll, hr] using List.ne_nil_of_mem hseed

/-- If the walk does not go into a container, no path selects a node below it. -/
theorem selecting_of_not_enters (h : x.enters root t = false) {u : Trail} (hu : s :: t <:+ u) :
    x.selecting root u = [] := by
  obtain ⟨l, rfl⟩ := hu
  simp only [enters, Bool.or_eq_false_iff, Bool.not_eq_false', List.isEmpty_iff] at h
  rw [selecting, List.filter_eq_nil_iff]
  intro r hr hsel
  have hlen : (l ++ s :: t).isEmpty = false := by simp
  simp only [SearchPath.selects, hlen, Bool.and_eq_true, beq_iff_eq] at hsel
  obtain ⟨hne, hreach⟩ := hsel
  cases hrel : x.options.relative with
  | true => exact absurd h.2 (by simp [x.entersAll_of_mem hrel hr hne])
  | false =>
    have hl : r.path.length = t.length + (l ++ [s]).length := by
      simp only [SearchPath.reaches, hrel, Bool.and_eq_true] at hreach
      simpa [Nat.add_comm, Nat.add_left_comm] using hreach.1.1
    rw [List.append_cons, hl] at hreach
    have hlast : r.path.reaches x.options root t.length t :=
      SearchPath.reaches_of_append (by omega) hreach
    have hmem : t.length ∈ r.path.stages x.options root t :=
      List.mem_filter.mpr ⟨by simp [hl], hlast⟩
    obtain ⟨i, hi⟩ := List.mem_iff_getElem?.mp hr
    have hnil := List.flatMap_eq_nil_iff.mp h.1 (r, i) (List.mk_mem_zipIdx_iff_getElem?.mpr hi)
    exact List.ne_nil_of_mem (List.mem_map_of_mem hmem) hnil

end Extractor
end TreePaths
