import Mathlib.Data.List.Nodup
import TreePaths.Proofs.Extraction.Account
import TreePaths.Proofs.Extraction.Sweep
import TreePaths.Proofs.Extraction.Tour

/-!
Which callbacks a run calls, and where: those that a sweep over the document calls.
-/

namespace TreePaths

open TreePaths.Action TreePaths.Effect

variable {σ ε : Type}

namespace Extractor

/-- The places, in the order of registration, of the paths that select a node. -/
def chosen (x : Extractor σ ε) (root : Value) (t : Trail) : List Nat :=
  (x.registrations.zipIdx.filter fun e => e.1.path.selects x.options root t).map (·.2)

end Extractor

theorem Registration.Obedient.steady {base : Nat} {r : Registration σ ε} (h : r.Obedient base) :
    r.Steady := by
  intro s v s' hs
  obtain ⟨n, s'', hn, hsame, -⟩ := h s
  rw [hs] at hn
  exact (Prod.mk.inj hn).2 ▸ hsame

theorem Registration.Steady.logged {r : Registration σ ε} (h : r.Steady) (i : Nat) :
    (r.logged i).Steady := by
  intro s v s' hs
  rw [exec_logged] at hs
  obtain ⟨hv, rfl⟩ := Prod.mk.inj hs
  have hsame := h s.forget v (exec r.callback s.forget).2 (Prod.ext hv rfl)
  exact ⟨hsame.cursor, hsame.indexed⟩

namespace Extractor

variable {x : Extractor σ ε} {base : Nat}

/-- Calling obedient callbacks adds their calls to the account, in their order. -/
theorem exec_callAll_logged {es : List (Registration σ ε × Nat)}
    (hes : ∀ e ∈ es, e.1.Obedient base) (s : Session (σ × List Call)) :
    ∃ (K : List Call) (s' : Session (σ × List Call)),
      exec (callAll base (es.map fun e => e.1.logged e.2)) s =
        (.ok (greatest (K.map Call.count)), s') ∧
      s.SameCursor s' ∧ s'.state.2 = s.state.2 ++ K ∧
      K.map Call.site = es.map (fun e => (e.2, s.cursor)) ∧
      greatest (K.map Call.count) ≤ s.cursor.depth - base := by
  induction es generalizing s with
  | nil => exact ⟨[], s, rfl, ⟨rfl, rfl⟩, by simp, rfl, Nat.zero_le _⟩
  | cons e es ih =>
    obtain ⟨n, s₁, hn, hsame, hle⟩ := hes e List.mem_cons_self s.forget
    obtain ⟨s₂, hs₂, hanswer, -, hinvoke⟩ :=
      Registration.exec_invoke_logged hn hsame (False.elim : False → e.1.Still) base e.2
    have hle : n ≤ s.cursor.depth - base := hle
    rw [Registration.checkCount_eq_ok.mpr ⟨rfl, hle⟩] at hinvoke
    let k := e.1.call e.2 s.forget
    have hcount : k.count = n := by
      rw [Call.count, hanswer]
      rfl
    obtain ⟨K, s', hK, hsame', hlog, hsite, hmax⟩ :=
      ih (fun e he => hes e (List.mem_cons_of_mem _ he)) s₂
    refine ⟨k :: K, s', ?_, ?_, ?_, ?_, ?_⟩
    · rw [List.map_cons, callAll, exec_bind_ok hinvoke, exec_bind_ok hK, List.map_cons, hcount]
      rfl
    · exact ⟨hsame'.cursor.trans hs₂.cursor, hsame'.indexed.trans hs₂.indexed⟩
    · rw [hlog, hs₂.account]
      exact List.append_assoc _ _ _
    · rw [List.map_cons, hsite, hs₂.cursor]
      rfl
    · rw [hs₂.cursor] at hmax
      rw [List.map_cons, hcount]
      exact Nat.max_le.mpr ⟨hle, hmax⟩

/-- These calls are the ones that a sweep makes on some nodes of the container at `t`, if in the end
`n` containers around its children are left, whatever nodes come after it. -/
def Sweeps (x : Extractor σ ε) (c : Cursor) (root : Value) (t : Trail) (nodes : List Trail)
    (n : Nat) (K : List Call) : Prop :=
  ∃ P : List (Nat × Trail), K.map Call.site = P.map (fun e => (e.1, c.along root e.2)) ∧
    ∀ rest more, (∀ w ∈ rest, ¬w.Under t) →
      sweep (x.chosen root) (nodes ++ rest) (K.map Call.count ++ more) =
        P ++ sweep (x.chosen root) (rest.filter fun w => ¬w.Under (t.drop n)) more

namespace Sweeps

variable {c : Cursor} {root v : Value} {t : Trail} {i n m : Nat} {p : Position}
  {es : List (Position × Value)} {K K₀ K₁ : List Call}

def At (x : Extractor σ ε) (c : Cursor) (root : Value) (u : Trail) (K : List Call) : Prop :=
  K.map Call.site = (x.chosen root u).map fun i => (i, c.along root u)

theorem At.length_eq {u : Trail} (h : At x c root u K) :
    (K.map Call.count).length = (x.chosen root u).length := by
  simpa using congrArg List.length h

theorem At.sweep {u : Trail} (h : At x c root u K) (later : List Trail) (more : List Nat) :
    TreePaths.sweep (x.chosen root) (u :: later) (K.map Call.count ++ more) =
      (x.chosen root u).map (·, u) ++
        TreePaths.sweep (x.chosen root) (u.leave (greatest (K.map Call.count)) later) more :=
  sweep_cons h.length_eq

theorem At.site {u : Trail} (h : At x c root u K) : K.map Call.site =
    ((x.chosen root u).map (·, u)).map fun e => (e.1, c.along root e.2) := by
  rw [h, List.map_map]
  rfl

theorem nil : Sweeps x c root t [] 0 [] :=
  ⟨[], rfl, fun rest more hrest => by rw [List.drop_zero, Trail.filter_not_under hrest]; rfl⟩

/-- The callbacks at a child leave containers. -/
theorem leave (h₀ : At x c root (⟨i, p, v⟩ :: t) K₀) (hn : greatest (K₀.map Call.count) ≠ 0) :
    Sweeps x c root t (t.forest i ((p, v) :: es)) (greatest (K₀.map Call.count) - 1) K₀ := by
  refine ⟨_, h₀.site, fun rest more _ => ?_⟩
  rw [Trail.forest, List.cons_append, h₀.sweep, Trail.leave_cons hn, List.append_assoc]
  have hbelow : ∀ w ∈ Trail.forest (⟨i, p, v⟩ :: t) 0 v.bare.children,
      w.Under (t.drop (greatest (K₀.map Call.count) - 1)) :=
    fun w hw => Trail.under_drop_of_mem_forest hw (greatest (K₀.map Call.count) - 1 + 1)
  rw [Trail.filter_append_of_under hbelow, Trail.filter_forest_append]

/-- Nothing is left at a child, and nothing below it is selected. -/
theorem pass (h₀ : At x c root (⟨i, p, v⟩ :: t) K₀) (hn : greatest (K₀.map Call.count) = 0)
    (hnone : ∀ w ∈ Trail.forest (⟨i, p, v⟩ :: t) 0 v.bare.children, x.chosen root w = [])
    (h : Sweeps x c root t (t.forest (i + 1) es) n K) :
    Sweeps x c root t (t.forest i ((p, v) :: es)) n (K₀ ++ K) := by
  obtain ⟨P, hP, h⟩ := h
  refine ⟨(x.chosen root _).map (·, _) ++ P, by rw [List.map_append, h₀.site, hP, List.map_append],
    fun rest more hrest => ?_⟩
  rw [Trail.forest, List.map_append, List.append_assoc, List.cons_append, h₀.sweep, hn,
    Trail.leave, if_pos rfl, List.append_assoc, sweep_append_of_not_chosen hnone, h rest more hrest,
    List.append_assoc]

/-- Nothing is left at a child, but callbacks below it leave containers around it. -/
theorem up (h₀ : At x c root (⟨i, p, v⟩ :: t) K₀) (hn : greatest (K₀.map Call.count) = 0)
    (hm : m ≠ 0)
    (h : Sweeps x c root (⟨i, p, v⟩ :: t) (Trail.forest (⟨i, p, v⟩ :: t) 0 v.bare.children) m K) :
    Sweeps x c root t (t.forest i ((p, v) :: es)) (m - 1) (K₀ ++ K) := by
  obtain ⟨P, hP, h⟩ := h
  refine ⟨(x.chosen root _).map (·, _) ++ P, by rw [List.map_append, h₀.site, hP, List.map_append],
    fun rest more hrest => ?_⟩
  obtain ⟨m, rfl⟩ := Nat.exists_eq_add_one_of_ne_zero hm
  rw [Trail.forest, List.map_append, List.append_assoc, List.cons_append, h₀.sweep, hn,
    Trail.leave, if_pos rfl, List.append_assoc, h _ more (Trail.not_under_of_later hrest),
    List.drop_succ_cons, Trail.filter_forest_append, List.append_assoc, Nat.add_sub_cancel]

/-- Nothing is left at a child nor below it. -/
theorem through (h₀ : At x c root (⟨i, p, v⟩ :: t) K₀) (hn : greatest (K₀.map Call.count) = 0)
    (h₁ : Sweeps x c root (⟨i, p, v⟩ :: t) (Trail.forest (⟨i, p, v⟩ :: t) 0 v.bare.children) 0 K₁)
    (h : Sweeps x c root t (t.forest (i + 1) es) n K) :
    Sweeps x c root t (t.forest i ((p, v) :: es)) n (K₀ ++ (K₁ ++ K)) := by
  obtain ⟨P₁, hP₁, h₁⟩ := h₁
  obtain ⟨P, hP, h⟩ := h
  refine ⟨(x.chosen root (⟨i, p, v⟩ :: t)).map (·, ⟨i, p, v⟩ :: t) ++ (P₁ ++ P), ?_,
    fun rest more hrest => ?_⟩
  · rw [List.map_append, List.map_append, h₀.site, hP₁, hP, List.map_append, List.map_append]
  have hlater : ∀ w ∈ t.forest (i + 1) es ++ rest, ¬w.Under (⟨i, p, v⟩ :: t) :=
    Trail.not_under_of_later hrest
  rw [Trail.forest, List.map_append, List.append_assoc, List.cons_append, h₀.sweep, hn,
    Trail.leave, if_pos rfl, List.append_assoc, List.map_append, List.append_assoc, h₁ _ _ hlater,
    List.drop_zero, Trail.filter_not_under hlater, h rest more hrest]
  simp only [List.append_assoc]

end Sweeps

def selected (x : Extractor σ ε) (root : Value) (t : Trail) : List (Registration σ ε × Nat) :=
  x.registrations.zipIdx.filter fun e => e.1.path.selects x.options root t

theorem Obedient.selected (hx : ∀ r ∈ x.registrations, r.Obedient base) (root : Value) (t : Trail) :
    ∀ e ∈ x.selected root t, e.1.Obedient base := by
  intro e he
  exact hx e.1 (List.fst_mem_of_mem_zipIdx (List.mem_of_mem_filter he))

theorem Steady.logged (hx : x.Steady) : x.logged.Steady := by
  intro r hr
  obtain ⟨e, he, rfl⟩ := List.mem_map.mp hr
  exact (hx e.1 (List.fst_mem_of_mem_zipIdx he)).logged e.2

theorem selecting_logged (x : Extractor σ ε) (root : Value) (t : Trail) :
    x.logged.selecting root t = (x.selected root t).map fun e => e.1.logged e.2 := by
  rw [selecting, logged, recast, List.filter_map]
  rfl

theorem chosen_eq_nil {root : Value} {t : Trail} (h : x.selecting root t = []) :
    x.chosen root t = [] := by
  rw [selecting, ← map_fst_filter_zipIdx, List.map_eq_nil_iff] at h
  rw [chosen, h, List.map_nil]

theorem enters_logged (x : Extractor σ ε) (root : Value) (t : Trail) :
    x.logged.enters root t = x.enters root t := by
  have hstanding : x.logged.standing root t = (x.standing root t).map
      (Candidate.recast ⟨Registration.logged, Registration.path_logged⟩) := by
    rw [standing, logged, recast, zipIdx_map_zipIdx, List.flatMap_map, standing, List.map_flatMap]
    apply List.flatMap_congr
    intro e _
    rw [List.map_map]
    rfl
  rw [enters, enters, hstanding, List.isEmpty_map, logged, entersAll_recast]

/-- No path selects a node below one that is not entered. -/
theorem chosen_of_not_enters {root : Value} {t : Trail}
    (h : ((t.value root).bare.isContainer && x.enters root t) = false) :
    ∀ w ∈ t.forest 0 (t.value root).bare.children, x.chosen root w = [] := by
  intro w hw
  rcases Bool.and_eq_false_iff.mp h with h | h
  · rw [Value.children_of_not_isContainer h, Trail.forest] at hw
    cases hw
  · obtain ⟨s, -, hw⟩ := Trail.suffix_of_mem_forest hw
    exact chosen_eq_nil (x.selecting_of_not_enters root s t h hw)

/-- The tour goes to the next child, and the callbacks are called there. -/
theorem exec_callAll_child {c : Cursor} (hx : ∀ r ∈ x.registrations, r.Obedient c.depth)
    {root v : Value} {t : Trail} {i : Nat} {p : Position} {s : Session (σ × List Call)}
    (hs : s.cursor = (c.along root t).inside (t.value root) i)
    (hi : (t.value root).bare.children[i]? = some (p, v)) :
    ∃ (K : List Call) (s₂ : Session (σ × List Call)),
      exec (callAll c.depth (x.logged.selecting root (⟨i, p, v⟩ :: t)))
          (moved s .next s.cursor.next) = (.ok (greatest (K.map Call.count)), s₂) ∧
        s₂.cursor = c.along root (⟨i, p, v⟩ :: t) ∧ s₂.state.2 = s.state.2 ++ K ∧
        Sweeps.At x c root (⟨i, p, v⟩ :: t) K ∧ greatest (K.map Call.count) ≤ t.length + 1 := by
  have hnext : s.cursor.next = c.along root (⟨i, p, v⟩ :: t) := by
    rw [hs, Cursor.next_inside hi]
    rfl
  obtain ⟨K, s₂, hcall, hsame, hlog, hsite, hmax⟩ :=
    exec_callAll_logged (Obedient.selected hx root (⟨i, p, v⟩ :: t)) (moved s .next s.cursor.next)
  rw [cursor_moved, hnext] at hsite hmax
  rw [Cursor.depth_along, List.length_cons] at hmax
  refine ⟨K, s₂, by rw [selecting_logged, hcall], hsame.cursor.trans hnext, hlog, ?_, by omega⟩
  rw [Sweeps.At, hsite, chosen, List.map_map]
  rfl

/-- The calls of a tour are those of a sweep. -/
theorem exec_tour_logged {c : Cursor} (hx : ∀ r ∈ x.registrations, r.Obedient c.depth)
    {root : Value} {t : Trail} {i : Nat} {es : List (Position × Value)}
    {s : Session (σ × List Call)} (hs : s.cursor = (c.along root t).inside (t.value root) i)
    (hes : (t.value root).bare.children.drop i = es) (hfin : (t.value root).isFinite) :
    ∃ (n : Nat) (s' : Session (σ × List Call)) (K : List Call),
      exec (x.logged.tour c.depth root t i es) s = (.ok n, s') ∧
      n ≤ t.length ∧ s'.state.2 = s.state.2 ++ K ∧ Sweeps x c root t (t.forest i es) n K := by
  fun_induction tour x.logged c.depth root t i es generalizing s with
  | case1 t i =>
    refine ⟨0, _, [], exec_bind_ok (exec_next s), Nat.zero_le _, (List.append_nil _).symm, ?_⟩
    rw [Trail.forest]
    exact Sweeps.nil
  | case2 t i p v es ihv ihes =>
    obtain ⟨hi, hd⟩ := Trail.getElem?_of_drop hes
    have hv : v.isFinite := Value.isFinite_of_mem_children hfin (List.mem_of_getElem? hi)
    obtain ⟨K₀, s₂, hcall, hs₂, hlog, h₀, hle⟩ := exec_callAll_child hx hs hi
    rw [exec_bind_ok (exec_next s), exec_bind_ok hcall]
    -- One rule of `Sweeps` for each way on: nothing below is entered, the tour below comes back to
    -- the child, it leaves more than the child, or the callbacks at the child do.
    rcases Nat.eq_zero_or_pos (greatest (K₀.map Call.count)) with hzero | hpos
    · rw [if_neg (by omega)]
      cases hin : v.bare.isContainer && x.logged.enters root (⟨i, p, v⟩ :: t) with
      | false =>
        obtain ⟨n, s', K, hK, hn, hlog', hsweep⟩ := ihes hs₂ hd hfin
        rw [enters_logged] at hin
        refine ⟨n, s', K₀ ++ K, hK, hn, ?_, .pass h₀ hzero (chosen_of_not_enters hin) hsweep⟩
        rw [hlog', hlog, List.append_assoc]
      | true =>
        have hstep : s₂.cursor.stepIn = .ok ((c.along root (⟨i, p, v⟩ :: t)).inside v 0) := by
          rw [hs₂]
          exact Cursor.stepIn_of_current? (Cursor.current?_inside hi)
            (Bool.and_eq_true_iff.mp hin).1 hv
        have htour := ihv (s := moved s₂ .stepIn ((c.along root (⟨i, p, v⟩ :: t)).inside v 0))
          rfl rfl hv
        obtain ⟨m, s₃, K₁, hK₁, hm, hlog₁, hsweep₁⟩ := htour
        have hlog₃ : s₃.state.2 = s.state.2 ++ (K₀ ++ K₁) := by
          rw [hlog₁, state_moved, hlog, List.append_assoc]
        have hsteady : x.Steady := fun r hr => (hx r hr).steady
        have hout : s₃.cursor.stepOut = .ok (c.along root (⟨i, p, v⟩ :: t)) :=
          Cursor.stepOut_of_outer (tour_outer hsteady.logged hK₁).1
        rw [if_pos rfl, exec_bind_ok (exec_stepIn hstep), exec_bind_ok hK₁,
          exec_bind_ok (exec_stepOut hout)]
        rcases Nat.eq_zero_or_pos m with rfl | hmpos
        · rw [if_neg (by omega)]
          obtain ⟨n, s', K, hK, hn, hlog', hsweep⟩ :=
            ihes (s := moved s₃ .stepOut (c.along root (⟨i, p, v⟩ :: t))) rfl hd hfin
          refine ⟨n, s', K₀ ++ (K₁ ++ K), hK, hn, ?_, .through h₀ hzero hsweep₁ hsweep⟩
          rw [hlog', state_moved, hlog₃, List.append_assoc, List.append_assoc]
        · rw [if_pos hmpos]
          have hmle : m - 1 ≤ t.length := Nat.sub_le_of_le_add hm
          exact ⟨_, _, K₀ ++ K₁, rfl, hmle, hlog₃, .up h₀ hzero hmpos.ne' hsweep₁⟩
    · rw [if_pos hpos, exec_bind_ok (exec_log _ _)]
      refine ⟨_, _, K₀, rfl, by omega, hlog, .leave h₀ (by omega)⟩

/-- With obedient callbacks a tour makes the calls of a sweep over the value and all nodes below it.
-/
theorem exec_tourAll_logged {root : Value} {s : Session (σ × List Call)}
    (hx : ∀ r ∈ x.registrations, r.Obedient s.cursor.depth) (hs : s.cursor.current? = some root)
    (hfin : root.isFinite) :
    ∃ (s' : Session (σ × List Call)) (K : List Call),
      exec (x.logged.tourAll s.cursor.depth root) s = (.ok (), s') ∧
      s'.state.2 = s.state.2 ++ K ∧
      K.map Call.site = (sweep (x.chosen root) ([] :: root.preorder) (K.map Call.count)).map
        fun e => (e.1, s.cursor.along root e.2) := by
  obtain ⟨K₀, s₁, hcall, hsame, hlog, hsite, hmax⟩ :=
    exec_callAll_logged (Obedient.selected hx root []) s
  have h₀ : Sweeps.At x s.cursor root [] K₀ := by
    rw [Sweeps.At, hsite, chosen, List.map_map]
    rfl
  -- No container is left at the start.
  have hzero : greatest (K₀.map Call.count) = 0 := by omega
  have hnodes (more : List Nat) : sweep (x.chosen root) ([] :: root.preorder)
      (K₀.map Call.count ++ more) =
        (x.chosen root []).map (·, []) ++ sweep (x.chosen root) root.preorder more := by
    rw [h₀.sweep, hzero, Trail.leave, if_pos rfl]
  rw [tourAll, selecting_logged, exec_bind_ok hcall]
  cases hin : root.bare.isContainer && x.logged.enters root [] with
  | false =>
    rw [enters_logged] at hin
    have hnone : ∀ w ∈ root.preorder, x.chosen root w = [] := chosen_of_not_enters (t := []) hin
    have hrest : sweep (x.chosen root) (root.preorder ++ []) [] = _ :=
      sweep_append_of_not_chosen hnone
    refine ⟨s₁, K₀, rfl, hlog, ?_⟩
    rw [List.append_nil] at hrest
    rw [h₀.site, ← List.append_nil (K₀.map Call.count), hnodes, hrest, sweep, List.append_nil]
  | true =>
    have hstep : s₁.cursor.stepIn = .ok (s.cursor.inside root 0) := by
      rw [hsame.cursor]
      exact Cursor.stepIn_of_current? hs (Bool.and_eq_true_iff.mp hin).1 hfin
    have htour := exec_tour_logged (t := []) (i := 0) hx
      (s := moved s₁ .stepIn (s.cursor.inside root 0)) rfl rfl hfin
    obtain ⟨n, s₂, K, hK, hn, hlog₂, P, hP, hsweep⟩ := htour
    have hsteady : x.Steady := fun r hr => (hx r hr).steady
    have hout : s₂.cursor.stepOut = .ok s.cursor :=
      Cursor.stepOut_of_outer (tour_outer hsteady.logged hK).1
    refine ⟨moved s₂ .stepOut s.cursor, K₀ ++ K, ?_, ?_, ?_⟩
    · rw [if_pos rfl, exec_bind_ok (exec_stepIn hstep)]
      exact (exec_bind_ok hK).trans (exec_stepOut hout)
    · rw [state_moved, hlog₂, state_moved, hlog, List.append_assoc]
    · have hall : sweep (x.chosen root) (root.preorder ++ []) (K.map Call.count ++ []) = _ :=
        hsweep [] [] fun w hw => absurd hw List.not_mem_nil
      rw [List.append_nil, List.append_nil, List.filter_nil, sweep, List.append_nil] at hall
      rw [List.map_append, List.map_append, h₀.site, hP, hnodes, hall, List.map_append]

/-- A run whose callbacks always behave succeeds and makes the calls of a sweep over the
document. -/
theorem run_of_obedient {root : Value} {s : Session σ}
    (hx : ∀ r ∈ x.registrations, r.Obedient s.cursor.depth) (hs : s.cursor.current? = some root)
    (hfin : root.isFinite) (hstart : s.cursor.depth = 0 ∨ x.options.relative) :
    (exec x.run s).1 = .ok () ∧ (x.calls s).map Call.site =
      (sweep (x.chosen root) ([] :: root.preorder) ((x.calls s).map Call.count)).map
        fun e => (e.1, s.cursor.along root e.2) := by
  have hsteady : x.Steady := fun r hr => (hx r hr).steady
  obtain ⟨s', K, hK, hlog, hsite⟩ :=
    exec_tourAll_logged (s := s.withState (s.state, [])) hx hs hfin
  have hrun : exec x.logged.run (s.withState (s.state, [])) = (.ok (), s') :=
    (run_eq_tour hsteady.logged hs hfin hstart).trans hK
  have hcalls : x.calls s = K := by rw [calls, hrun, hlog, Session.withState, List.nil_append]
  rw [exec_run_logged] at hrun
  rw [hcalls]
  exact ⟨(Prod.mk.inj hrun).1, hsite⟩

theorem chosen_tamed (x : Extractor σ ε) (base : Nat) : (x.tamed base).chosen = x.chosen := by
  funext root t
  rw [chosen, tamed, recast, zipIdx_map_zipIdx, List.filter_map, List.map_map, chosen]
  rfl

theorem leads_of_mem_nodes {root : Value} {t : Trail} (ht : t ∈ [] :: root.preorder) :
    t.Leads root := by
  rcases List.mem_cons.mp ht with rfl | ht
  · trivial
  · exact (Value.mem_preorder.mp ht).2

section Legal

variable {root : Value} {s : Session σ} (hs : s.cursor.current? = some root) (hfin : root.isFinite)
  (hstart : s.cursor.depth = 0 ∨ x.options.relative)
  (hlegal : ∀ k ∈ x.calls s, k.Legal s.cursor.depth)

include hs hfin hstart

theorem run_tamed :
    (exec (x.tamed s.cursor.depth).run s).1 = .ok () ∧
      ((x.tamed s.cursor.depth).calls s).map Call.site =
        (sweep ((x.tamed s.cursor.depth).chosen root) ([] :: root.preorder)
          (((x.tamed s.cursor.depth).calls s).map Call.count)).map
            fun e => (e.1, s.cursor.along root e.2) := by
  refine run_of_obedient (fun r hr => ?_) hs hfin hstart
  obtain ⟨e, -, rfl⟩ := List.mem_map.mp hr
  exact Registration.obedient_tamed _ _

/-- A run whose callbacks behave on the nodes of the document succeeds and makes the calls of a
sweep over the document. What they do elsewhere does not matter. -/
theorem run_of_behaves (hx : ∀ r ∈ x.registrations, ∀ (u : Session σ) (t : Trail), t.Leads root →
    u.cursor = s.cursor.along root t → r.Behaves s.cursor.depth u) :
    (exec x.run s).1 = .ok () ∧ (x.calls s).map Call.site =
      (sweep (x.chosen root) ([] :: root.preorder) ((x.calls s).map Call.count)).map
        fun e => (e.1, s.cursor.along root e.2) := by
  obtain ⟨hok, hsites⟩ := run_tamed (x := x) hs hfin hstart
  have hnode : ∀ k ∈ (x.tamed s.cursor.depth).calls s,
      ∃ t : Trail, t.Leads root ∧ k.before.cursor = s.cursor.along root t := by
    intro k hk
    have hmem := List.mem_map_of_mem (f := Call.site) hk
    rw [hsites] at hmem
    obtain ⟨e, he, hsite⟩ := List.mem_map.mp hmem
    exact ⟨e.2, leads_of_mem_nodes (mem_of_mem_sweep he), (Prod.mk.inj hsite).2.symm⟩
  have hsame := x.calls_recast_of_mem (g := ⟨fun _ r => r, fun _ _ => rfl⟩)
    (fun e he u ⟨t, ht, hu⟩ => (Registration.exec_tamed
      (hx e.1 (List.fst_mem_of_mem_zipIdx he) u t ht hu)).symm) hnode
  rw [recast_self, ← tamed] at hsame
  rw [hsame.1, hsame.2, ← chosen_tamed]
  exact ⟨hok, hsites⟩

include hlegal

theorem run_of_legal : (exec x.run s).1 = .ok () := by
  rw [← (x.calls_tamed hlegal).2]
  exact (run_tamed hs hfin hstart).1

/-- A run of which all calls are legal makes the calls of a sweep over the document. -/
theorem sites_of_legal : (x.calls s).map Call.site =
    (sweep (x.chosen root) ([] :: root.preorder) ((x.calls s).map Call.count)).map
      fun e => (e.1, s.cursor.along root e.2) := by
  have h := (run_tamed hs hfin hstart).2
  rw [(x.calls_tamed hlegal).1, chosen_tamed] at h
  exact h

end Legal

/-- What an extractor selects: the nodes of the document in pre-order, and for each of them the
paths that select it, in the order of registration. -/
def selections (x : Extractor σ ε) (root : Value) : List (Nat × Trail) :=
  ([] :: root.preorder).flatMap fun t => (x.chosen root t).map (·, t)

theorem nodup_chosen (x : Extractor σ ε) (root : Value) (t : Trail) : (x.chosen root t).Nodup := by
  have hplaces : (x.registrations.zipIdx.map (·.2)).Nodup := by
    rw [List.zipIdx_map_snd]
    exact List.nodup_range'
  exact hplaces.sublist (List.filter_sublist.map _)

theorem nodup_selections (x : Extractor σ ε) (root : Value) :
    ((x.selections root).map fun e => (e.1, e.2.address)).Nodup := by
  rw [selections, List.map_flatMap, List.nodup_flatMap]
  refine ⟨fun t _ => ?_, (List.pairwise_map.mp root.nodup_addresses_nodes).imp fun {t u} htu => ?_⟩
  · rw [List.map_map]
    exact (x.nodup_chosen root t).map fun i j h => (Prod.mk.inj h).1
  · simp only [Function.onFun, List.map_map]
    rintro e ht hu
    obtain ⟨i, -, rfl⟩ := List.mem_map.mp ht
    obtain ⟨j, -, h⟩ := List.mem_map.mp hu
    exact htu (Prod.mk.inj h).2.symm

theorem leads_of_mem_selections {x : Extractor σ ε} {root : Value} {e : Nat × Trail}
    (he : e ∈ x.selections root) : e.2.Leads root := by
  obtain ⟨t, ht, he⟩ := List.mem_flatMap.mp he
  obtain ⟨i, -, rfl⟩ := List.mem_map.mp he
  exact leads_of_mem_nodes ht

def Sample.document : Value :=
  .struct [("a", .list [.int 1, .annotated (.int 2) ["unit"]]), ("a", .list [.int 3])]

/-- Three paths in relative mode. What their callbacks return depends on how often any of them has
been called. -/
def Sample.extractor (answer : Nat → Cursor → Nat) : Extractor Nat Empty where
  registrations :=
    [⟨[], [⟨.field "a", []⟩, ⟨.index 0, []⟩]⟩, ⟨[], []⟩, ⟨[], [⟨.wildcard, ["unit"]⟩]⟩].map
      fun p => ⟨p, fun s => (.ok (.int (answer s.state s.cursor)), { s with state := s.state + 1 })⟩
  options := { relative := true }

theorem Sample.exec_callback {answer : Nat → Cursor → Nat} :
    ∀ e ∈ (Sample.extractor answer).registrations.zipIdx, ∀ s,
      exec e.1.callback s =
        (.ok (.int (answer s.state s.cursor)), { s with state := s.state + 1 }) := by
  intro e he s
  simp only [Sample.extractor, List.map_cons, List.map_nil, List.zipIdx_cons, List.zipIdx_nil,
    List.mem_cons, List.not_mem_nil, or_false] at he
  rcases he with rfl | rfl | rfl <;> rfl

/-- If no callback moves the cursor or asks to leave anything, a run calls the callbacks of exactly
the paths and nodes selected, once each and in this order, with the cursor on the node. -/
theorem calls_eq_selections {root : Value} (hfin : root.isFinite) {indexed : Bool} {state : σ}
    (hidle : ∀ k ∈ x.calls (.start root indexed state), k.Idle) :
    (exec x.run (.start root indexed state)).1 = .ok () ∧
      (x.calls (.start root indexed state)).map Call.site =
        (x.selections root).map (fun e => (e.1, (Cursor.ofRoot root).along root e.2)) ∧
      (∀ e ∈ x.selections root,
        ((Cursor.ofRoot root).along root e.2).current? = some (e.2.value root)) ∧
      ((x.selections root).map fun e => (e.1, e.2.address)).Nodup := by
  have hs : (Cursor.ofRoot root).current? = some root := rfl
  have hlegal : ∀ k ∈ x.calls (.start root indexed state), k.Legal (Cursor.ofRoot root).depth :=
    fun k hk => (hidle k hk).legal _
  have hzero : ∀ n ∈ (x.calls (.start root indexed state)).map Call.count, n = 0 := by
    intro n hn
    obtain ⟨k, hk, rfl⟩ := List.mem_map.mp hn
    exact (hidle k hk).count
  refine ⟨run_of_legal hs hfin (.inl rfl) hlegal, ?_, fun e he => ?_, x.nodup_selections root⟩
  · rw [sites_of_legal hs hfin (.inl rfl) hlegal, sweep_of_forall_zero hzero, selections]
    rfl
  · exact Cursor.current?_along hs (leads_of_mem_selections he)

theorem calls_eq_selections_sample :
    (Sample.document.isFinite ∧
      ∀ k ∈ (Sample.extractor fun _ _ => 0).calls (.start Sample.document false 0), k.Idle) ∧
    ((Sample.extractor fun _ _ => 0).calls (.start Sample.document false 0)).map Call.site =
      ((Sample.extractor fun _ _ => 0).selections Sample.document).map
        (fun e => (e.1, (Cursor.ofRoot Sample.document).along Sample.document e.2)) := by
  have hidle : ∀ k ∈ (Sample.extractor fun _ _ => 0).calls (.start Sample.document false 0),
      k.Idle := by
    refine forall_mem_calls _ _ fun e he s => ?_
    rw [Call.Idle, Registration.call, Sample.exec_callback e he s]
    exact ⟨⟨rfl, rfl⟩, rfl⟩
  exact ⟨⟨rfl, hidle⟩, (calls_eq_selections rfl hidle).2.1⟩

/-- If each call leaves the cursor alone and asks to leave no more containers than there are around
the node, a run calls the callbacks that a sweep over the document calls: at each node all paths
that select it, in the order of registration, and after it the next node that is not in a container
left. -/
theorem calls_eq_sweep {root : Value} {s : Session σ} (hs : s.cursor.current? = some root)
    (hfin : root.isFinite) (hstart : s.cursor.depth = 0 ∨ x.options.relative)
    (hlegal : ∀ k ∈ x.calls s, k.Legal s.cursor.depth) :
    (exec x.run s).1 = .ok () ∧ (x.calls s).map Call.site =
      (sweep (x.chosen root) ([] :: root.preorder) ((x.calls s).map Call.count)).map
        fun e => (e.1, s.cursor.along root e.2) :=
  ⟨run_of_legal hs hfin hstart hlegal, sites_of_legal hs hfin hstart hlegal⟩

theorem calls_eq_sweep_sample :
    ((Cursor.ofRoot Sample.document).current? = some Sample.document ∧ Sample.document.isFinite ∧
      ∀ k ∈ (Sample.extractor fun n c => min n c.depth).calls (.start Sample.document true 0),
        k.Legal 0) ∧
    ((Sample.extractor fun n c => min n c.depth).calls (.start Sample.document true 0)).map
        Call.site =
      (sweep ((Sample.extractor fun n c => min n c.depth).chosen Sample.document)
        ([] :: Sample.document.preorder)
        (((Sample.extractor fun n c => min n c.depth).calls
          (.start Sample.document true 0)).map Call.count)).map
            fun e => (e.1, (Cursor.ofRoot Sample.document).along Sample.document e.2) := by
  have hlegal : ∀ k ∈ (Sample.extractor fun n c => min n c.depth).calls
      (.start Sample.document true 0), k.Legal 0 := by
    refine forall_mem_calls _ _ fun e he s => Registration.legal_call.mpr ?_
    exact ⟨_, _, Sample.exec_callback e he s, ⟨rfl, rfl⟩, min_le_right _ _⟩
  exact ⟨⟨rfl, rfl, hlegal⟩, (calls_eq_sweep rfl rfl (.inl rfl) hlegal).2⟩

end Extractor
end TreePaths
