import TreePaths.Proofs.Cursor.Motion
import TreePaths.Proofs.Extraction.Permutation
import TreePaths.Proofs.Value.Rendering

/-!
Runs in lockstep: two documents of one shape, paths that select the same nodes of them, and
callbacks that leave the cursor alone and answer by the number of the call. The runs make the same
moves and the same calls and have the same end.
-/

namespace TreePaths

open TreePaths.Action TreePaths.Effect

variable {σ ε α β : Type}

theorem forall₂_zipIdx {α β : Type} {R : α → β → Prop} {l : List α} {m : List β}
    (h : List.Forall₂ R l m) (n : Nat) :
    List.Forall₂ (fun a b => R a.1 b.1 ∧ b.2 = a.2) (l.zipIdx n) (m.zipIdx n) := by
  induction h generalizing n with
  | nil => exact .nil
  | cons hab _ ih => exact .cons ⟨hab, rfl⟩ (ih (n + 1))

theorem map_eq_of_forall₂ {α β γ : Type} {R : α → β → Prop} {l : List α} {m : List β} {f : α → γ}
    {g : β → γ} (h : List.Forall₂ R l m) (hfg : ∀ a b, R a b → g b = f a) : m.map g = l.map f := by
  induction h with
  | nil => rfl
  | cons hab _ ih => rw [List.map_cons, List.map_cons, ih, hfg _ _ hab]

theorem isEmpty_of_length_eq {α β : Type} {l : List α} {m : List β} (h : l.length = m.length) :
    l.isEmpty = m.isEmpty := by
  rw [Bool.eq_iff_iff, List.isEmpty_iff_length_eq_zero, List.isEmpty_iff_length_eq_zero, h]

def Violation.reword (f : SearchPath → SearchPath) : Violation → Violation
  | returnType p typeName => returnType (f p) typeName
  | v => v

def Failure.reword (f : SearchPath → SearchPath) : Failure ε → Failure ε
  | violation v => .violation (v.reword f)
  | e => e

/-- Under another path a count is accepted or refused as before, but the refusal tells the other
path. -/
theorem Registration.checkCount_of_path {r q : Registration σ ε} {f : SearchPath → SearchPath}
    (h : q.path = f r.path) (limit : Nat) (v : Value) :
    q.checkCount limit v = (r.checkCount limit v).mapError (Failure.reword f) := by
  cases v with
  | int n =>
    rw [checkCount, checkCount]
    split
    · rfl
    split <;> rfl
  | _ => exact congrArg (fun p => Except.error (Failure.violation (.returnType p _))) h

structure Rewording (o o' : Options) extends Rendering where
  path : SearchPath → SearchPath
  relative : o'.relative = o.relative
  length : ∀ p, (path p).length = p.length
  reaches : ∀ p root m t,
    (path p).reaches o' (value root) m (toRendering.trail t) = p.reaches o root m t

namespace Rewording

def same (o : Options) : Rewording o o where
  toRendering := .same
  path p := p
  relative := rfl
  length _ := rfl
  reaches p root m t := by rw [Rendering.trail_same]; rfl

variable {o o' : Options} (w : Rewording o o') (p : SearchPath) (root : Value) (t : Trail)

theorem components_isEmpty : (w.path p).components.isEmpty = p.components.isEmpty :=
  isEmpty_of_length_eq (w.length p)

theorem selects : (w.path p).selects o' (w.value root) (w.trail t) = p.selects o root t := by
  rw [SearchPath.selects, SearchPath.selects, w.components_isEmpty, w.length, w.reaches,
    Rendering.trail, List.isEmpty_map]

theorem stages : (w.path p).stages o' (w.value root) (w.trail t) = p.stages o root t := by
  rw [SearchPath.stages, SearchPath.stages, w.length]
  exact List.filter_congr fun m _ => w.reaches p root m t

end Rewording

structure Rendering.Corresponds (w : Rendering) (root : Value) (c d : Cursor) (k l : Call) :
    Prop where
  order : l.order = k.order
  answer : l.answer = k.answer
  site : ∃ t, t.Leads root ∧ k.before.cursor = c.along root t ∧
    l.before.cursor = d.along (w.value root) (w.trail t)

def Cursor.Within (c : Cursor) (root : Value) (d : Cursor) : Prop :=
  d = c ∨ ∃ t n, t.Leads root ∧ d = (c.along root t).inside (t.value root) n

theorem Cursor.within_along {c : Cursor} {root : Value} {t : Trail} (h : t.Leads root) :
    c.Within root (c.along root t) := by
  cases t with
  | nil => exact .inl rfl
  | cons s t => exact .inr ⟨t, s.ordinal + 1, h.1, rfl⟩

theorem Cursor.within_inside_next {c : Cursor} {root : Value} {t : Trail} (h : t.Leads root)
    (n : Nat) : c.Within root ((c.along root t).inside (t.value root) n).next :=
  .inr ⟨t, min (n + 1) ((Frame.opened (t.value root).bare).entries.length + 1), h, rfl⟩

/-- Moves, the latest first, that never take the cursor out of the value on which it stands. -/
def Cursor.Confined (c : Cursor) (root : Value) (ms : List Move) : Prop :=
  ∀ ns, ns <:+ ms → c.Within root (c.afterAll ns.reverse)

/-- What the callback answers depends on how many calls there were before, as the state tells, and
the cursor stays where it is. Nothing is asked of it off the values of a finite document. -/
structure Registration.Numbered (clock : σ → Nat) (answer : Nat → Value) (r : Registration σ ε) :
    Prop where
  steady : r.Steady
  answers : ∀ s v, s.cursor.current? = some v → v.isFinite → ∃ s',
    exec r.callback s = (.ok (answer (clock s.state)), s') ∧ clock s'.state = clock s.state + 1

def Registration.counting (answer : Nat → Value) (p : SearchPath) : Registration Nat ε where
  path := p
  callback := fun s => (.ok (answer s.state), { s with state := s.state + 1 })

theorem Registration.numbered_counting (answer : Nat → Value) (p : SearchPath) :
    (counting answer p : Registration Nat ε).Numbered id answer where
  steady s v s' hs := by
    obtain ⟨-, rfl⟩ := Prod.mk.inj hs
    exact ⟨rfl, rfl⟩
  answers _ _ _ _ := ⟨_, rfl, rfl⟩

theorem Registration.Numbered.quiet {clock : σ → Nat} {answer : Nat → Value}
    {r : Registration σ ε} (h : r.Numbered clock answer) :
    (⟨r.path, r.callback.quiet⟩ : Registration σ ε).Numbered clock answer where
  steady := h.steady.quiet
  answers s v hs hv := by
    obtain ⟨s', hanswer, hclock⟩ := h.answers s v hs hv
    exact ⟨{ s' with moves := s.moves }, by rw [exec_quiet, hanswer], hclock⟩

namespace Extractor

section Calling

variable {clock : σ → Nat} {answer : Nat → Value} {still : Prop}

theorem exec_invoke_numbered {r : Registration σ ε} (hr : r.Numbered clock answer)
    (hstill : still → r.Still) (base i : Nat) {s : Session (σ × List Call)} {v : Value}
    (hs : s.cursor.current? = some v) (hv : v.isFinite) :
    ∃ s', s.Called still s' [r.call i s.forget] ∧
      (r.call i s.forget).answer = some (answer (clock s.state.1)) ∧
      clock s'.state.1 = clock s.state.1 + 1 ∧
      exec ((r.logged i).invoke base) s =
        (r.checkCount (s.cursor.depth - base) (answer (clock s.state.1)), s') := by
  obtain ⟨s₁, hreturns, hclock⟩ := hr.answers s.forget v hs hv
  obtain ⟨s', hs', hanswer, hstate, hinvoke⟩ := Registration.exec_invoke_logged hreturns
    (hr.steady _ _ _ hreturns) hstill base i
  exact ⟨s', hs', hanswer, hstate ▸ hclock, hinvoke⟩

end Calling

structure Counterparts {x y : Extractor σ ε} (w : Rewording x.options y.options)
    (clock : σ → Nat) (answer : Nat → Value) (still : Prop) (root : Value) (s₀ u₀ : Session σ) :
    Prop where
  paths : y.registrations.map (·.path) = x.registrations.map fun r => w.path r.path
  numbered : ∀ r ∈ x.registrations, r.Numbered clock answer ∧ (still → r.Still)
  numbered' : ∀ r ∈ y.registrations, r.Numbered clock answer ∧ (still → r.Still)
  current : s₀.cursor.current? = some root
  current' : u₀.cursor.current? = some (w.value root)
  isFinite : root.isFinite

structure InStep (w : Rendering) (clock : σ → Nat) (still : Prop) (root : Value)
    (s₀ u₀ : Session σ) (s u : Session (σ × List Call)) : Prop where
  clock : clock u.state.1 = clock s.state.1
  calls : List.Forall₂ (w.Corresponds root s₀.cursor u₀.cursor) s.state.2 u.state.2
  moves : still → ∃ ms, s.moves = ms ++ s₀.moves ∧ u.moves = ms ++ u₀.moves ∧
    s.cursor = s₀.cursor.afterAll ms.reverse ∧ s₀.cursor.Confined root ms

/-- The last call is for a registered callback whose answer is no count that it may return. -/
def Refused (x : Extractor σ ε) (base : Nat) (f : Failure ε) (K : List Call) : Prop :=
  ∃ L k r a, K = L ++ [k] ∧ (r, k.order) ∈ x.registrations.zipIdx ∧ k.answer = some a ∧
    r.checkCount (k.before.cursor.depth - base) a = .error f

theorem Refused.closes {x : Extractor σ ε} {base : Nat} {f : Failure ε} {K : List Call}
    (h : x.Refused base f K) : f.Closes K := by
  obtain ⟨L, k, r, a, rfl, -, ha, hcheck⟩ := h
  exact Failure.closes_of_checkCount ha hcheck

inductive Alongside (x y : Extractor σ ε) (w : Rewording x.options y.options) (clock : σ → Nat)
    (still : Prop) (root : Value) (s₀ u₀ : Session σ) :
    Except (Failure ε) α × Session (σ × List Call) →
      Except (Failure ε) α × Session (σ × List Call) → Prop where
  | going {v : α} {s u : Session (σ × List Call)}
      (h : InStep w.toRendering clock still root s₀ u₀ s u) :
      Alongside x y w clock still root s₀ u₀ (.ok v, s) (.ok v, u)
  | failed {f : Failure ε} {s u : Session (σ × List Call)}
      (h : InStep w.toRendering clock still root s₀ u₀ s u)
      (hx : x.Refused s₀.cursor.depth f s.state.2)
      (hy : y.Refused u₀.cursor.depth (f.reword w.path) u.state.2) :
      Alongside x y w clock still root s₀ u₀ (.error f, s) (.error (f.reword w.path), u)

section Lockstep

variable {x y : Extractor σ ε} {w : Rewording x.options y.options} {clock : σ → Nat}
  {answer : Nat → Value} {still : Prop} {root : Value} {s₀ u₀ : Session σ}
  {s u : Session (σ × List Call)} {t : Trail}

namespace InStep

theorem moved (h : InStep w.toRendering clock still root s₀ u₀ s u) {m : Move} {c : Cursor}
    (hc : s.cursor.after m = c) (hin : s₀.cursor.Within root c) (d : Cursor) :
    InStep w.toRendering clock still root s₀ u₀ (Action.moved s m c) (Action.moved u m d) where
  clock := h.clock
  calls := h.calls
  moves hstill := by
    obtain ⟨ms, hs, hu, hcursor, hconfined⟩ := h.moves hstill
    have hafter : s₀.cursor.afterAll (m :: ms).reverse = c := by
      rw [List.reverse_cons, Cursor.afterAll_append, ← hcursor]
      exact hc
    refine ⟨m :: ms, congrArg (m :: ·) hs, congrArg (m :: ·) hu, hafter.symm, fun ns hns => ?_⟩
    rcases List.suffix_cons_iff.mp hns with rfl | hns
    · rwa [hafter]
    · exact hconfined ns hns

theorem logged (h : InStep w.toRendering clock still root s₀ u₀ s u) (e e' : Event) :
    InStep w.toRendering clock still root s₀ u₀ { s with events := e :: s.events }
      { u with events := e' :: u.events } :=
  ⟨h.clock, h.calls, h.moves⟩

end InStep

namespace Alongside

theorem inStep {a b : Except (Failure ε) α × Session (σ × List Call)}
    (h : Alongside x y w clock still root s₀ u₀ a b) :
    InStep w.toRendering clock still root s₀ u₀ a.2 b.2 := by
  cases h with
  | going h => exact h
  | failed h _ _ => exact h

/-- Runs alongside each other end alike; if they fail, the last call is refused in both. -/
theorem result {a b : Except (Failure ε) α × Session (σ × List Call)}
    (h : Alongside x y w clock still root s₀ u₀ a b) :
    b.1 = a.1.mapError (Failure.reword w.path) ∧ ∀ f, a.1 = .error f →
      x.Refused s₀.cursor.depth f a.2.state.2 ∧
      y.Refused u₀.cursor.depth (f.reword w.path) b.2.state.2 := by
  cases h with
  | going h => exact ⟨rfl, nofun⟩
  | failed h hx hy =>
    refine ⟨rfl, fun f hf => ?_⟩
    obtain rfl := Except.error.inj hf
    exact ⟨hx, hy⟩

theorem bind {a b : Action (σ × List Call) ε α} {k l : α → Action (σ × List Call) ε β}
    (h : Alongside x y w clock still root s₀ u₀ (exec a s) (exec b u))
    (hkl : ∀ v s' u', exec a s = (.ok v, s') → exec b u = (.ok v, u') →
      InStep w.toRendering clock still root s₀ u₀ s' u' →
        Alongside x y w clock still root s₀ u₀ (exec (k v) s') (exec (l v) u')) :
    Alongside x y w clock still root s₀ u₀ (exec (a >>= k) s) (exec (b >>= l) u) := by
  rcases ha : exec a s with ⟨r, s'⟩
  rcases hb : exec b u with ⟨q, u'⟩
  rw [ha, hb] at h
  cases h with
  | going h =>
    rw [exec_bind_ok ha, exec_bind_ok hb]
    exact hkl _ s' u' ha hb h
  | failed h hx hy =>
    rw [exec_bind_error ha, exec_bind_error hb]
    exact .failed h hx hy

end Alongside

namespace Counterparts

variable (h : Counterparts w clock answer still root s₀ u₀)

include h

theorem steady : x.Steady :=
  fun r hr => (h.numbered r hr).1.steady

theorem steady' : y.Steady :=
  fun r hr => (h.numbered' r hr).1.steady

theorem registrations :
    List.Forall₂ (fun r q => q.path = w.path r.path) x.registrations y.registrations := by
  have heq := h.paths
  rw [← List.forall₂_eq_eq_eq, List.forall₂_map_left_iff, List.forall₂_map_right_iff] at heq
  exact heq.flip

theorem selected (t : Trail) : List.Forall₂ (fun e f => f.1.path = w.path e.1.path ∧ f.2 = e.2)
    (x.selected root t) (y.selected (w.value root) (w.trail t)) := by
  refine List.rel_filter (fun e f hef => ?_) (forall₂_zipIdx h.registrations 0)
  dsimp only
  rw [hef.1, w.selects]

theorem enters (t : Trail) : y.enters (w.value root) (w.trail t) = x.enters root t := by
  have hstanding : (y.standing (w.value root) (w.trail t)).map Candidate.matched =
      (x.standing root t).map Candidate.matched := by
    have hx := x.registrations.flatMap_map (fun r => w.path r.path) fun p =>
      p.stages y.options (w.value root) (w.trail t)
    rw [← h.paths, List.flatMap_map] at hx
    rw [matched_standing, matched_standing, hx]
    exact List.flatMap_congr fun r _ => w.stages r.path root t
  have hseeds : y.seeds.isEmpty = x.seeds.isEmpty := by
    rw [← List.isEmpty_map (f := Candidate.registration), registration_seeds,
      ← List.isEmpty_map (f := Candidate.registration), registration_seeds]
    refine (isEmpty_of_length_eq (List.rel_filter ?_ h.registrations).length_eq).symm
    intro r q hrq
    dsimp only
    rw [hrq, w.length]
  rw [Extractor.enters, Extractor.enters, ← List.isEmpty_map (f := Candidate.matched), hstanding,
    List.isEmpty_map, entersAll, entersAll, hseeds, w.relative]

theorem current_along (ht : t.Leads root) :
    (u₀.cursor.along (w.value root) (w.trail t)).current? = some (w.value (t.value root)) := by
  rw [Cursor.current?_along h.current' (w.leads_trail ht), w.value_trail]

/-- One call in each run, on the same node. -/
theorem invoke {e f : Registration σ ε × Nat} (hef : f.1.path = w.path e.1.path ∧ f.2 = e.2)
    (he : e ∈ x.registrations.zipIdx) (hf : f ∈ y.registrations.zipIdx) (ht : t.Leads root)
    (hs : s.cursor = s₀.cursor.along root t)
    (hu : u.cursor = u₀.cursor.along (w.value root) (w.trail t))
    (hsu : InStep w.toRendering clock still root s₀ u₀ s u) :
    Alongside x y w clock still root s₀ u₀
      (exec ((e.1.logged e.2).invoke s₀.cursor.depth) s)
      (exec ((f.1.logged f.2).invoke u₀.cursor.depth) u) := by
  have hcur : s.cursor.current? = some (t.value root) := by
    rw [hs]
    exact Cursor.current?_along h.current ht
  have hcur' : u.cursor.current? = some (w.value (t.value root)) := by
    rw [hu, h.current_along ht]
  have hfin := ht.isFinite h.isFinite
  obtain ⟨hnumbered, hstill⟩ := h.numbered e.1 (List.fst_mem_of_mem_zipIdx he)
  obtain ⟨hnumbered', hstill'⟩ := h.numbered' f.1 (List.fst_mem_of_mem_zipIdx hf)
  obtain ⟨s', hK, hanswer, hclock, hcall⟩ :=
    exec_invoke_numbered hnumbered hstill s₀.cursor.depth e.2 hcur hfin
  obtain ⟨u', hL, hanswer', hclock', hcall'⟩ :=
    exec_invoke_numbered hnumbered' hstill' u₀.cursor.depth f.2 hcur' (w.isFinite _ hfin)
  have hcalls : w.Corresponds root s₀.cursor u₀.cursor (e.1.call e.2 s.forget)
      (f.1.call f.2 u.forget) :=
    ⟨hef.2, by rw [hanswer', hanswer, hsu.clock], t, ht, hs, hu⟩
  have hsu' : InStep w.toRendering clock still root s₀ u₀ s' u' := by
    refine ⟨by rw [hclock', hclock, hsu.clock], ?_, fun hstill => ?_⟩
    · rw [hK.account, hL.account]
      exact List.rel_append hsu.calls (.cons hcalls .nil)
    · rw [hK.moves hstill, hL.moves hstill, hK.cursor]
      exact hsu.moves hstill
  have hdepth : u.cursor.depth - u₀.cursor.depth = s.cursor.depth - s₀.cursor.depth := by
    rw [hs, hu, Cursor.depth_along, Cursor.depth_along, Rendering.trail, List.length_map]
    omega
  have hcheck' := Registration.checkCount_of_path hef.1 (s.cursor.depth - s₀.cursor.depth)
    (answer (clock s.state.1))
  rw [hcall, hcall', hsu.clock, hdepth, hcheck']
  cases hcheck : e.1.checkCount (s.cursor.depth - s₀.cursor.depth) (answer (clock s.state.1)) with
  | ok n => exact .going hsu'
  | error v =>
    rw [hcheck, ← hdepth, ← hsu.clock] at hcheck'
    exact .failed hsu' ⟨_, _, e.1, _, hK.account, he, hanswer, hcheck⟩
      ⟨_, _, f.1, _, hL.account, hf, hanswer', hcheck'⟩

/-- Calling callbacks one after another on one node. -/
theorem callAll {es fs : List (Registration σ ε × Nat)}
    (hes : List.Forall₂ (fun e f => f.1.path = w.path e.1.path ∧ f.2 = e.2) es fs)
    (hx : ∀ e ∈ es, e ∈ x.registrations.zipIdx) (hy : ∀ f ∈ fs, f ∈ y.registrations.zipIdx)
    (ht : t.Leads root) (hs : s.cursor = s₀.cursor.along root t)
    (hu : u.cursor = u₀.cursor.along (w.value root) (w.trail t))
    (hsu : InStep w.toRendering clock still root s₀ u₀ s u) :
    Alongside x y w clock still root s₀ u₀
      (exec (Extractor.callAll s₀.cursor.depth (es.map fun e => e.1.logged e.2)) s)
      (exec (Extractor.callAll u₀.cursor.depth (fs.map fun f => f.1.logged f.2)) u) := by
  induction hes generalizing s u with
  | nil => exact .going hsu
  | @cons e f es fs hef hes ih =>
    have he := hx e List.mem_cons_self
    have hf := hy f List.mem_cons_self
    rw [List.map_cons, List.map_cons, Extractor.callAll, Extractor.callAll]
    refine (h.invoke hef he hf ht hs hu hsu).bind fun n s' u' hcall hcall' hsu' => ?_
    have hsteady := h.steady e.1 (List.fst_mem_of_mem_zipIdx he)
    have hsteady' := h.steady' f.1 (List.fst_mem_of_mem_zipIdx hf)
    have hs' : s'.cursor = s.cursor := ((hsteady.logged e.2).invoke _ hcall).cursor
    have hu' : u'.cursor = u.cursor := ((hsteady'.logged f.2).invoke _ hcall').cursor
    refine Alongside.bind (ih (fun e he => hx e (List.mem_cons_of_mem _ he))
      (fun f hf => hy f (List.mem_cons_of_mem _ hf)) (hs'.trans hs) (hu'.trans hu) hsu') ?_
    exact fun m _ _ _ _ h => .going h

/-- Calling what is registered for a node. -/
theorem callSelected (ht : t.Leads root) (hs : s.cursor = s₀.cursor.along root t)
    (hu : u.cursor = u₀.cursor.along (w.value root) (w.trail t))
    (hsu : InStep w.toRendering clock still root s₀ u₀ s u) :
    Alongside x y w clock still root s₀ u₀
      (exec (Extractor.callAll s₀.cursor.depth (x.logged.selecting root t)) s)
      (exec (Extractor.callAll u₀.cursor.depth
        (y.logged.selecting (w.value root) (w.trail t))) u) := by
  rw [selecting_logged, selecting_logged]
  exact h.callAll (h.selected t) (fun e => List.mem_of_mem_filter)
    (fun f => List.mem_of_mem_filter) ht hs hu hsu

/-- Stepping into the container at the end of a trail, where tours in step with each other end, from
which one can step out again. -/
theorem descend {k l : Nat → Action (σ × List Call) ε β} (ht : t.Leads root)
    (hcontainer : (t.value root).bare.isContainer) (hs : s.cursor = s₀.cursor.along root t)
    (hu : u.cursor = u₀.cursor.along (w.value root) (w.trail t))
    (hsu : InStep w.toRendering clock still root s₀ u₀ s u)
    (htour : ∀ {s u}, s.cursor = (s₀.cursor.along root t).inside (t.value root) 0 →
      u.cursor =
        (u₀.cursor.along (w.value root) (w.trail t)).inside (w.value (t.value root)) 0 →
      InStep w.toRendering clock still root s₀ u₀ s u → Alongside x y w clock still root s₀ u₀
        (exec (x.logged.tour s₀.cursor.depth root t 0 (t.value root).bare.children) s)
        (exec (y.logged.tour u₀.cursor.depth (w.value root) (w.trail t) 0
          ((t.value root).bare.children.map fun e => (w.position e.1, w.value e.2))) u))
    (hkl : ∀ m s u, s.cursor.stepOut = .ok (s₀.cursor.along root t) →
      u.cursor.stepOut = .ok (u₀.cursor.along (w.value root) (w.trail t)) →
      InStep w.toRendering clock still root s₀ u₀
        (Action.moved s .stepOut (s₀.cursor.along root t))
        (Action.moved u .stepOut (u₀.cursor.along (w.value root) (w.trail t))) →
      Alongside x y w clock still root s₀ u₀ (exec (k m) s) (exec (l m) u)) :
    Alongside x y w clock still root s₀ u₀
      (exec (do
        Action.stepIn
        let m ← x.logged.tour s₀.cursor.depth root t 0 (t.value root).bare.children
        k m) s)
      (exec (do
        Action.stepIn
        let m ← y.logged.tour u₀.cursor.depth (w.value root) (w.trail t) 0
          (w.value (t.value root)).bare.children
        l m) u) := by
  have hfin := ht.isFinite h.isFinite
  have hstep : s.cursor.stepIn = .ok ((s₀.cursor.along root t).inside (t.value root) 0) := by
    rw [hs]
    exact Cursor.stepIn_of_current? (Cursor.current?_along h.current ht) hcontainer hfin
  have hstep' : u.cursor.stepIn = .ok
      ((u₀.cursor.along (w.value root) (w.trail t)).inside (w.value (t.value root)) 0) := by
    rw [hu]
    exact Cursor.stepIn_of_current? (h.current_along ht) ((w.isContainer _).trans hcontainer)
      (w.isFinite _ hfin)
  have hmoved := hsu.moved (Cursor.after_stepIn hstep) (.inr ⟨t, 0, ht, rfl⟩)
    ((u₀.cursor.along (w.value root) (w.trail t)).inside (w.value (t.value root)) 0)
  rw [exec_bind_ok (exec_stepIn hstep), exec_bind_ok (exec_stepIn hstep'), w.children]
  refine (htour rfl rfl hmoved).bind fun m s₂ u₂ hexec hexec' h₂ => ?_
  have hout : s₂.cursor.stepOut = .ok (s₀.cursor.along root t) :=
    Cursor.stepOut_of_outer (tour_outer h.steady.logged hexec).1
  have hout' : u₂.cursor.stepOut = .ok (u₀.cursor.along (w.value root) (w.trail t)) :=
    Cursor.stepOut_of_outer (tour_outer h.steady'.logged hexec').1
  exact hkl m s₂ u₂ hout hout'
    (h₂.moved (Cursor.after_stepOut hout) (Cursor.within_along ht) _)

/-- Two tours below a node. -/
theorem tour {i : Nat} {es : List (Position × Value)} (ht : t.Leads root)
    (hs : s.cursor = (s₀.cursor.along root t).inside (t.value root) i)
    (hu : u.cursor =
      (u₀.cursor.along (w.value root) (w.trail t)).inside (w.value (t.value root)) i)
    (hes : (t.value root).bare.children.drop i = es)
    (hsu : InStep w.toRendering clock still root s₀ u₀ s u) :
    Alongside x y w clock still root s₀ u₀ (exec (x.logged.tour s₀.cursor.depth root t i es) s)
      (exec (y.logged.tour u₀.cursor.depth (w.value root) (w.trail t) i
        (es.map fun e => (w.position e.1, w.value e.2))) u) := by
  fun_induction Extractor.tour x.logged s₀.cursor.depth root t i es generalizing s u with
  | case1 t i =>
    rw [List.map_nil, Extractor.tour, exec_bind_ok (exec_next s), exec_bind_ok (exec_next u)]
    refine .going (hsu.moved rfl ?_ u.cursor.next)
    rw [hs]
    exact Cursor.within_inside_next ht i
  | case2 t i p v es ihv ihes =>
    obtain ⟨hi, hd⟩ := Trail.getElem?_of_drop hes
    have hi' : (w.value (t.value root)).bare.children[i]? = some (w.position p, w.value v) := by
      rw [w.children, List.getElem?_map, hi]
      rfl
    have ht' : Trail.Leads root (⟨i, p, v⟩ :: t) := ⟨ht, hi⟩
    let a := s₀.cursor.along root (⟨i, p, v⟩ :: t)
    let b := u₀.cursor.along (w.value root) (w.trail (⟨i, p, v⟩ :: t))
    have hnext : s.cursor.next = a := by
      rw [hs, Cursor.next_inside hi]
      rfl
    have hb : (u₀.cursor.along (w.value root) (w.trail t)).inside (w.value (t.value root)) (i + 1) =
        b := by
      rw [← w.value_trail]
      rfl
    have hnext' : u.cursor.next = b := by rw [hu, Cursor.next_inside hi', hb]
    have hmoved := hsu.moved (m := .next) hnext (Cursor.within_along ht') b
    rw [List.map_cons, Extractor.tour, exec_bind_ok (exec_next s), exec_bind_ok (exec_next u),
      hnext, hnext']
    refine (h.callSelected ht' rfl rfl hmoved).bind fun n s₁ u₁ hcall hcall' h₁ => ?_
    have hs₁ : s₁.cursor = a := (callAll_sameCursor (h.steady.logged.selecting root _) hcall).cursor
    have hu₁ : u₁.cursor = b := (callAll_sameCursor (h.steady'.logged.selecting _ _) hcall').cursor
    have henters : y.enters (w.value root) (⟨i, w.position p, w.value v⟩ :: w.trail t) =
        x.enters root (⟨i, p, v⟩ :: t) := h.enters (⟨i, p, v⟩ :: t)
    rw [enters_logged, enters_logged, henters, w.isContainer]
    split
    · exact .going (h₁.logged _ _)
    split
    next hin =>
      refine h.descend ht' (Bool.and_eq_true_iff.mp hin).1 hs₁ hu₁ h₁
        (fun hs hu => ihv ht' hs hu rfl) fun m s₂ u₂ hout hout' hback => ?_
      rw [exec_bind_ok (exec_stepOut hout), exec_bind_ok (exec_stepOut hout')]
      split
      · exact .going hback
      · exact ihes ht rfl hb.symm hd hback
    · exact ihes ht hs₁ (hu₁.trans hb.symm) hd h₁

/-- Two tours of the roots and all below them. -/
theorem tourAll (hs : s.cursor = s₀.cursor) (hu : u.cursor = u₀.cursor)
    (hsu : InStep w.toRendering clock still root s₀ u₀ s u) :
    Alongside x y w clock still root s₀ u₀ (exec (x.logged.tourAll s₀.cursor.depth root) s)
      (exec (y.logged.tourAll u₀.cursor.depth (w.value root)) u) := by
  have ht : Trail.Leads root [] := trivial
  unfold Extractor.tourAll
  refine (h.callSelected ht hs hu hsu).bind fun n s₁ u₁ hcall hcall' h₁ => ?_
  have hs₁ : s₁.cursor = s₀.cursor :=
    (callAll_sameCursor (h.steady.logged.selecting root _) hcall).cursor.trans hs
  have hu₁ : u₁.cursor = u₀.cursor :=
    (callAll_sameCursor (h.steady'.logged.selecting _ _) hcall').cursor.trans hu
  have henters : y.enters (w.value root) [] = x.enters root [] := h.enters []
  rw [enters_logged, enters_logged, henters, w.isContainer]
  split
  next hin =>
    refine h.descend ht (Bool.and_eq_true_iff.mp hin).1 hs₁ hu₁ h₁
      (fun hs hu => h.tour ht hs hu rfl) fun m s₂ u₂ hout hout' hback => ?_
    rw [exec_stepOut hout, exec_stepOut hout']
    exact .going hback
  · exact .going h₁

/-- Two runs. -/
theorem run (hstart : s₀.cursor.depth = 0 ∨ x.options.relative)
    (hstart' : u₀.cursor.depth = 0 ∨ y.options.relative)
    (hclock : clock u₀.state = clock s₀.state) :
    Alongside x y w clock still root s₀ u₀ (exec x.logged.run (s₀.withState (s₀.state, [])))
      (exec y.logged.run (u₀.withState (u₀.state, []))) := by
  have hroot := h.current
  have hroot' := h.current'
  rw [run_eq_tour h.steady.logged hroot h.isFinite hstart,
    run_eq_tour h.steady'.logged hroot' (w.isFinite root h.isFinite) hstart']
  refine h.tourAll rfl rfl ⟨hclock, .nil, fun _ => ⟨[], rfl, rfl, rfl, fun ns hns => ?_⟩⟩
  rw [List.suffix_nil.mp hns]
  exact .inl rfl

/-- Without the moves of the callbacks. -/
theorem quiet : Counterparts (x := x.withCallbacks fun r => r.callback.quiet)
    (y := y.withCallbacks fun r => r.callback.quiet) w clock answer True root s₀ u₀ where
  paths := by
    have hpaths := h.paths
    simp only [withCallbacks, List.map_map]
    exact hpaths
  numbered r hr := by
    obtain ⟨q, hq, rfl⟩ := List.mem_map.mp hr
    exact ⟨(h.numbered q hq).1.quiet, fun _ _ => rfl⟩
  numbered' r hr := by
    obtain ⟨q, hq, rfl⟩ := List.mem_map.mp hr
    exact ⟨(h.numbered' q hq).1.quiet, fun _ _ => rfl⟩
  current := h.current
  current' := h.current'
  isFinite := h.isFinite

end Counterparts

/-- Two runs make the same moves, by which they never leave the values that they start on, and the
same calls, and have the same end: both succeed, or the answer of the last call is refused in
both. -/
structure Lockstep (w : Rewording x.options y.options) (root : Value) (s u : Session σ) : Prop where
  result : (exec y.run u).1 = (exec x.run s).1.mapError (Failure.reword w.path)
  failure : ∀ f, (exec x.run s).1 = .error f → x.Refused s.cursor.depth f (x.calls s) ∧
    y.Refused u.cursor.depth (f.reword w.path) (y.calls u)
  calls : List.Forall₂ (w.Corresponds root s.cursor u.cursor) (x.calls s) (y.calls u)
  ownMoves : ∃ ms, x.ownMoves s = ms ++ s.moves ∧ y.ownMoves u = ms ++ u.moves ∧
    s.cursor.Confined root ms
  moves : (∀ r ∈ x.registrations ++ y.registrations, r.Still) →
    ∃ ms, (exec x.run s).2.moves = ms ++ s.moves ∧ (exec y.run u).2.moves = ms ++ u.moves

/-- Runs on corresponding problems are in lockstep. -/
theorem lockstep {s u : Session σ}
    (hpaths : y.registrations.map (·.path) = x.registrations.map fun r => w.path r.path)
    (hx : ∀ r ∈ x.registrations, r.Numbered clock answer)
    (hy : ∀ r ∈ y.registrations, r.Numbered clock answer)
    (hs : s.cursor.current? = some root) (hu : u.cursor.current? = some (w.value root))
    (hfin : root.isFinite) (hstart : s.cursor.depth = 0 ∨ x.options.relative)
    (hstart' : u.cursor.depth = 0 ∨ y.options.relative) (hclock : clock u.state = clock s.state) :
    Lockstep w root s u := by
  have h : Counterparts w clock answer (∀ r ∈ x.registrations ++ y.registrations, r.Still)
      root s u :=
    ⟨hpaths, fun r hr => ⟨hx r hr, fun hstill => hstill r (List.mem_append_left _ hr)⟩,
      fun r hr => ⟨hy r hr, fun hstill => hstill r (List.mem_append_right _ hr)⟩, hs, hu, hfin⟩
  have hrun := h.run hstart hstart' hclock
  have hquiet := h.quiet.run hstart hstart' hclock
  rw [exec_run_logged, exec_run_logged] at hrun hquiet
  obtain ⟨ms, hms, hms', -, hconfined⟩ := hquiet.inStep.moves trivial
  obtain ⟨hresult, hfailure⟩ := hrun.result
  refine ⟨hresult, hfailure, hrun.inStep.calls, ⟨ms, hms, hms', hconfined⟩, fun hstill => ?_⟩
  obtain ⟨ns, hns, hns', -⟩ := hrun.inStep.moves hstill
  exact ⟨ns, hns, hns'⟩

end Lockstep
end Extractor
end TreePaths
