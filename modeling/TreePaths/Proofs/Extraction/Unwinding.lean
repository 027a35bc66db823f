import TreePaths.Proofs.Extraction.Candidates

/-!
How the walks of a run end. Each one has less of the document ahead of it than the one that calls
it, so the calls come to an end. The number that a walk returns says how many containers around its
own are left besides. There are always as many, up to the value on which the run began, so a run
leaves just the containers that its callbacks ask to leave.
-/

namespace TreePaths

open TreePaths.Action TreePaths.Effect

variable {σ ε α β : Type}

namespace Value

theorem nodes_pos (v : Value) : 0 < v.nodes :=
  Nat.zero_lt_of_lt (weight_children_lt v)

end Value

/-- The number of nodes that the cursor has not come to yet in the container that it is in. -/
def Cursor.ahead (c : Cursor) : Nat :=
  (c.frame.entries.drop c.frame.reached).foldr (fun e n => e.2.nodes + n) 0

theorem Cursor.ahead_inside (c : Cursor) (v : Value) (n : Nat) :
    (c.inside v n).ahead = Value.weight (v.bare.children.drop n) := by
  rw [ahead, inside, Frame.opened, ← List.map_drop, List.foldr_map]
  rfl

namespace Action

theorem depth_of_exec_stepIn {s s' : Session σ}
    (h : exec (stepIn : Action σ ε Unit) s = (.ok (), s')) :
    s'.cursor.depth = s.cursor.depth + 1 := by
  obtain ⟨c, hc, rfl⟩ := stepIn_of_exec h
  exact Cursor.depth_of_stepIn hc

theorem depth_of_exec_stepOut {s s' : Session σ}
    (h : exec (stepOut : Action σ ε Unit) s = (.ok (), s')) :
    s.cursor.depth = s'.cursor.depth + 1 := by
  obtain ⟨c, hc, rfl⟩ := stepOut_of_exec h
  exact Cursor.depth_of_stepOut hc

theorem cursor_of_exec_next {inside : Bool} {s s' : Session σ}
    (h : exec (next : Action σ ε Bool) s = (.ok inside, s')) : s'.cursor = s.cursor.next := by
  rw [exec_next] at h
  obtain ⟨-, rfl⟩ := Prod.mk.inj h
  rfl

theorem depth_of_exec_next {inside : Bool} {s s' : Session σ}
    (h : exec (next : Action σ ε Bool) s = (.ok inside, s')) : s'.cursor.depth = s.cursor.depth := by
  rw [cursor_of_exec_next h]
  rfl

def leave : Nat → Action σ ε Unit
  | 0 => return
  | n + 1 => do
    stepOut
    leave n

end Action

section Range

variable {base n : Nat} {s s' : Session σ}

/-- A callback gets to leave no more containers than there are around it, up to the start of the
run. -/
theorem Registration.le_of_invoke {r : Registration σ ε}
    (h : exec (r.invoke base) s = (.ok n, s')) :
    n ≤ s.cursor.depth - base ∧ s'.cursor.depth = s.cursor.depth := by
  obtain ⟨v, -, hdepth, -, -, hcount⟩ := (exec_invoke_eq_ok base).mp h
  exact ⟨(checkCount_eq_ok.mp hcount).2, hdepth⟩

namespace Extractor

variable {x : Extractor σ ε} {cs carried : List (Candidate σ ε)}

theorem le_of_visit {position : Option Position} {annotations : List String}
    (h : exec (x.visit base position annotations cs) s = (.ok (n, carried), s')) :
    n ≤ s.cursor.depth - base ∧ s'.cursor.depth = s.cursor.depth := by
  induction cs generalizing s n carried with
  | nil =>
    cases h
    exact ⟨Nat.zero_le _, rfl⟩
  | cons c cs ih =>
    rw [visit] at h
    split at h
    · exact ih h
    split at h
    · simp only [exec_bind_eq_ok] at h
      obtain ⟨k, s₁, hcall, ⟨m, ds⟩, s₂, hrest, h⟩ := h
      cases h
      obtain ⟨hk, hs₁⟩ := Registration.le_of_invoke hcall
      obtain ⟨hm, hs₂⟩ := ih hrest
      rw [hs₁] at hm hs₂
      exact ⟨Nat.max_le.mpr ⟨hk, hm⟩, hs₂⟩
    · simp only [exec_bind_eq_ok] at h
      obtain ⟨⟨m, ds⟩, s₂, hrest, h⟩ := h
      cases h
      exact ih hrest

theorem Passes.depth {inner : List (Candidate σ ε)} {s₂ : Session σ}
    (h : x.Passes base cs s inner s₂) : s₂.cursor.depth = s.cursor.depth := by
  obtain ⟨s₁, carried, hnext, hvisit, -⟩ := h
  rw [(le_of_visit hvisit).2, depth_of_exec_next hnext]

/-- How a walk that returns has gone on: there was no next child, the callbacks at the next child
asked to leave containers, or it has passed the child. -/
theorem walk_cases {fuel : Nat} (h : exec (x.walk base (fuel + 1) cs) s = (.ok n, s')) :
    n = 0 ∧ s'.cursor = s.cursor.next ∨
    (∃ s₁ s₂ carried, exec (next : Action σ ε Bool) s = (.ok true, s₁) ∧
      exec (x.visit base s₁.cursor.position s₁.cursor.annotations cs) s₁ =
        (.ok (n + 1, carried), s₂) ∧ s'.cursor = s₂.cursor) ∨
    ∃ inner s₂, x.Passes base cs s inner s₂ := by
  rw [walk, exec_bind_eq_ok] at h
  obtain ⟨inside, s₁, hnext, h⟩ := h
  cases inside with
  | false =>
    rw [if_pos (by simp)] at h
    cases h
    exact .inl ⟨rfl, cursor_of_exec_next hnext⟩
  | true =>
    rw [if_neg (by simp), exec_bind_ok (exec_look _ _), exec_bind_ok (exec_look _ _),
      exec_bind_eq_ok] at h
    obtain ⟨⟨count, carried⟩, s₂, hvisit, h⟩ := h
    right
    dsimp only at h
    cases count with
    | zero => exact .inr ⟨_, s₂, s₁, carried, hnext, hvisit, rfl⟩
    | succ count =>
      rw [if_pos (Nat.succ_pos count), exec_bind_ok (exec_look _ _),
        exec_bind_ok (exec_log _ _)] at h
      cases h
      exact .inl ⟨s₁, s₂, carried, hnext, hvisit, rfl⟩

/-- A walk returns less than the number of containers that the run is in, whatever the callbacks
do. What they return is checked against the depth below the start. -/
theorem walk_lt_depth {fuel : Nat} (hbase : base < s.cursor.depth)
    (h : exec (x.walk base fuel cs) s = (.ok n, s')) :
    n < s.cursor.depth - base ∧ s'.cursor.depth = s.cursor.depth := by
  induction fuel generalizing cs s s' n with
  | zero => cases h
  | succ fuel ih =>
    obtain ⟨rfl, hs'⟩ | ⟨s₁, s₂, carried, hnext, hvisit, hs'⟩ | ⟨inner, s₂, hpass⟩ := walk_cases h
    · exact ⟨by omega, by rw [hs']; rfl⟩
    · obtain ⟨hle, hs₂⟩ := le_of_visit hvisit
      rw [depth_of_exec_next hnext] at hle hs₂
      exact ⟨hle, by rw [hs', hs₂]⟩
    · have hs₂ := hpass.depth
      rw [walk_eq_turn, exec_turn_of_passes hpass] at h
      split at h
      · simp only [exec_bind_eq_ok] at h
        obtain ⟨_, s₃, hin, m, s₄, hwalk, _, s₅, hout, h⟩ := h
        have hs₃ := depth_of_exec_stepIn hin
        have hs₅ := depth_of_exec_stepOut hout
        obtain ⟨hm, hs₄⟩ := ih (by omega) hwalk
        split at h
        · cases h
          omega
        · obtain ⟨hn, hs'⟩ := ih (by omega) h
          omega
      · obtain ⟨hn, hs'⟩ := ih (by omega) h
        omega

end Extractor

end Range

namespace Extractor

variable {x : Extractor σ ε} {base : Nat} {s s' : Session σ}

section Waiting

/-- Walks in containers within each other, the innermost first. When one of them returns `n`, its
container is left and `n` around it, and the next walk that is not left goes on. -/
def walkOut (x : Extractor σ ε) (base : Nat) :
    List (Nat × List (Candidate σ ε)) → Action σ ε Unit
  | [] => return
  | (fuel, cs) :: waiting => do
    let n ← x.walk base fuel cs
    leave (n + 1)
    x.walkOut base (waiting.drop n)
termination_by walks => walks.length
decreasing_by
  rw [List.length_drop, List.length_cons]
  omega

variable {waiting : List (Nat × List (Candidate σ ε))} {fuel n : Nat} {cs : List (Candidate σ ε)}

theorem exec_walkOut_cons (hdepth : s.cursor.depth = base + (waiting.length + 1))
    (h : ∀ m s₁, m ≤ waiting.length → s₁.cursor.depth = base + (waiting.length + 1) →
      exec (x.unwind base waiting m) s₁ =
        exec (do leave (m + 1); x.walkOut base (waiting.drop m)) s₁) :
    exec (x.walk base fuel cs >>= x.unwind base waiting) s =
      exec (x.walkOut base ((fuel, cs) :: waiting)) s := by
  rw [walkOut]
  refine exec_bind_congr rfl fun m s₁ hwalk => ?_
  obtain ⟨hm, hs₁⟩ := walk_lt_depth (by omega) hwalk
  exact h m s₁ (by omega) (hs₁.trans hdepth)

/-- As long as there are as many walks that wait, no container is left but by them. -/
theorem exec_unwind (hn : n ≤ waiting.length)
    (hdepth : s.cursor.depth = base + (waiting.length + 1)) :
    exec (x.unwind base waiting n) s =
      exec (do leave (n + 1); x.walkOut base (waiting.drop n)) s := by
  induction waiting generalizing n s with
  | nil =>
    obtain rfl := Nat.le_zero.mp hn
    rw [unwind, leave, leave, bind_assoc, pure_bind, List.drop_zero, walkOut]
    exact (congrArg (exec · s) (bind_pure _)).symm
  | cons first waiting ih =>
    rw [unwind, leave, bind_assoc]
    refine exec_bind_congr rfl fun _ s₁ hout => ?_
    have hs₁ : s₁.cursor.depth = base + (waiting.length + 1) := by
      have := depth_of_exec_stepOut hout
      rw [List.length_cons] at hdepth
      omega
    cases n with
    | zero =>
      rw [if_neg (Nat.lt_irrefl 0), leave, pure_bind, List.drop_zero]
      exact exec_walkOut_cons hs₁ fun m s₂ hm hs₂ => ih hm hs₂
    | succ n =>
      rw [if_pos (Nat.succ_pos n), Nat.add_sub_cancel, List.drop_succ_cons]
      exact ih (Nat.le_of_succ_le_succ hn) hs₁

end Waiting

section Ends

variable {c : Cursor} {root : Value} {t : Trail} {w w' : WalkCall σ ε}

/-- A walk that is called has less ahead of it. -/
theorem AtLevel.ahead_lt (hx : x.Steady) (h : x.AtLevel c root t w) (hmade : x.Makes base w w') :
    w'.session.cursor.ahead < w.session.cursor.ahead := by
  obtain ⟨-, e, he, hs, hcase⟩ := h.makes_cases hx hmade
  obtain ⟨hi, hchild⟩ := List.getElem?_eq_some_iff.mp he.2
  have hahead : w.session.cursor.ahead = e.value.nodes +
      Value.weight ((t.value root).bare.children.drop (e.ordinal + 1)) := by
    rw [hs, Cursor.ahead_inside, List.drop_eq_getElem_cons hi, hchild, Value.weight_cons]
  obtain ⟨hcursor, -⟩ | ⟨hcursor, -⟩ := hcase
  · rw [hahead, hcursor, Cursor.ahead_inside]
    exact Nat.lt_add_of_pos_left e.value.nodes_pos
  · rw [hahead, hcursor, Cursor.ahead_inside, List.drop_zero]
    exact Nat.lt_add_right _ (Value.weight_children_lt e.value)

/-- From a walk with these candidates in this session that one is called, if there are steps for
it. -/
def Proceeds (x : Extractor σ ε) (base : Nat) (a b : List (Candidate σ ε) × Session σ) : Prop :=
  ∃ fuel, x.Makes base ⟨fuel + 1, a.1, a.2⟩ ⟨fuel, b.1, b.2⟩

theorem AtLevel.acc (hx : x.Steady) (h : x.AtLevel c root t w) :
    Acc (fun b a => x.Proceeds base a b) (w.candidates, w.session) := by
  induction hn : w.session.cursor.ahead using Nat.strong_induction_on generalizing t w with
  | _ n ih =>
    refine .intro _ fun b ⟨fuel, hmade⟩ => ?_
    have hlevel : x.AtLevel c root t ⟨fuel + 1, w.candidates, w.session⟩ :=
      ⟨h.leads, h.cursor, h.candidates⟩
    obtain ⟨u, hu⟩ := hlevel.makes hx hmade
    have hlt := hlevel.ahead_lt hx hmade
    exact ih _ (hn ▸ hlt) hu rfl

/-- As long as its steps are enough it does not matter to a walk how many they are. -/
theorem AtLevel.walk_congr (hx : x.Steady) (h : x.AtLevel c root t w) (hfin : root.isFinite)
    {fuel fuel' : Nat} (hfuel : w.session.cursor.ahead < fuel)
    (hfuel' : w.session.cursor.ahead < fuel') :
    exec (x.walk c.depth fuel w.candidates) w.session =
      exec (x.walk c.depth fuel' w.candidates) w.session := by
  obtain ⟨ht, ⟨i, hs⟩, hcs⟩ := h
  rw [hs, Cursor.ahead_inside] at hfuel hfuel'
  rw [hcs, walk_eq_tour hx hs (c.depth_along root t) rfl (ht.isFinite hfin) hfuel,
    walk_eq_tour hx hs (c.depth_along root t) rfl (ht.isFinite hfin) hfuel']

theorem Begins.ahead_lt (hx : x.Steady) (hs : s.cursor.current? = some root)
    (hfin : root.isFinite) (h : x.Begins s w) : w.session.cursor.ahead < w.fuel := by
  obtain ⟨-, hstart, -, -, hin⟩ := h
  rw [← hx.cursor_of_visitStart hstart] at hs
  rw [cursor_of_stepIn hs hin, Cursor.ahead_inside, budget, hs]
  exact (Value.weight_children_lt root).trans_le ((Nat.le_add_right _ patience).trans_eq
    (if_pos hfin).symm)

/-- Along the calls of a run the steps stay enough. -/
theorem Begins.enough (hx : x.Steady) (hs : s.cursor.current? = some root)
    (hfin : root.isFinite) (h : x.Begins s w)
    (hmade : Relation.ReflTransGen (x.Makes s.cursor.depth) w w') :
    w'.session.cursor.ahead < w'.fuel := by
  obtain ⟨v, hv, hlevel⟩ := h.atLevel hx
  have hreached : (∃ t, x.AtLevel s.cursor v t w') ∧ w'.session.cursor.ahead < w'.fuel := by
    induction hmade with
    | refl => exact ⟨⟨[], hlevel⟩, h.ahead_lt hx hs hfin⟩
    | tail _ hstep ih =>
      obtain ⟨⟨t, ht⟩, henough⟩ := ih
      have hlt := ht.ahead_lt hx hstep
      have hsteps := (ht.makes_cases hx hstep).1
      exact ⟨ht.makes hx hstep, by omega⟩
  exact hreached.2

structure Settles (x : Extractor σ ε) (s : Session σ) (root : Value) (t : Trail)
    (w : WalkCall σ ε) : Prop where
  /-- The calls that it leads to come to an end. -/
  finite : Acc (fun b a => x.Proceeds s.cursor.depth a b) (w.candidates, w.session)
  /-- It has steps enough. -/
  enough : w.session.cursor.ahead < w.fuel
  /-- With any other number of steps that is enough it does the same. -/
  steps : ∀ fuel, w.session.cursor.ahead < fuel →
    exec (x.walk s.cursor.depth fuel w.candidates) w.session =
      exec (x.walk s.cursor.depth w.fuel w.candidates) w.session
  /-- If it returns, then in the container in which it was called, and a number of containers that
  there are around that one, up to the value on which the run began. -/
  inRange : ∀ n s', exec (x.walk s.cursor.depth w.fuel w.candidates) w.session = (.ok n, s') →
    n ≤ t.length ∧ s'.cursor.outer = w.session.cursor.outer
  /-- When it returns `n`, the run leaves its container and `n` around it, and a walk goes on in the
  next container, with the candidates that stand there. -/
  unwinds : ∃ waiting : List (Nat × List (Candidate σ ε)),
    waiting.map (·.2) = t.tails.tail.map (x.standing root) ∧
      exec x.run s = exec (x.walkOut s.cursor.depth ((w.fuel, w.candidates) :: waiting)) w.session

/-- Every walk that is called with enough steps settles. -/
theorem Awaits.settles (hx : x.Steady) (hfin : root.isFinite)
    {waiting : List (Nat × List (Candidate σ ε))} (h : x.Awaits s root t waiting w)
    (henough : w.session.cursor.ahead < w.fuel) : x.Settles s root t w where
  finite := h.acc hx
  enough := henough
  steps fuel hfuel := h.walk_congr hx hfin hfuel henough
  inRange n s' hwalk := by
    have hdepth := h.depth
    obtain ⟨hn, -⟩ := walk_lt_depth (by omega) hwalk
    have howns : x.Owns w.candidates := h.candidates ▸ owns_standing x root t
    exact ⟨by omega, ((respectsWalk_inside hx.keeps _).walk howns hwalk).1⟩
  unwinds := by
    have hlength : waiting.length = t.length := by
      simpa using congrArg List.length h.waits
    have hdepth := hlength ▸ h.depth
    refine ⟨waiting, h.waits, h.run.trans ?_⟩
    exact exec_walkOut_cons hdepth fun m s₁ hm hs₁ => exec_unwind hm hs₁

/-- If callbacks leave the cursor in place, each walk that is called in the course of a run over a
finite value comes to an end. One over children at depth `d` below the start returns at most
`d - 1`, so zero comes back from the children of the value on which the run began, and just the
containers are left that callbacks have asked for. -/
theorem walks_settle (hx : x.Steady) (hs : s.cursor.current? = some root) (hfin : root.isFinite)
    (hbegun : x.Begins s w) :
    (∀ n s', exec (x.walk s.cursor.depth w.fuel w.candidates) w.session = (.ok n, s') → n = 0) ∧
    ∀ w', Relation.ReflTransGen (x.Makes s.cursor.depth) w w' → ∃ t : Trail,
      t.Leads root ∧ w'.session.cursor.depth - s.cursor.depth = t.length + 1 ∧
        x.Settles s root t w' := by
  have hsettles (w' : WalkCall σ ε) (hmade : Relation.ReflTransGen (x.Makes s.cursor.depth) w w') :
      ∃ t : Trail, t.Leads root ∧ w'.session.cursor.depth - s.cursor.depth = t.length + 1 ∧
        x.Settles s root t w' := by
    obtain ⟨v, t, waiting, hv, ht⟩ := hbegun.awaits_of_made hx hmade
    obtain rfl := Option.some.inj (hv.symm.trans hs)
    refine ⟨t, ht.leads, ?_, ht.settles hx hfin (hbegun.enough hx hs hfin hmade)⟩
    rw [ht.depth, Nat.add_sub_cancel_left]
  refine ⟨fun n s' hwalk => ?_, hsettles⟩
  obtain ⟨v, hv, hfirst⟩ := hbegun.awaits hx
  obtain rfl := Option.some.inj (hv.symm.trans hs)
  have hfirst := hfirst.settles hx hfin (hbegun.ahead_lt hx hs hfin)
  exact Nat.le_zero.mp (hfirst.inRange n s' hwalk).1

end Ends

def Sample.pair : Value :=
  .list [.list [.int 1, .int 2], .int 3]

/-- On each item of an inner list, asks to leave both lists. -/
def Sample.leaving : Extractor Nat Empty where
  registrations := [⟨⟨[], [⟨.wildcard, []⟩, ⟨.wildcard, []⟩]⟩,
    fun s => (.ok (.int 2), { s with state := s.state + 1 })⟩]
  options := {}

theorem Sample.steady_leaving : Sample.leaving.Steady := by
  intro r hr s v s' h
  obtain rfl := List.mem_singleton.mp hr
  obtain ⟨-, rfl⟩ := Prod.mk.inj h
  exact ⟨rfl, rfl⟩

def Sample.onPair : Session Nat :=
  .start Sample.pair true 0

def Sample.pairCall : WalkCall Nat Empty where
  fuel := patience + 5
  candidates := Sample.leaving.seedsAt []
  session := moved Sample.onPair .stepIn (Sample.onPair.cursor.inside Sample.pair 0)

theorem Sample.begins_pairCall : Sample.leaving.Begins Sample.onPair Sample.pairCall := by
  have hstart : exec (visitStart 0 (Sample.leaving.onStart.filter fun r =>
      Sample.leaving.anchors [] r.path)) Sample.onPair = (.ok (), Sample.onPair) := rfl
  have hin : exec (stepIn : Action Nat Empty Unit) Sample.onPair =
      (.ok (), Sample.pairCall.session) := rfl
  have hbudget : budget Sample.onPair.cursor = patience + 5 := Nat.add_comm 5 patience
  rw [Sample.pairCall, ← hbudget]
  exact .intro (.inl rfl) hstart rfl rfl hin

/-- At the first number the walk over the inner list returns one, and so the walk over the outer
list zero. -/
theorem walks_settle_sample :
    (Sample.leaving.Steady ∧ Sample.onPair.cursor.current? = some Sample.pair ∧
      Sample.pair.isFinite ∧ Sample.leaving.Begins Sample.onPair Sample.pairCall) ∧
    (exec (Sample.leaving.walk 0 Sample.pairCall.fuel Sample.pairCall.candidates)
      Sample.pairCall.session).1 = .ok 0 ∧
    ∃ w, Relation.ReflTransGen (Sample.leaving.Makes 0) Sample.pairCall w ∧
      (exec (Sample.leaving.walk 0 w.fuel w.candidates) w.session).1 = .ok 1 ∧
      ∃ t : Trail, t.length = 1 ∧ Sample.leaving.Settles Sample.onPair Sample.pair t w := by
  obtain ⟨hzero, hsettles⟩ :=
    walks_settle Sample.steady_leaving (s := Sample.onPair) rfl rfl Sample.begins_pairCall
  have hinto : ∃ w, Sample.leaving.Makes 0 Sample.pairCall w ∧ w.session.cursor.depth = 2 ∧
      (exec (Sample.leaving.walk 0 w.fuel w.candidates) w.session).1 = .ok 1 := by
    have hpasses : ∃ inner s₂, Sample.leaving.Passes 0 (Sample.leaving.seedsAt [])
        Sample.pairCall.session inner s₂ ∧ Sample.leaving.opens inner s₂ ∧
        ∃ s₃, exec (stepIn : Action Nat Empty Unit) s₂ = (.ok (), s₃) ∧ s₃.cursor.depth = 2 ∧
          (exec (Sample.leaving.walk 0 (patience + 4) inner) s₃).1 = .ok 1 :=
      ⟨_, _, ⟨_, _, rfl, rfl, rfl⟩, rfl, _, rfl, rfl, rfl⟩
    obtain ⟨inner, s₂, hpasses, hopens, s₃, hin, hdepth, hreturns⟩ := hpasses
    exact ⟨_, .enter hpasses hopens hin, hdepth, hreturns⟩
  obtain ⟨w, hmakes, hdepth, hreturns⟩ := hinto
  obtain ⟨t, -, hlength, hw⟩ := hsettles w (.single hmakes)
  have ht : 2 - 0 = t.length + 1 := hdepth ▸ hlength
  refine ⟨⟨Sample.steady_leaving, rfl, rfl, Sample.begins_pairCall⟩, ?_,
    w, .single hmakes, hreturns, t, by omega, hw⟩
  have hends : ∃ n, (exec (Sample.leaving.walk 0 Sample.pairCall.fuel Sample.pairCall.candidates)
      Sample.pairCall.session).1 = .ok n := ⟨_, rfl⟩
  obtain ⟨n, hn⟩ := hends
  rw [hn, hzero n _ (exec_eq_ok hn)]

end Extractor

end TreePaths
