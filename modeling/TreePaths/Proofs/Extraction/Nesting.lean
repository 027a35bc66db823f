import TreePaths.Proofs.Extraction.Calls
import TreePaths.Proofs.Extraction.Level

/-!
Runs give the cursor back if their callbacks do. So a callback may run other extractors on the same
cursor, whose callbacks may do so in turn: the code around such a run goes on as if it had not been
made.
-/

namespace TreePaths

open TreePaths.Action TreePaths.Effect

variable {σ ε ω α β : Type}

structure Session.Agrees (view : σ → ω) (s t : Session σ) : Prop extends s.SameCursor t where
  view : view t.state = view s.state

namespace Session.Agrees

variable {view : σ → ω} {s t u : Session σ}

theorem refl (s : Session σ) : s.Agrees view s :=
  ⟨⟨rfl, rfl⟩, rfl⟩

theorem symm (h : s.Agrees view t) : t.Agrees view s :=
  ⟨⟨h.cursor.symm, h.indexed.symm⟩, h.view.symm⟩

theorem trans (h : s.Agrees view t) (h' : t.Agrees view u) : s.Agrees view u :=
  ⟨⟨h'.cursor.trans h.cursor, h'.indexed.trans h.indexed⟩, h'.view.trans h.view⟩

theorem moved (h : s.Agrees view t) (m : Move) (c : Cursor) :
    (moved s m c).Agrees view (moved t m c) :=
  ⟨⟨rfl, h.indexed⟩, h.view⟩

end Session.Agrees

namespace Action

/-- Whenever the action returns, it has left the cursor and the view of the state as they were. -/
def Keeps (view : σ → ω) (a : Action σ ε α) : Prop :=
  ∀ s v s', exec a s = (.ok v, s') → s.Agrees view s'

/-- Whenever the first action returns, the second one returns the same, if it begins in a session
that agrees, and the sessions agree in the end. -/
def Followed (view : σ → ω) (a b : Action σ ε α) : Prop :=
  ∀ s t, s.Agrees view t → ∀ v s', exec a s = (.ok v, s') →
    ∃ t', exec b t = (.ok v, t') ∧ s'.Agrees view t'

theorem compatible_followed (view : σ → ω) :
    Compatible fun {α : Type} (a b : Action σ ε α) => Followed view a b where
  pure v s t hst w s' h := by
    obtain ⟨hw, rfl⟩ := Prod.mk.inj h
    exact ⟨t, Prod.ext hw rfl, hst⟩
  throw f s t hst w s' h := by cases h
  bind hab hkl s t hst w s' h := by
    obtain ⟨v, s₁, ha, h⟩ := exec_bind_eq_ok.mp h
    obtain ⟨t₁, hb, h₁⟩ := hab s t hst v s₁ ha
    rw [exec_bind_ok hb]
    exact hkl v s₁ t₁ h₁ w s' h
  look q s t hst w s' h := by
    obtain ⟨hw, rfl⟩ := Prod.mk.inj h
    exact ⟨t, by rw [exec_look, hst.cursor, hst.indexed, hw], hst⟩
  log e s t hst w s' h := by
    obtain ⟨-, rfl⟩ := Prod.mk.inj h
    exact ⟨_, rfl, ⟨hst.cursor, hst.indexed⟩, hst.view⟩
  stepIn s t hst w s' h := by
    obtain ⟨c, hc, rfl⟩ := stepIn_of_exec h
    exact ⟨_, exec_stepIn (hst.cursor ▸ hc), hst.moved .stepIn c⟩
  stepOut s t hst w s' h := by
    obtain ⟨c, hc, rfl⟩ := stepOut_of_exec h
    exact ⟨_, exec_stepOut (hst.cursor ▸ hc), hst.moved .stepOut c⟩
  next s t hst w s' h := by
    obtain ⟨hw, rfl⟩ := Prod.mk.inj h
    refine ⟨_, ?_, hst.moved .next s.cursor.next⟩
    rw [exec_next, hst.cursor, hw]

end Action

namespace Extractor

variable {x : Extractor σ ε} {view : σ → ω}

def Inside (view : σ → ω) (s s' : Session σ) : Prop :=
  s'.cursor.outer = s.cursor.outer ∧ s'.indexed = s.indexed ∧ view s'.state = view s.state

theorem respectsCalls_agrees (hx : ∀ r ∈ x.registrations, r.callback.Keeps view) (base : Nat) :
    x.RespectsCalls base (Session.Agrees view) where
  refl := Session.Agrees.refl
  trans := Session.Agrees.trans
  call hr s s' n h := by
    obtain ⟨v, hv, -⟩ := (Registration.exec_invoke_eq_ok base).mp h
    exact hx _ hr s v s' hv

/-- Callbacks that keep the cursor and the view make for walks that keep the containers around. -/
theorem respectsWalk_inside (hx : ∀ r ∈ x.registrations, r.callback.Keeps view) (base : Nat) :
    x.RespectsWalk base (Inside view) where
  refl _ := ⟨rfl, rfl, rfl⟩
  trans h h' := ⟨h'.1.trans h.1, h'.2.1.trans h.2.1, h'.2.2.trans h.2.2⟩
  call hr s s' n h := by
    have hs := (respectsCalls_agrees hx base).call hr h
    exact ⟨by rw [hs.cursor], hs.indexed, hs.view⟩
  next _ := ⟨rfl, rfl, rfl⟩
  log _ _ := ⟨rfl, rfl, rfl⟩
  inner {s s₁ c d} hin h hout := by
    obtain rfl := Except.ok.inj ((Cursor.stepOut_of_stepIn hin h.1).symm.trans hout)
    exact ⟨rfl, h.2⟩

/-- A run keeps what its callbacks keep. -/
theorem run_keeps (hx : ∀ r ∈ x.registrations, r.callback.Keeps view) : x.run.Keeps view := by
  intro s v s' h
  rw [run_eq_runWithin] at h
  obtain ⟨rs, s₁, hrs, hstart, hrest⟩ := parts_of_runWithin h
  have hs₁ := (respectsCalls_agrees hx _).visitStart hrs hstart
  obtain rfl | ⟨fuel, cs, d, n, s₂, c, hcs, hin, hwalk, hout, rfl⟩ := hrest
  · exact hs₁
  · have hs₂ := (respectsWalk_inside hx _).walk hcs hwalk
    obtain rfl := Except.ok.inj ((Cursor.stepOut_of_stepIn hin hs₂.1).symm.trans hout)
    exact hs₁.trans ⟨⟨rfl, hs₂.2.1⟩, hs₂.2.2⟩

end Extractor

/-- In a run that returns all callbacks have returned. -/
theorem Extractor.forall_mem_calls_of_run {x : Extractor σ ε} {P : Call → Prop}
    {s s' : Session σ} (hx : ∀ e ∈ x.registrations.zipIdx, ∀ s v s',
      exec e.1.callback s = (.ok v, s') → P (e.1.call e.2 s))
    (h : exec x.run s = (.ok (), s')) : ∀ k ∈ x.calls s, P k := by
  let T (s s' : Session (σ × List Call)) : Prop :=
    (∀ k ∈ s.state.2, P k) → ∀ k ∈ s'.state.2, P k
  have hT : x.logged.RespectsWalk s.cursor.depth T :=
    { refl := fun _ hs => hs
      trans := fun h h' hs => h' (h hs)
      call := by
        intro r hr s s' n h hs k hk
        obtain ⟨e, he, rfl⟩ := List.mem_map.mp hr
        obtain ⟨v, hv, -⟩ := (Registration.exec_invoke_eq_ok _).mp h
        rw [Registration.exec_logged] at hv
        obtain ⟨hok, rfl⟩ := Prod.mk.inj hv
        rcases List.mem_append.mp hk with hk | hk
        · exact hs k hk
        · exact List.mem_singleton.mp hk ▸ hx e he s.forget v _ (Prod.ext hok rfl)
      next := fun _ hs => hs
      log := fun _ _ hs => hs
      inner := fun _ h _ hs => h hs }
  have hrun := x.exec_run_logged s
  rw [h] at hrun
  have hend := hT.run hrun
  exact hend fun k hk => absurd hk List.not_mem_nil

/-- In a run of steady callbacks every call leaves the cursor as it found it. -/
theorem Extractor.Steady.sameCursor_of_mem_calls {x : Extractor σ ε} (hx : x.Steady)
    {s s' : Session σ} (h : exec x.run s = (.ok (), s')) :
    ∀ k ∈ x.calls s, k.before.SameCursor k.after := by
  refine forall_mem_calls_of_run (fun e he s v s' hcall => ?_) h
  have hsame := hx e.1 (List.fst_mem_of_mem_zipIdx he) s v s' hcall
  simp only [Registration.call, hcall]
  exact ⟨hsame.cursor, hsame.indexed⟩

open Classical in
/-- The same registration, but where a call would not fulfil a condition it fails. -/
noncomputable def Registration.guarded (P : Call → Prop) (i : Nat) (r : Registration σ ε) :
    Registration σ ε where
  path := r.path
  callback := fun s => if P (r.call i s) then exec r.callback s else (.error .exhausted, s)

theorem Registration.exec_guarded {P : Call → Prop} {i : Nat} {r : Registration σ ε}
    {s : Session σ} (h : P (r.call i s)) : exec (r.guarded P i).callback s = exec r.callback s :=
  if_pos h

theorem Registration.of_exec_guarded {P : Call → Prop} {i : Nat} {r : Registration σ ε}
    {s s' : Session σ} {v : Value} (h : exec (r.guarded P i).callback s = (.ok v, s')) :
    P (r.call i s) ∧ exec r.callback s = (.ok v, s') := by
  by_cases hP : P (r.call i s)
  · exact ⟨hP, exec_guarded hP ▸ h⟩
  · have hfail : exec (r.guarded P i).callback s = (.error .exhausted, s) := if_neg hP
    rw [hfail] at h
    cases h

/-- If each call of a run leaves the cursor as it finds it, so does the run. -/
theorem Extractor.sameCursor_of_calls {x : Extractor σ ε} {s s' : Session σ}
    (hcalls : ∀ k ∈ x.calls s, k.before.SameCursor k.after) (h : exec x.run s = (.ok (), s')) :
    s.SameCursor s' := by
  let P (k : Call) : Prop := k.before.SameCursor k.after
  have hsame := (x.calls_recast (f := ⟨Registration.guarded P, fun _ _ => rfl⟩)
    (fun _ _ _ hP => Registration.exec_guarded hP) hcalls).2
  have hkeeps : ∀ r ∈ (x.recast ⟨Registration.guarded P, fun _ _ => rfl⟩).registrations,
      r.callback.Keeps fun _ => () := by
    intro r hr s v s' hs
    obtain ⟨e, -, rfl⟩ := List.mem_map.mp hr
    obtain ⟨hP, hcall⟩ := Registration.of_exec_guarded hs
    simp only [P, Registration.call, hcall] at hP
    exact ⟨⟨hP.cursor, hP.indexed⟩, rfl⟩
  exact (run_keeps hkeeps s () s' (hsame.trans h)).toSameCursor

/-- The first action is the second one with runs of extractors nested in it, to any depth. Its own
code looks at nothing but the cursor and the view of the state. The callbacks of a nested run see at
least this view; without what is nested in them in turn they would leave it and the cursor as they
were. -/
inductive Nests : {ω : Type} → (σ → ω) → {α : Type} → Action σ ε α → Action σ ε α → Prop where
  | own {ω α : Type} {view : σ → ω} {a : Action σ ε α} (h : a.Followed view a) : Nests view a a
  | bind {ω α β : Type} {view : σ → ω} {a b : Action σ ε α} {k l : α → Action σ ε β}
    (hab : Nests view a b) (hkl : ∀ v, Nests view (k v) (l v)) : Nests view (a >>= k) (b >>= l)
  | run {ω ω' : Type} {view : ω' → ω} {inner : σ → ω'} {y : Extractor σ ε}
    {plain : Registration σ ε → Action σ ε Value}
    (hnests : ∀ r ∈ y.registrations, Nests inner r.callback (plain r))
    (hkeeps : ∀ r ∈ y.registrations, (plain r).Keeps (view ∘ inner)) :
    Nests (view ∘ inner) y.run (pure ())

theorem Action.Followed.keeps {ω' : Type} {view : ω' → ω} {inner : σ → ω'} {a b : Action σ ε α}
    (h : a.Followed inner b) (hb : b.Keeps (view ∘ inner)) : a.Keeps (view ∘ inner) := by
  intro s v s' hs
  obtain ⟨t', ht, hagrees⟩ := h s s (.refl s) v s' hs
  exact (hb s v t' ht).trans ⟨hagrees.symm.toSameCursor, congrArg view hagrees.symm.view⟩

theorem Nests.followed {view : σ → ω} {a b : Action σ ε α} (h : Nests view a b) :
    a.Followed view b := by
  induction h with
  | own h => exact h
  | bind _ _ hab hkl => exact (compatible_followed _).bind hab hkl
  | run _ hkeeps ih =>
    intro s t hst v s' hs
    have hs' := Extractor.run_keeps (fun r hr => (ih r hr).keeps (hkeeps r hr)) s v s' hs
    exact ⟨t, rfl, hs'.symm.trans hst⟩

/-- A call without what only its session tells: the callback, the cursor before and after, and what
was returned. -/
def Call.gist (k : Call) : Nat × Cursor × Option Value × Cursor :=
  (k.order, k.before.cursor, k.answer, k.after.cursor)

def viewLogged (view : σ → ω) (st : σ × List Call) :
    ω × List (Nat × Cursor × Option Value × Cursor) :=
  (view st.1, st.2.map Call.gist)

theorem Registration.followed_logged {view : σ → ω} {r r' : Registration σ ε}
    (h : r.callback.Followed view r'.callback) (i : Nat) :
    (r.logged i).callback.Followed (viewLogged view) (r'.logged i).callback := by
  intro s t hst v s' hs
  rcases hr : exec r.callback s.forget with ⟨e | w, s₁⟩
  · rw [exec_logged, hr] at hs
    cases hs
  · rw [exec_logged, hr] at hs
    obtain ⟨hw, rfl⟩ := Prod.mk.inj hs
    obtain ⟨hview, hlog⟩ := Prod.mk.inj hst.view
    have hforget : s.forget.Agrees view t.forget := ⟨⟨hst.cursor, hst.indexed⟩, hview⟩
    obtain ⟨t₁, ht, h₁⟩ := h s.forget t.forget hforget w s₁ hr
    have hgist : (r'.call i t.forget).gist = (r.call i s.forget).gist := by
      simp only [call, Call.gist, hr, ht, Session.withState, h₁.cursor, hforget.cursor]
    refine ⟨_, by rw [exec_logged, ht, hw], ⟨h₁.cursor, h₁.indexed⟩, ?_⟩
    simp only [viewLogged, Session.withState, List.map_append, List.map_cons, List.map_nil, hgist,
      h₁.view, hlog]

namespace Extractor

variable {x : Extractor σ ε} {view : σ → ω} {f : Registration σ ε → Action σ ε Value}

/-- Callbacks that follow those of an extractor make a run that follows its run, call by call. -/
theorem run_withCallbacks (hf : ∀ r ∈ x.registrations, r.callback.Followed view (f r))
    {s t s' : Session σ} (hst : s.Agrees view t) (h : exec x.run s = (.ok (), s')) :
    ∃ t', exec (x.withCallbacks f).run t = (.ok (), t') ∧ s'.Agrees view t' ∧
      (x.calls s).map Call.gist = ((x.withCallbacks f).calls t).map Call.gist := by
  have hrun : x.logged.run.Followed (viewLogged view) (x.withCallbacks f).logged.run := by
    rw [withCallbacks_eq_recast, logged_recast]
    refine (compatible_followed (viewLogged view)).runWithin_of_mem x (fun e he => ?_) budget
    have hfollowed : e.1.callback.Followed view (Registration.mk e.1.path (f e.1)).callback :=
      hf e.1 (List.fst_mem_of_mem_zipIdx he)
    exact Registration.followed_logged hfollowed e.2
  have hs := x.exec_run_logged s
  rw [h] at hs
  obtain ⟨t', ht, hagrees⟩ := hrun (s.withState (s.state, [])) (t.withState (t.state, []))
    ⟨⟨hst.cursor, hst.indexed⟩, congrArg (·, []) hst.view⟩ () _ hs
  rw [exec_run_logged] at ht
  obtain ⟨hok, rfl⟩ := Prod.mk.inj ht
  obtain ⟨hview, hcalls⟩ := Prod.mk.inj hagrees.view
  exact ⟨_, Prod.ext hok rfl, ⟨⟨hagrees.cursor, hagrees.indexed⟩, hview⟩, hcalls.symm⟩

/-- If each call leaves the cursor as it finds it, so does a run that returns. A callback with
nested runs in it leaves the cursor as it finds it if it does so without them; and they change
neither the calls of the run around them nor the session that it leaves, as far as the code of its
callbacks looks at it. -/
theorem run_gives_back (x : Extractor σ ε) (view : σ → ω) :
    (∀ s s', (∀ k ∈ x.calls s, k.before.SameCursor k.after) → exec x.run s = (.ok (), s') →
      s.SameCursor s') ∧
    ∀ plain : Registration σ ε → Action σ ε Value,
      (∀ r ∈ x.registrations, Nests view r.callback (plain r)) →
      (∀ r ∈ x.registrations, Registration.Steady ⟨r.path, plain r⟩ → r.Steady) ∧
      ∀ s t s', s.Agrees view t → exec x.run s = (.ok (), s') →
        ∃ t', exec (x.withCallbacks plain).run t = (.ok (), t') ∧ s'.Agrees view t' ∧
          (x.calls s).map Call.gist = ((x.withCallbacks plain).calls t).map Call.gist := by
  refine ⟨fun s s' => sameCursor_of_calls, fun plain hplain => ⟨fun r hr hsteady => ?_, ?_⟩⟩
  · have hkeeps : (plain r).Keeps ((fun _ => ()) ∘ view) := fun s v s' h => ⟨hsteady s v s' h, rfl⟩
    exact fun s v s' h => ((hplain r hr).followed.keeps hkeeps s v s' h).toSameCursor
  · exact fun s t s' hst h => run_withCallbacks (fun r hr => (hplain r hr).followed) hst h

def Sample.tick (first : Bool) : Action (Nat × Nat) Empty Unit :=
  modify fun s => { s with
    state := if first then (s.state.1 + 1, s.state.2) else (s.state.1, s.state.2 + 1) }

/-- In each container, counts the first child and leaves the container. -/
def Sample.within : Extractor (Nat × Nat) Empty where
  registrations := [⟨⟨[], [⟨.wildcard, []⟩]⟩, do Sample.tick false; return .int 1⟩]
  options := { relative := true }

def Sample.onValue (inner : Action (Nat × Nat) Empty Unit) : Action (Nat × Nat) Empty Value := do
  Sample.tick true
  inner
  return .int 0

def Sample.around (inner : Action (Nat × Nat) Empty Unit) : Extractor (Nat × Nat) Empty where
  registrations := [⟨⟨[], [⟨.field "a", []⟩]⟩, Sample.onValue inner⟩]
  options := {}

theorem Sample.nests_onValue :
    Nests Prod.fst (Sample.onValue Sample.within.run) (Sample.onValue (pure ())) := by
  have htick {ω : Type} {view : Nat × Nat → ω} {first : Bool} (h : ∀ n m, view n = view m →
      view (if first then (n.1 + 1, n.2) else (n.1, n.2 + 1)) =
        view (if first then (m.1 + 1, m.2) else (m.1, m.2 + 1))) :
      (Sample.tick first).Followed view (Sample.tick first) := by
    intro s t hst v s' hs
    obtain ⟨hv, rfl⟩ := Prod.mk.inj hs
    exact ⟨_, Prod.ext hv rfl, ⟨hst.cursor, hst.indexed⟩, (h _ _ hst.view.symm).symm⟩
  have hfirst : (Sample.tick true).Followed Prod.fst (Sample.tick true) :=
    htick fun n m h => congrArg (· + 1) h
  have hsecond : (Sample.tick false).Followed id (Sample.tick false) :=
    htick fun n m h => congrArg (fun n : Nat × Nat => (n.1, n.2 + 1)) h
  have hreturn :
      Nests (σ := Nat × Nat) (ε := Empty) Prod.fst (pure (Value.int 0)) (pure (.int 0)) :=
    .own ((compatible_followed _).pure _)
  refine .bind (.own hfirst) fun _ => .bind ?_ fun _ => hreturn
  have hown : ∀ r ∈ Sample.within.registrations, Nests id r.callback r.callback := by
    intro r hr
    obtain rfl := List.mem_singleton.mp hr
    exact .own ((compatible_followed id).bind hsecond fun _ => (compatible_followed id).pure _)
  have hkeeps : ∀ r ∈ Sample.within.registrations, r.callback.Keeps (Prod.fst ∘ id) := by
    intro r hr
    obtain rfl := List.mem_singleton.mp hr
    intro s v s' h
    obtain ⟨-, rfl⟩ := Prod.mk.inj h
    exact ⟨⟨rfl, rfl⟩, rfl⟩
  exact .run hown hkeeps

def Sample.fresh : Session (Nat × Nat) :=
  .start Sample.document true (0, 0)

theorem run_gives_back_sample :
    ∃ s', exec (Sample.around Sample.within.run).run Sample.fresh = (.ok (), s') ∧
      s'.state = (2, 2) ∧ Sample.fresh.SameCursor s' ∧
      ∃ t', exec (Sample.around (pure ())).run Sample.fresh = (.ok (), t') ∧
        s'.Agrees Prod.fst t' ∧
        ((Sample.around Sample.within.run).calls Sample.fresh).map Call.gist =
          ((Sample.around (pure ())).calls Sample.fresh).map Call.gist := by
  have hrun := exec_eq_ok (a := (Sample.around Sample.within.run).run) (s := Sample.fresh) rfl
  have hnests : ∀ r ∈ (Sample.around Sample.within.run).registrations,
      Nests Prod.fst r.callback (Sample.onValue (pure ())) := by
    intro r hr
    obtain rfl := List.mem_singleton.mp hr
    exact Sample.nests_onValue
  have hplain (p : SearchPath) : Registration.Steady ⟨p, Sample.onValue (pure ())⟩ := by
    intro s v s' h
    obtain ⟨-, rfl⟩ := Prod.mk.inj h
    exact ⟨rfl, rfl⟩
  obtain ⟨hback, hnested⟩ := (Sample.around Sample.within.run).run_gives_back Prod.fst
  obtain ⟨hsteady, hfollows⟩ := hnested _ hnests
  have hcalls := Steady.sameCursor_of_mem_calls (fun r hr => hsteady r hr (hplain r.path)) hrun
  obtain ⟨t', ht, hagrees, hgist⟩ := hfollows _ _ _ (.refl _) hrun
  exact ⟨_, hrun, rfl, hback _ _ hcalls hrun, t', ht, hagrees, hgist⟩

end Extractor
end TreePaths
