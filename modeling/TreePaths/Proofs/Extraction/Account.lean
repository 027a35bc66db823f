import TreePaths.Proofs.Extraction.Recast
import TreePaths.Proofs.Text.Digit

/-!
An account of the calls that a run makes. Each callback gets a twin that notes its call when it does
the same; what callbacks do to their own state cannot reach the account, and the account does not
change what the run does.
-/

namespace TreePaths

open TreePaths.Action TreePaths.Effect

/-- A call of a callback: its place in the order of registration, the session in which it was
called, what was returned, if the callback returned, and the session then. -/
structure Call where
  order : Nat
  before : Session Unit
  answer : Option Value
  after : Session Unit

namespace Call

def site (k : Call) : Nat × Cursor :=
  (k.order, k.before.cursor)

def count (k : Call) : Nat :=
  match k.answer with
  | some (.int n) => n.toNat
  | _ => 0

/-- The callback left the cursor as it found it, and returned a count between zero and the depth of
the cursor below `base`. -/
def Legal (base : Nat) (k : Call) : Prop :=
  k.before.SameCursor k.after ∧
    ∃ n : Nat, k.answer = some (.int n) ∧ n ≤ k.before.cursor.depth - base

def Idle (k : Call) : Prop :=
  k.before.SameCursor k.after ∧ k.answer = some (.int 0)

/-- The callback returned an integer that has too many digits to be told. -/
def Overlong (k : Call) : Prop :=
  ∃ n : Int, k.answer = some (.int n) ∧ Text.digitLimit < Text.digitCount n

theorem Idle.legal {k : Call} (h : k.Idle) (base : Nat) : k.Legal base :=
  ⟨h.1, 0, h.2, Nat.zero_le _⟩

theorem Idle.count {k : Call} (h : k.Idle) : k.count = 0 := by
  rw [Call.count, h.2]
  rfl

end Call

variable {σ ε : Type}

/-- How a run fails that has made these calls: it has broken the protocol, or else the last call has
returned an integer that cannot be told. -/
inductive Failure.Closes : List Call → Failure ε → Prop
  | violation {K : List Call} {v : Violation} :
      (∀ k, K.getLast? = some k → ¬k.Overlong) → Closes K (.violation v)
  | untold {K : List Call} {k : Call} {n : Int} : k.answer = some (.int n) →
      Text.digitLimit < Text.digitCount n → Closes (K ++ [k]) (.untold n)

theorem Failure.closes_nil (v : Violation) : (Failure.violation v : Failure ε).Closes [] := by
  refine .violation fun k hk => ?_
  cases hk

/-- The answer of the last call tells how it is refused. -/
theorem Failure.closes_of_checkCount {r : Registration σ ε} {K : List Call} {k : Call} {a : Value}
    {limit : Nat} {f : Failure ε} (ha : k.answer = some a) (h : r.checkCount limit a = .error f) :
    f.Closes (K ++ [k]) := by
  have hlast (l : Call) (hl : (K ++ [k]).getLast? = some l) : l.answer = some a := by
    rw [List.getLast?_concat] at hl
    rw [← Option.some.inj hl, ha]
  cases a with
  | int n =>
    rw [Registration.checkCount] at h
    split at h
    · cases h
    split at h
    next hwritable =>
      cases h
      refine .violation fun l hl hover => ?_
      obtain ⟨m, hm, hlong⟩ := hover
      obtain rfl := Value.int.inj (Option.some.inj ((hlast l hl).symm.trans hm))
      exact absurd (of_decide_eq_true hwritable) (Nat.not_le.mpr hlong)
    next hlong =>
      cases h
      exact .untold ha (Nat.lt_of_not_le fun hle => hlong (decide_eq_true hle))
  | _ =>
    cases h
    refine .violation fun l hl hover => ?_
    obtain ⟨m, hm, -⟩ := hover
    cases (hlast l hl).symm.trans hm

def Session.forget (s : Session (σ × List Call)) : Session σ :=
  s.withState s.state.1

namespace Registration

def call (r : Registration σ ε) (i : Nat) (s : Session σ) : Call :=
  ⟨i, s.withState (), (exec r.callback s).1.toOption, (exec r.callback s).2.withState ()⟩

/-- The same registration, whose callback notes that it is called. -/
def logged (i : Nat) (r : Registration σ ε) : Registration (σ × List Call) ε where
  path := r.path
  callback := fun s =>
    let (answer, s') := exec r.callback s.forget
    (answer, s'.withState (s'.state, s.state.2 ++ [r.call i s.forget]))

theorem path_logged (i : Nat) (r : Registration σ ε) : (r.logged i).path = r.path := rfl

/-- Keeping an account of the calls changes nothing else. -/
theorem exec_logged (r : Registration σ ε) (i : Nat) (s : Session (σ × List Call)) :
    exec (r.logged i).callback s =
      ((exec r.callback s.forget).1, (exec r.callback s.forget).2.withState
        ((exec r.callback s.forget).2.state, s.state.2 ++ [r.call i s.forget])) := rfl

/-- In this session the callback leaves the cursor as it finds it and returns a count that it may
return. -/
def Behaves (base : Nat) (r : Registration σ ε) (s : Session σ) : Prop :=
  ∃ (n : Nat) (s' : Session σ),
    exec r.callback s = (.ok (.int n), s') ∧ s.SameCursor s' ∧ n ≤ s.cursor.depth - base

/-- A call is legal exactly if the callback behaves in the session that it is called in. -/
theorem legal_call {base i : Nat} {r : Registration σ ε} {s : Session σ} :
    (r.call i s).Legal base ↔ r.Behaves base s := by
  rcases h : exec r.callback s with ⟨e | v, s'⟩
  · simp [Call.Legal, Behaves, call, h, Except.toOption]
  · constructor
    · rintro ⟨⟨hc, hi⟩, n, hn, hle⟩
      simp only [call, h, Except.toOption, Option.some.injEq] at hn
      simp only [call, h, Session.withState] at hc hi
      exact ⟨n, s', by rw [h, hn], ⟨hc, hi⟩, hle⟩
    · rintro ⟨n, s'', hn, ⟨hc, hi⟩, hle⟩
      rw [h] at hn
      obtain ⟨hv, rfl⟩ := Prod.mk.inj hn
      refine ⟨⟨?_, ?_⟩, n, ?_, hle⟩
      · simpa only [call, h, Session.withState] using hc
      · simpa only [call, h, Session.withState] using hi
      · simp only [call, h, hv, Except.toOption]

def Obedient (base : Nat) (r : Registration σ ε) : Prop :=
  ∀ s, r.Behaves base s

open Classical in
/-- The same registration, but where its callback would not behave it does nothing. -/
noncomputable def tamed (base : Nat) (r : Registration σ ε) : Registration σ ε where
  path := r.path
  callback := fun s => if r.Behaves base s then exec r.callback s else (.ok (.int (0 : Nat)), s)

def Still (r : Registration σ ε) : Prop :=
  ∀ s, (exec r.callback s).2.moves = s.moves

variable {base : Nat} {r : Registration σ ε} {s : Session σ}

theorem path_tamed (base : Nat) (r : Registration σ ε) : (r.tamed base).path = r.path := rfl

theorem exec_tamed (h : r.Behaves base s) :
    exec (r.tamed base).callback s = exec r.callback s :=
  if_pos h

theorem obedient_tamed (base : Nat) (r : Registration σ ε) : (r.tamed base).Obedient base := by
  intro s
  by_cases h : r.Behaves base s
  · rw [Behaves, exec_tamed h]
    exact h
  · exact ⟨0, s, if_neg h, ⟨rfl, rfl⟩, Nat.zero_le _⟩

end Registration

/-- The second session is the first one after some calls at its cursor; if `still` holds, these have
made no moves. -/
structure Session.Called (still : Prop) (s s' : Session (σ × List Call)) (K : List Call) : Prop
    extends s.SameCursor s' where
  account : s'.state.2 = s.state.2 ++ K
  site : ∀ k ∈ K, k.before.cursor = s.cursor
  moves : still → s'.moves = s.moves

namespace Session.Called

variable {still : Prop} {s s₁ s₂ : Session (σ × List Call)} {K L : List Call}

theorem nil (s : Session (σ × List Call)) : s.Called still s [] :=
  ⟨⟨rfl, rfl⟩, (List.append_nil _).symm, nofun, fun _ => rfl⟩

theorem append (h : s.Called still s₁ K) (h' : s₁.Called still s₂ L) :
    s.Called still s₂ (K ++ L) where
  cursor := h'.cursor.trans h.cursor
  indexed := h'.indexed.trans h.indexed
  account := by rw [h'.account, h.account, List.append_assoc]
  site k hk := by
    rcases List.mem_append.mp hk with hk | hk
    · exact h.site k hk
    · exact (h'.site k hk).trans h.cursor
  moves hstill := (h'.moves hstill).trans (h.moves hstill)

end Session.Called

/-- A callback that returns and leaves the cursor alone: the call is noted, and what came back is
checked. -/
theorem Registration.exec_invoke_logged {still : Prop} {r : Registration σ ε}
    {s : Session (σ × List Call)} {s₁ : Session σ} {v : Value}
    (hcall : exec r.callback s.forget = (.ok v, s₁)) (hsame : s.forget.SameCursor s₁)
    (hstill : still → r.Still) (base i : Nat) :
    ∃ s', s.Called still s' [r.call i s.forget] ∧ (r.call i s.forget).answer = some v ∧
      s'.state.1 = s₁.state ∧
      exec ((r.logged i).invoke base) s = (r.checkCount (s.cursor.depth - base) v, s') := by
  let s' := s₁.withState (s₁.state, s.state.2 ++ [r.call i s.forget])
  have hlogged : exec (r.logged i).callback s = (.ok v, s') := by
    rw [Registration.exec_logged, hcall]
  have hs' : s.SameCursor s' := ⟨hsame.cursor, hsame.indexed⟩
  refine ⟨s', ⟨hs', rfl, fun k hk => ?_, fun h => ?_⟩, ?_, rfl, ?_⟩
  · rw [List.mem_singleton.mp hk]
    rfl
  · have hmoves := hstill h s.forget
    rwa [hcall] at hmoves
  · rw [Registration.call, hcall]
    rfl
  · exact Registration.exec_invoke base hlogged hs'

namespace Extractor

def logged (x : Extractor σ ε) : Extractor (σ × List Call) ε :=
  x.recast ⟨Registration.logged, Registration.path_logged⟩

def calls (x : Extractor σ ε) (s : Session σ) : List Call :=
  (exec x.logged.run (s.withState (s.state, []))).2.state.2

noncomputable def tamed (base : Nat) (x : Extractor σ ε) : Extractor σ ε :=
  x.recast ⟨fun _ => Registration.tamed base, fun _ => Registration.path_tamed base⟩

variable (x : Extractor σ ε) (base : Nat) (s : Session σ)

theorem recast_self : x.recast ⟨fun _ r => r, fun _ _ => rfl⟩ = x := by
  rw [recast, List.zipIdx_map_fst]

theorem logged_recast {τ : Type} (f : Recasting σ τ ε) : (x.recast f).logged =
    x.recast ⟨fun i r => (f.registration i r).logged i, f.path⟩ := by
  rw [logged, recast, recast, zipIdx_map_zipIdx, List.map_map]
  rfl

/-- Keeping an account changes nothing in a run, whatever the callbacks do. -/
theorem exec_run_logged : exec x.logged.run (s.withState (s.state, [])) =
    ((exec x.run s).1, (exec x.run s).2.withState ((exec x.run s).2.state, x.calls s)) := by
  have hcallback : ∀ (i : Nat) (r : Registration σ ε) s (st : σ × List Call),
      Alike (fun st p => p.1 = st) (fun _ => False) (fun v => v) (fun v => v) r.callback
        (r.logged i).callback s st := by
    refine fun i r s st => Alike.of_exec rfl False.elim fun hst =>
      .inr ⟨((exec r.callback s).2.state, st.2 ++ [r.call i s]), ?_, rfl⟩
    have hs : (s.withState st).forget = s := by
      rw [Session.forget, Session.withState, Session.withState, hst]
    rw [Registration.exec_logged, hs]
    rfl
  have hrun := x.alike_run (f := ⟨fun _ r => r, fun _ _ => rfl⟩)
    (g := ⟨Registration.logged, Registration.path_logged⟩) hcallback s (s.state, [])
  rw [recast_self, ← logged] at hrun
  obtain ⟨r, s', hr, hfalse | ⟨st', hst', hR⟩⟩ := hrun.same rfl
  · exact hfalse.elim
  · rw [calls, hst', hr, ← hR]
    rfl

/-- What holds of each call that a callback can make holds of all calls of a run. -/
theorem forall_mem_calls {P : Call → Prop}
    (h : ∀ e ∈ x.registrations.zipIdx, ∀ s, P (e.1.call e.2 s)) : ∀ k ∈ x.calls s, P k := by
  have hcallback : ∀ e ∈ x.registrations.zipIdx, ∀ s (st : σ × List Call),
      Alike (fun p q => p = q ∧ ∀ k ∈ p.2, P k) (fun _ => False) (fun v => v) (fun v => v)
        (e.1.logged e.2).callback (e.1.logged e.2).callback s st := by
    refine fun e he s st => Alike.of_exec (e.1.exec_logged e.2 s) False.elim ?_
    rintro ⟨rfl, hall⟩
    refine .inr ⟨_, e.1.exec_logged e.2 s, rfl, fun k hk => ?_⟩
    rcases List.mem_append.mp hk with hk | hk
    · exact hall k hk
    · exact List.mem_singleton.mp hk ▸ h e he s.forget
  have hrun := x.alike_run_of_mem (f := ⟨Registration.logged, Registration.path_logged⟩)
    (g := ⟨Registration.logged, Registration.path_logged⟩) hcallback
    (s.withState (s.state, [])) (s.state, [])
  rw [← logged] at hrun
  obtain ⟨r, s', hr, hfalse | ⟨st', -, -, hall⟩⟩ :=
    hrun.same ⟨rfl, fun k hk => absurd hk List.not_mem_nil⟩
  · exact hfalse.elim
  · rw [calls, hr]
    exact hall

/-- Callbacks that do the same in all calls that the run of one extractor makes make the same run in
another. -/
theorem calls_recast_of_mem {f g : Recasting σ σ ε} {P : Call → Prop} {s : Session σ}
    (hfg : ∀ e ∈ x.registrations.zipIdx, ∀ s, P ((f.registration e.2 e.1).call e.2 s) →
      exec (g.registration e.2 e.1).callback s = exec (f.registration e.2 e.1).callback s)
    (h : ∀ k ∈ (x.recast f).calls s, P k) :
    (x.recast g).calls s = (x.recast f).calls s ∧
      exec (x.recast g).run s = exec (x.recast f).run s := by
  have hcallback : ∀ e ∈ x.registrations.zipIdx, ∀ s (st : σ × List Call),
      Alike Eq (fun p => ∃ k ∈ p.2, ¬P k) (fun v => v) (fun v => v)
        ((f.registration e.2 e.1).logged e.2).callback
        ((g.registration e.2 e.1).logged e.2).callback s st := by
    refine fun e he s st => Alike.of_exec (Registration.exec_logged _ e.2 s) ?_ ?_
    · rintro ⟨k, hk, hP⟩
      exact ⟨k, List.mem_append_left _ hk, hP⟩
    · rintro rfl
      by_cases hP : P ((f.registration e.2 e.1).call e.2 s.forget)
      · refine .inr ⟨_, ?_, rfl⟩
        have hs : (s.withState s.state).forget = s.forget := rfl
        rw [Registration.exec_logged, hs, Registration.call, hfg e he _ hP]
        rfl
      · exact .inl ⟨_, List.mem_append_right _ List.mem_cons_self, hP⟩
  have hrun := x.alike_run_of_mem (f := ⟨fun i r => (f.registration i r).logged i, f.path⟩)
    (g := ⟨fun i r => (g.registration i r).logged i, g.path⟩) hcallback
    (s.withState (s.state, [])) (s.state, [])
  rw [← logged_recast, ← logged_recast] at hrun
  obtain ⟨r, s', hr, ⟨k, hk, hP⟩ | ⟨st', hst', rfl⟩⟩ := hrun.same rfl
  · exact absurd (h k (by rw [calls, hr]; exact hk)) hP
  · have hsame : exec (x.recast g).logged.run (s.withState (s.state, [])) =
        exec (x.recast f).logged.run (s.withState (s.state, [])) := hst'.trans hr.symm
    have hcalls : (x.recast g).calls s = (x.recast f).calls s := by rw [calls, hsame, calls]
    refine ⟨hcalls, ?_⟩
    rw [exec_run_logged, exec_run_logged] at hsame
    obtain ⟨hresult, hsession⟩ := Prod.mk.inj hsame
    exact Prod.ext hresult (congrArg Session.forget hsession)

/-- Callbacks that do the same in all calls that a run makes make the same run. -/
theorem calls_recast {f : Recasting σ σ ε} {P : Call → Prop} {s : Session σ}
    (hf : ∀ i r s, P (r.call i s) → exec (f.registration i r).callback s = exec r.callback s)
    (h : ∀ k ∈ x.calls s, P k) :
    (x.recast f).calls s = x.calls s ∧ exec (x.recast f).run s = exec x.run s := by
  have hsame := x.calls_recast_of_mem (f := ⟨fun _ r => r, fun _ _ => rfl⟩) (g := f)
    (fun e _ s => hf e.2 e.1 s) (by rwa [recast_self])
  rwa [recast_self] at hsame

/-- If all calls of a run are legal, the same run is made by callbacks that always behave. -/
theorem calls_tamed {base : Nat} {s : Session σ} (h : ∀ k ∈ x.calls s, k.Legal base) :
    (x.tamed base).calls s = x.calls s ∧ exec (x.tamed base).run s = exec x.run s :=
  x.calls_recast (fun _ _ _ hlegal => Registration.exec_tamed (Registration.legal_call.mp hlegal)) h

end Extractor
end TreePaths
