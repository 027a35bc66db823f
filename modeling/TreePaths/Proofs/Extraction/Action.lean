import TreePaths.Extraction.Extractor
import TreePaths.Proofs.Effect

/-!
What an action does to a session: what its single steps do, and what the call of a callback does.
-/

namespace TreePaths

open TreePaths.Effect

namespace Action

variable {σ ε α : Type}

@[simp] theorem exec_look (f : Session σ → α) (s : Session σ) :
    exec (look f : Action σ ε α) s = (.ok (f s), s) := rfl

@[simp] theorem exec_log (e : Event) (s : Session σ) :
    exec (log e : Action σ ε Unit) s = (.ok (), { s with events := e :: s.events }) := rfl

@[simp] theorem exec_record (m : Move) (s : Session σ) :
    exec (record m : Action σ ε Unit) s = (.ok (), { s with moves := m :: s.moves }) := rfl

theorem exec_value (s : Session σ) : exec (value : Action σ ε Value) s =
    (s.cursor.value.mapError failureOf, s) := by
  rw [value, exec_bind_ok (exec_get s)]
  cases s.cursor.value <;> rfl

def moved (s : Session σ) (m : Move) (c : Cursor) : Session σ :=
  { s with cursor := c, moves := m :: s.moves }

@[simp] theorem cursor_moved (s : Session σ) (m : Move) (c : Cursor) :
    (moved s m c).cursor = c := rfl

@[simp] theorem state_moved (s : Session σ) (m : Move) (c : Cursor) :
    (moved s m c).state = s.state := rfl

@[simp] theorem exec_next (s : Session σ) : exec (next : Action σ ε Bool) s =
    (.ok s.cursor.next.isInside, moved s .next s.cursor.next) := rfl

theorem exec_stepIn {s : Session σ} {c : Cursor} (h : s.cursor.stepIn = .ok c) :
    exec (stepIn : Action σ ε Unit) s = (.ok (), moved s .stepIn c) := by
  simp [stepIn, exec_bind, moveBy, h, moved]

theorem stepIn_of_exec {s s' : Session σ}
    (h : exec (stepIn : Action σ ε Unit) s = (.ok (), s')) :
    ∃ c, s.cursor.stepIn = .ok c ∧ s' = moved s .stepIn c := by
  cases hc : s.cursor.stepIn with
  | error f => simp [stepIn, exec_bind, moveBy, hc] at h
  | ok c =>
    rw [exec_stepIn hc] at h
    exact ⟨c, rfl, (Prod.mk.inj h).2.symm⟩

theorem exec_stepOut {s : Session σ} {c : Cursor} (h : s.cursor.stepOut = .ok c) :
    exec (stepOut : Action σ ε Unit) s = (.ok (), moved s .stepOut c) := by
  simp [stepOut, exec_bind, moveBy, h, moved]

theorem stepOut_of_exec {s s' : Session σ}
    (h : exec (stepOut : Action σ ε Unit) s = (.ok (), s')) :
    ∃ c, s.cursor.stepOut = .ok c ∧ s' = moved s .stepOut c := by
  cases hc : s.cursor.stepOut with
  | error f => simp [stepOut, exec_bind, moveBy, hc] at h
  | ok c =>
    rw [exec_stepOut hc] at h
    exact ⟨c, rfl, (Prod.mk.inj h).2.symm⟩

end Action

open TreePaths.Action TreePaths.Effect

structure Session.SameCursor {σ : Type} (s s' : Session σ) : Prop where
  cursor : s'.cursor = s.cursor
  indexed : s'.indexed = s.indexed

theorem Session.SameCursor.ordinal? {σ : Type} {s s' : Session σ} (h : s.SameCursor s') :
    s'.ordinal? = s.ordinal? := by
  simp [Session.ordinal?, h.cursor, h.indexed]

namespace Registration

variable {σ ε : Type} (r : Registration σ ε)

/-- Whenever the callback returns, it has left the cursor as it found it. -/
def Steady : Prop :=
  ∀ s v s', exec r.callback s = (.ok v, s') → s.SameCursor s'

variable {r} {s s' : Session σ} {v : Value} (base : Nat)

theorem exec_invoke (h : exec r.callback s = (.ok v, s')) (hs : s.SameCursor s') :
    exec (r.invoke base) s = (r.checkCount (s.cursor.depth - base) v, s') := by
  unfold invoke
  rw [exec_bind_ok (exec_get s)]
  dsimp only
  rw [exec_bind_ok h, exec_bind_ok (exec_get s')]
  simp only [hs.cursor, hs.ordinal?, ne_eq, not_true_eq_false, or_self, if_false]
  cases r.checkCount (s.cursor.depth - base) v <;> simp

/-- Only integers between zero and the limit are accepted as counts. -/
theorem checkCount_eq_ok {limit n : Nat} :
    r.checkCount limit v = .ok n ↔ v = .int n ∧ n ≤ limit := by
  constructor
  · intro h
    cases v with
    | int m =>
      rw [checkCount] at h
      split at h
      next hm =>
        obtain ⟨m, rfl⟩ := Int.eq_ofNat_of_zero_le hm.1
        obtain rfl := Except.ok.inj h
        exact ⟨rfl, Int.ofNat_le.mp hm.2⟩
      · split at h <;> cases h
    | _ => cases h
  · rintro ⟨rfl, h⟩
    simp [checkCount, h]

/-- What a call has found when it is accepted. -/
theorem exec_invoke_eq_ok {n : Nat} : exec (r.invoke base) s = (.ok n, s') ↔
    ∃ v, exec r.callback s = (.ok v, s') ∧ s'.cursor.depth = s.cursor.depth ∧
      s'.cursor.position = s.cursor.position ∧ s'.ordinal? = s.ordinal? ∧
      r.checkCount (s.cursor.depth - base) v = .ok n := by
  unfold invoke
  rw [exec_bind_ok (exec_get s)]
  dsimp only
  rcases hc : exec r.callback s with ⟨e | v, s₁⟩
  · simp [exec_bind_error hc]
  rw [exec_bind_ok hc, exec_bind_ok (exec_get s₁)]
  constructor
  · intro h
    split at h
    · simp [exec_bind] at h
    split at h
    · simp [exec_bind] at h
    next hdepth hplace =>
      simp only [not_or, ne_eq, Decidable.not_not] at hdepth hplace
      cases hn : r.checkCount (s.cursor.depth - base) v with
      | error e => simp [hn] at h
      | ok m =>
        rw [hn] at h
        obtain ⟨hm, rfl⟩ := Prod.mk.inj h
        obtain rfl := Except.ok.inj hm
        exact ⟨v, rfl, hdepth, hplace.1, hplace.2, hn⟩
  · rintro ⟨w, hw, hdepth, hposition, hordinal, hn⟩
    obtain ⟨hvw, rfl⟩ := Prod.mk.inj hw
    obtain rfl := Except.ok.inj hvw
    simp [hdepth, hposition, hordinal, hn]

theorem Steady.invoke (hr : r.Steady) {n : Nat} (h : exec (r.invoke base) s = (.ok n, s')) :
    s.SameCursor s' := by
  obtain ⟨v, hv, -⟩ := (exec_invoke_eq_ok base).mp h
  exact hr s v s' hv

end Registration

end TreePaths
