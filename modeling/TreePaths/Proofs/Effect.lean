import TreePaths.Effect

/-!
What an effect does to a state: its outcome and the state after it, step by step.
-/

namespace TreePaths.Effect

variable {σ ε α β : Type}

theorem exec_eq_ok {a : Effect σ ε α} {s : σ} {v : α} (h : (exec a s).1 = .ok v) :
    exec a s = (.ok v, (exec a s).2) :=
  Prod.ext h rfl

@[simp] theorem exec_pure (v : α) (s : σ) : exec (pure v : Effect σ ε α) s = (.ok v, s) := rfl

@[simp] theorem exec_throw (e : ε) (s : σ) :
    exec (throw e : Effect σ ε α) s = (.error e, s) := rfl

@[simp] theorem exec_get (s : σ) : exec (get : Effect σ ε σ) s = (.ok s, s) := rfl

@[simp] theorem exec_set (s s' : σ) : exec (set s' : Effect σ ε PUnit) s = (.ok (), s') := rfl

/-- The second of two effects begins where the first one has ended, if that has not failed. -/
theorem exec_bind (a : Effect σ ε α) (f : α → Effect σ ε β) (s : σ) :
    exec (a >>= f) s =
      match exec a s with
      | (.ok v, s') => exec (f v) s'
      | (.error e, s') => (.error e, s') := by
  simp only [exec, ExceptT.run_bind, StateT.run_bind]
  rcases (a.run.run s : Except ε α × σ) with ⟨_ | _, _⟩ <;> rfl

theorem exec_bind_ok {a : Effect σ ε α} {f : α → Effect σ ε β} {s s' : σ} {v : α}
    (h : exec a s = (.ok v, s')) : exec (a >>= f) s = exec (f v) s' := by
  rw [exec_bind, h]

theorem exec_bind_error {a : Effect σ ε α} {f : α → Effect σ ε β} {s s' : σ} {e : ε}
    (h : exec a s = (.error e, s')) : exec (a >>= f) s = (.error e, s') := by
  rw [exec_bind, h]

theorem exec_bind_eq_ok {a : Effect σ ε α} {f : α → Effect σ ε β} {s s' : σ} {w : β} :
    exec (a >>= f) s = (.ok w, s') ↔
      ∃ v s₁, exec a s = (.ok v, s₁) ∧ exec (f v) s₁ = (.ok w, s') := by
  rw [exec_bind]
  rcases exec a s with ⟨e | v, s₁⟩
  · simp
  · exact ⟨fun h => ⟨v, s₁, rfl, h⟩, fun ⟨_, _, h₁, h₂⟩ => by cases h₁; exact h₂⟩

/-- Two effects agree on a state if their first steps do, and then their later steps on every
result. -/
theorem exec_bind_congr {a b : Effect σ ε α} {f g : α → Effect σ ε β} {s : σ}
    (h : exec a s = exec b s)
    (hfg : ∀ v s', exec b s = (.ok v, s') → exec (f v) s' = exec (g v) s') :
    exec (a >>= f) s = exec (b >>= g) s := by
  rw [exec_bind, exec_bind, h]
  split
  next v s' hb => exact hfg v s' hb
  next => rfl

theorem exec_bind_of_eq {a b : Effect σ ε α} {f : α → Effect σ ε β} {s t : σ}
    (h : exec a s = exec b t) : exec (a >>= f) s = exec (b >>= f) t := by
  rw [exec_bind, exec_bind, h]

/-- What is caught is handled in the state that the failure has left. -/
theorem exec_tryCatch (a : Effect σ ε α) (k : ε → Effect σ ε α) (s : σ) :
    exec (tryCatch a k) s =
      match exec a s with
      | (.ok v, s') => (.ok v, s')
      | (.error e, s') => exec (k e) s' := by
  rcases h : exec a s with ⟨_ | _, _⟩ <;>
    simp only [exec, ExceptT.run] at h <;>
    simp only [exec, tryCatch, tryCatchThe, MonadExceptOf.tryCatch, ExceptT.tryCatch,
      ExceptT.run_mk, StateT.run_bind, h] <;>
    rfl

end TreePaths.Effect
