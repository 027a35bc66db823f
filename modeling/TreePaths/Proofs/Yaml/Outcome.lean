import TreePaths.Proofs.Outcome
import TreePaths.Yaml.Fault

/-!
How computations on a state end: with a fault, or with a result and a new state.
-/

namespace TreePaths.Yaml

variable {σ α β : Type}

/-- A computation fails only with a fault that `P` tells of; else its result and the new state are
as they should. -/
def Settles (P : Fault → Prop) (x : StateT σ (Except Fault) α) (s : σ) (Q : α → σ → Prop) : Prop :=
  match x.run s with
  | .error e => P e
  | .ok (a, t) => Q a t

def Yields (P : Fault → Prop) (x : Except Fault α) (Q : α → Prop) : Prop :=
  match x with
  | .error e => P e
  | .ok a => Q a

namespace Settles

variable {P P' : Fault → Prop} {x : StateT σ (Except Fault) α} {s : σ} {Q Q' : α → σ → Prop}

protected theorem pure {a : α} (h : Q a s) : Settles P (pure a) s Q :=
  h

protected theorem throw {e : Fault} (h : P e) : Settles P (throw e) s Q :=
  h

theorem lift {y : Except Fault α} (hok : ∀ a, y = .ok a → Q a s)
    (herror : ∀ e, y = .error e → P e) : Settles P (liftM y) s Q := by
  cases y with
  | error e => exact herror e rfl
  | ok a => exact hok a rfl

protected theorem bind {f : α → StateT σ (Except Fault) β} {R : β → σ → Prop}
    (hx : Settles P x s Q) (hf : ∀ a t, Q a t → Settles P (f a) t R) :
    Settles P (x >>= f) s R := by
  unfold Settles at hx hf ⊢
  rw [StateT.run_bind]
  cases hrun : x.run s with
  | error e =>
    rw [hrun] at hx
    exact hx
  | ok r =>
    rw [hrun] at hx
    exact hf r.1 r.2 hx

theorem weaken (hx : Settles P x s Q) (hP : ∀ e, P e → P' e) (hQ : ∀ a t, Q a t → Q' a t) :
    Settles P' x s Q' := by
  unfold Settles at hx ⊢
  cases hrun : x.run s with
  | error e =>
    rw [hrun] at hx
    exact hP e hx
  | ok r =>
    rw [hrun] at hx
    exact hQ r.1 r.2 hx

theorem mono (hx : Settles P x s Q) (h : ∀ a t, Q a t → Q' a t) : Settles P x s Q' :=
  hx.weaken (fun _ => id) h

theorem get_bind {f : σ → StateT σ (Except Fault) α} (h : Settles P (f s) s Q) :
    Settles P (get >>= f) s Q :=
  h

theorem set_bind {t : σ} {f : PUnit → StateT σ (Except Fault) α} (h : Settles P (f ⟨⟩) t Q) :
    Settles P (set t >>= f) s Q :=
  h

protected theorem modify {f : σ → σ} {Q : PUnit → σ → Prop} (h : Q ⟨⟩ (f s)) :
    Settles P (modify f) s Q :=
  h

protected theorem ite {c : Prop} [Decidable c] {y : StateT σ (Except Fault) α}
    (hx : c → Settles P x s Q) (hy : ¬c → Settles P y s Q) :
    Settles P (if c then x else y) s Q := by
  split
  next h => exact hx h
  next h => exact hy h

theorem run' (h : Settles P x s Q) {R : α → Prop} (hR : ∀ a t, Q a t → R a) :
    Yields P (x.run' s) R := by
  unfold Settles at h
  rw [StateT.run'_eq]
  cases hrun : x.run s with
  | error e => exact (hrun ▸ h :)
  | ok r =>
    rw [hrun] at h
    exact hR r.1 r.2 h

theorem error (h : Settles P x s Q) {e : Fault} (he : x.run s = .error e) : P e := by
  unfold Settles at h
  rwa [he] at h

theorem ok (h : Settles P x s Q) {a : α} {t : σ} (ha : x.run s = .ok (a, t)) : Q a t := by
  unfold Settles at h
  rwa [ha] at h

end Settles

namespace Yields

variable {P : Fault → Prop} {x : Except Fault α} {Q Q' : α → Prop}

protected theorem pure {a : α} (h : Q a) : Yields P (pure a) Q :=
  h

protected theorem bind {f : α → Except Fault β} {R : β → Prop} (hx : Yields P x Q)
    (hf : ∀ a, Q a → Yields P (f a) R) : Yields P (x >>= f) R := by
  cases x with
  | error e => exact hx
  | ok a => exact hf a hx

protected theorem map {f : α → β} {R : β → Prop} (hx : Yields P x Q) (hf : ∀ a, Q a → R (f a)) :
    Yields P (x.map f) R := by
  cases x with
  | error e => exact hx
  | ok a => exact hf a hx

protected theorem ite {c : Prop} [Decidable c] {y : Except Fault α} (hx : c → Yields P x Q)
    (hy : ¬c → Yields P y Q) : Yields P (if c then x else y) Q := by
  split
  next h => exact hx h
  next h => exact hy h

theorem lift (hx : Yields P x Q) (s : σ) : Settles P (liftM x) s fun a t => t = s ∧ Q a := by
  cases x with
  | error e => exact hx
  | ok a => exact ⟨rfl, hx⟩

theorem result (hx : Yields P x Q) : Yields P x fun a => x = .ok a := by
  cases x with
  | error e => exact hx
  | ok a => exact rfl

theorem weaken {P' : Fault → Prop} (hx : Yields P x Q) (hP : ∀ e, P e → P' e)
    (hQ : ∀ a, Q a → Q' a) : Yields P' x Q' := by
  cases x with
  | error e => exact hP e hx
  | ok a => exact hQ a hx

end Yields

/-- A computation keeps states as they should be, and fails only with a fault that `P` tells of. -/
def Keeps (P : Fault → Prop) (I : σ → Prop) (x : StateT σ (Except Fault) α) : Prop :=
  ∀ s, I s → Settles P x s fun _ t => I t

namespace Keeps

variable {P : Fault → Prop} {I : σ → Prop} {x y : StateT σ (Except Fault) α}
  {f : α → StateT σ (Except Fault) β}

protected theorem pure (a : α) : Keeps P I (pure a) :=
  fun _ hs => hs

protected theorem throw {e : Fault} (h : P e) : Keeps P I (throw e : StateT σ _ α) :=
  fun _ _ => h

theorem throw_bind {e : Fault} (h : P e) : Keeps P I (throw e >>= f) :=
  fun _ _ => h

protected theorem bind (hx : Keeps P I x) (hf : ∀ a, Keeps P I (f a)) : Keeps P I (x >>= f) :=
  fun s hs => (hx s hs).bind fun a => hf a

theorem lift_bind {z : Except Fault α} {Q : α → Prop} (hz : Yields P z Q)
    (hf : ∀ a, Q a → Keeps P I (f a)) : Keeps P I (liftM z >>= f) := by
  intro s hs
  cases z with
  | error e => exact hz
  | ok a => exact hf a hz s hs

theorem get_bind {f : σ → StateT σ (Except Fault) β} (h : ∀ s, I s → Keeps P I (f s)) :
    Keeps P I (get >>= f) :=
  fun s hs => h s hs s hs

protected theorem set {s : σ} (hs : I s) : Keeps P I (set s) :=
  fun _ _ => hs

protected theorem modify {f : σ → σ} (h : ∀ s, I s → I (f s)) : Keeps P I (modify f) :=
  h

theorem set_bind {s : σ} {f : PUnit → StateT σ (Except Fault) β} (hs : I s)
    (hf : Keeps P I (f ⟨⟩)) : Keeps P I (set s >>= f) :=
  fun _ _ => hf s hs

theorem modify_bind {g : σ → σ} {f : PUnit → StateT σ (Except Fault) β} (h : ∀ s, I s → I (g s))
    (hf : Keeps P I (f ⟨⟩)) : Keeps P I (modify g >>= f) :=
  fun s hs => hf (g s) (h s hs)

protected theorem ite {c : Prop} [Decidable c] (hx : c → Keeps P I x) (hy : ¬c → Keeps P I y) :
    Keeps P I (if c then x else y) :=
  fun s hs => .ite (fun h => hx h s hs) fun h => hy h s hs

end Keeps

/-- A computation fails only if `L` holds; else its result and the new state are as they should. -/
def Ends {σ α : Type} (L : Prop) (x : StateT σ (Except Fault) α) (s : σ)
    (Q : α → σ → Prop) : Prop :=
  match x.run s with
  | .error _ => L
  | .ok (a, t) => Q a t

namespace Ends

variable {L : Prop} {x : StateT σ (Except Fault) α} {s : σ} {Q Q' : α → σ → Prop}

theorem iff_settles : Ends L x s Q ↔ Settles (fun _ => L) x s Q :=
  Iff.rfl

protected theorem pure {a : α} (h : Q a s) : Ends L (pure a) s Q :=
  h

protected theorem throw {e : Fault} (h : L) : Ends L (throw e) s Q :=
  h

theorem lift {y : Except Fault α} (hok : ∀ a, y = .ok a → Q a s)
    (herror : ∀ e, y = .error e → L) : Ends L (liftM y) s Q :=
  iff_settles.2 (.lift hok herror)

protected theorem bind {f : α → StateT σ (Except Fault) β} {R : β → σ → Prop}
    (hx : Ends L x s Q) (hf : ∀ a t, Q a t → Ends L (f a) t R) :
    Ends L (x >>= f) s R :=
  iff_settles.2 ((iff_settles.1 hx).bind hf)

theorem mono (hx : Ends L x s Q) (h : ∀ a t, Q a t → Q' a t) :
    Ends L x s Q' :=
  iff_settles.2 ((iff_settles.1 hx).mono h)

theorem lose {L' : Prop} (hx : Ends L x s Q) (h : L → L') : Ends L' x s Q :=
  iff_settles.2 ((iff_settles.1 hx).weaken (fun _ => h) fun _ _ => id)

theorem get_bind {f : σ → StateT σ (Except Fault) α} (h : Ends L (f s) s Q) :
    Ends L (get >>= f) s Q :=
  h

theorem set_bind {t : σ} {f : PUnit → StateT σ (Except Fault) α} (h : Ends L (f ⟨⟩) t Q) :
    Ends L (set t >>= f) s Q :=
  h

protected theorem modify {f : σ → σ} {Q : PUnit → σ → Prop} (h : Q ⟨⟩ (f s)) :
    Ends L (modify f) s Q :=
  h

theorem modify_bind {g : σ → σ} {f : PUnit → StateT σ (Except Fault) α}
    (h : Ends L (f ⟨⟩) (g s) Q) : Ends L (modify g >>= f) s Q :=
  h

end Ends

end TreePaths.Yaml
