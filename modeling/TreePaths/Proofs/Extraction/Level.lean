import TreePaths.Proofs.Cursor
import TreePaths.Proofs.Extraction.Recast

/-!
What a run that returns has done, told level by level: the calls in a container, and the walks in
the containers that were entered there and left again. A relation between sessions that the parts
respect relates the session before a walk to the one after it.
-/

namespace TreePaths

open TreePaths.Action TreePaths.Effect

variable {σ ε : Type}

namespace Extractor

/-- The registration of a candidate is one of the extractor. -/
def Owns (x : Extractor σ ε) (cs : List (Candidate σ ε)) : Prop :=
  ∀ c ∈ cs, c.registration ∈ x.registrations

section Owns

variable {x : Extractor σ ε} {cs ds : List (Candidate σ ε)}

theorem owns_seedsAt (annotations : List String) : x.Owns (x.seedsAt annotations) := by
  intro c hc
  obtain ⟨e, he, rfl⟩ := List.mem_map.mp (List.mem_filter.mp hc).1
  exact List.fst_mem_of_mem_zipIdx (List.mem_of_mem_filter he)

theorem Owns.merge (hc : x.Owns cs) (hd : x.Owns ds) : x.Owns (merge cs ds) := by
  unfold Extractor.merge
  split
  · exact hc
  split
  · exact hd
  · intro c hmem
    exact (List.mem_append.mp ((List.mergeSort_perm _ _).mem_iff.mp hmem)).elim (hc c) (hd c)

theorem Owns.below (hc : x.Owns cs) (annotations : List String) :
    x.Owns (x.below annotations cs) := by
  unfold Extractor.below
  split
  · exact hc.merge (owns_seedsAt annotations)
  · exact hc

end Owns

structure RespectsCalls (x : Extractor σ ε) (base : Nat) (T : Session σ → Session σ → Prop) :
    Prop where
  refl (s : Session σ) : T s s
  trans {s s₁ s₂ : Session σ} (h : T s s₁) (h' : T s₁ s₂) : T s s₂
  call {r : Registration σ ε} (hr : r ∈ x.registrations) {s s' : Session σ} {n : Nat}
    (h : exec (r.invoke base) s = (.ok n, s')) : T s s'

/-- A relation between a session and a later one with the cursor in the same container that all
parts of a walk respect. -/
structure RespectsWalk (x : Extractor σ ε) (base : Nat) (T : Session σ → Session σ → Prop) : Prop
    extends RespectsCalls x base T where
  next (s : Session σ) : T s (moved s .next s.cursor.next)
  log (e : Event) (s : Session σ) : T s { s with events := e :: s.events }
  inner {s s₁ : Session σ} {c d : Cursor} (hin : s.cursor.stepIn = .ok d)
    (h : T (moved s .stepIn d) s₁) (hout : s₁.cursor.stepOut = .ok c) : T s (moved s₁ .stepOut c)

variable {x : Extractor σ ε} {base : Nat} {T : Session σ → Session σ → Prop} {s s' : Session σ}

namespace RespectsCalls

variable (hT : x.RespectsCalls base T)

include hT

theorem visit {position : Option Position} {annotations : List String}
    {cs ds : List (Candidate σ ε)} {n : Nat} (hcs : x.Owns cs)
    (h : exec (x.visit base position annotations cs) s = (.ok (n, ds), s')) :
    T s s' ∧ x.Owns ds := by
  induction cs generalizing s n ds with
  | nil =>
    obtain ⟨hnil, rfl⟩ := Prod.mk.inj h
    cases hnil
    exact ⟨hT.refl _, fun _ hc => absurd hc List.not_mem_nil⟩
  | cons c cs ih =>
    have hc := hcs c List.mem_cons_self
    have hcs' : x.Owns cs := fun d hd => hcs d (List.mem_cons_of_mem _ hd)
    rw [Extractor.visit] at h
    split at h
    · exact ih hcs' h
    split at h
    · simp only [exec_bind_eq_ok] at h
      obtain ⟨k, s₁, hcall, ⟨m, es⟩, s₂, hrest, h⟩ := h
      obtain ⟨hpair, rfl⟩ := Prod.mk.inj h
      obtain ⟨hrel, hes⟩ := ih hcs' hrest
      cases hpair
      exact ⟨hT.trans (hT.call hc hcall) hrel, hes⟩
    · simp only [exec_bind_eq_ok] at h
      obtain ⟨⟨m, es⟩, s₂, hrest, h⟩ := h
      obtain ⟨hpair, rfl⟩ := Prod.mk.inj h
      obtain ⟨hrel, hes⟩ := ih hcs' hrest
      cases hpair
      refine ⟨hrel, fun d hd => ?_⟩
      rcases List.mem_cons.mp hd with rfl | hd
      · exact hc
      · exact hes d hd

theorem visitStart {rs : List (Registration σ ε)} (hrs : ∀ r ∈ rs, r ∈ x.registrations)
    (h : exec (visitStart base rs) s = (.ok (), s')) : T s s' := by
  induction rs generalizing s with
  | nil =>
    obtain ⟨-, rfl⟩ := Prod.mk.inj h
    exact hT.refl _
  | cons r rs ih =>
    rw [Extractor.visitStart, exec_bind_eq_ok] at h
    obtain ⟨n, s₁, hcall, h⟩ := h
    exact hT.trans (hT.call (hrs r List.mem_cons_self) hcall)
      (ih (fun q hq => hrs q (List.mem_cons_of_mem _ hq)) h)

end RespectsCalls

/-- The relation holds between the session before a walk and the one after it. -/
theorem RespectsWalk.walk (hT : x.RespectsWalk base T) {fuel n : Nat} {cs : List (Candidate σ ε)}
    (hcs : x.Owns cs) (h : exec (x.walk base fuel cs) s = (.ok n, s')) : T s s' := by
  -- On the steps that are left; a step ends the walk, or goes on to the next sibling, with or
  -- without a walk below the child before that.
  induction fuel generalizing cs s s' n with
  | zero => cases h
  | succ fuel ih =>
    unfold Extractor.walk at h
    rw [exec_bind_ok (exec_next s)] at h
    have hnext := hT.next s
    split at h
    · obtain ⟨-, rfl⟩ := Prod.mk.inj h
      exact hnext
    rw [exec_bind_ok (exec_look _ _), exec_bind_ok (exec_look _ _), exec_bind_eq_ok] at h
    obtain ⟨⟨count, carried⟩, s₁, hvisit, h⟩ := h
    obtain ⟨hcalls, hcarried⟩ := hT.visit hcs hvisit
    have hs₁ : T s s₁ := hT.trans hnext hcalls
    dsimp only at h
    split at h
    · rw [exec_bind_ok (exec_look _ _), exec_bind_ok (exec_log _ _)] at h
      obtain ⟨-, rfl⟩ := Prod.mk.inj h
      exact hT.trans hs₁ (hT.log _ _)
    rw [exec_bind_ok (exec_look _ _)] at h
    split at h
    · exact hT.trans hs₁ (ih hcs h)
    split at h
    · exact hT.trans hs₁ (ih hcs h)
    simp only [exec_bind_eq_ok] at h
    obtain ⟨_, s₂, hin, m, s₃, hwalk, _, s₄, hout, h⟩ := h
    obtain ⟨d, hd, rfl⟩ := stepIn_of_exec hin
    obtain ⟨c, hc, rfl⟩ := stepOut_of_exec hout
    have hs₄ := hT.trans hs₁ (hT.inner hd (ih (hcarried.below _) hwalk) hc)
    split at h
    · obtain ⟨-, rfl⟩ := Prod.mk.inj h
      exact hs₄
    · exact hT.trans hs₄ (ih hcs h)

/-- A run that returns has made the calls on the starting value, and perhaps a walk below it. -/
theorem parts_of_runWithin {steps : Cursor → Nat} (h : exec (x.runWithin steps) s = (.ok (), s')) :
    ∃ rs s₁, (∀ r ∈ rs, r ∈ x.registrations) ∧
      exec (visitStart s.cursor.depth rs) s = (.ok (), s₁) ∧
      (s' = s₁ ∨ ∃ fuel cs d n s₂ c, x.Owns cs ∧ s₁.cursor.stepIn = .ok d ∧
        exec (x.walk s.cursor.depth fuel cs) (moved s₁ .stepIn d) = (.ok n, s₂) ∧
        s₂.cursor.stepOut = .ok c ∧ s' = moved s₂ .stepOut c) := by
  rw [runWithin, exec_bind_ok (exec_look _ _)] at h
  split at h
  · cases h
  rw [exec_bind_ok (exec_look _ _), exec_bind_eq_ok] at h
  obtain ⟨_, s₁, hstart, h⟩ := h
  refine ⟨_, s₁, fun r hr => ?_, hstart, ?_⟩
  · exact (List.mem_filter.mp (List.mem_filter.mp hr).1).1
  rw [exec_bind_ok (exec_look _ _)] at h
  split at h
  · dsimp only at h
    split at h
    · rw [exec_bind_ok (exec_look _ _)] at h
      simp only [exec_bind_eq_ok] at h
      obtain ⟨_, s₂, hin, n, s₃, hwalk, hout⟩ := h
      obtain ⟨d, hd, rfl⟩ := stepIn_of_exec hin
      obtain ⟨c, hc, rfl⟩ := stepOut_of_exec hout
      exact .inr ⟨_, _, d, n, s₃, c, owns_seedsAt _, hd, hwalk, hc, rfl⟩
    · obtain ⟨-, rfl⟩ := Prod.mk.inj h
      exact .inl rfl
  · obtain ⟨-, rfl⟩ := Prod.mk.inj h
    exact .inl rfl

/-- The relation holds between the session before a run and the one after it. -/
theorem RespectsWalk.run (hT : x.RespectsWalk s.cursor.depth T) {steps : Cursor → Nat}
    (h : exec (x.runWithin steps) s = (.ok (), s')) : T s s' := by
  obtain ⟨rs, s₁, hrs, hstart, hrest⟩ := parts_of_runWithin h
  have hs₁ := hT.visitStart hrs hstart
  obtain rfl | ⟨fuel, cs, d, n, s₂, c, hcs, hin, hwalk, hout, rfl⟩ := hrest
  · exact hs₁
  · exact hT.trans hs₁ (hT.inner hin (hT.walk hcs hwalk) hout)

end Extractor
end TreePaths
