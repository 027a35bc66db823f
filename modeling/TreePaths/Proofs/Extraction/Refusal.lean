import TreePaths.Proofs.Extraction.Lockstep

/-!
A run whose callbacks return, each with the cursor where it was, ends at the first call that returns
no count that it may return. Up to there it is the run of callbacks that behave: the two are
compared construct by construct.
-/

namespace TreePaths

open TreePaths.Action TreePaths.Effect

variable {σ ε α β : Type}

namespace Call

structure Returns (k : Call) : Prop where
  cursor : k.before.SameCursor k.after
  answer : k.answer.isSome

end Call

namespace Registration

variable {r : Registration σ ε} {s : Session σ}

end Registration

/-- Whatever the action does, it adds to the account of the calls. -/
def Action.Appends (a : Action (σ × List Call) ε α) : Prop :=
  ∀ s, s.state.2 <+: (exec a s).2.state.2

theorem Action.Appends.bind {a : Action (σ × List Call) ε α}
    {k : α → Action (σ × List Call) ε β} (ha : a.Appends) (hk : ∀ v, (k v).Appends) :
    (a >>= k).Appends := by
  intro s
  have h := ha s
  rcases hs : exec a s with ⟨e | v, s₁⟩
  · rw [hs] at h
    rwa [exec_bind_error hs]
  · rw [hs] at h
    rw [exec_bind_ok hs]
    exact h.trans (hk v s₁)

namespace Extractor

/-- A run that has made the calls `K` has ended with the last one, which the run with the calls `M`
has made as well, but with another answer. -/
structure Halted (x : Extractor σ ε) (base : Nat) (f : Failure ε) (K M : List Call) : Prop where
  refused : x.Refused base f K
  calls : K.dropLast <+: M
  sites : K.map Call.site <+: M.map Call.site

/-- As long as callbacks return, the first action does the same as the second, or it ends with a
call that is refused. -/
structure Heeds (x : Extractor σ ε) (base : Nat) (a b : Action (σ × List Call) ε α) : Prop where
  first : a.Appends
  second : b.Appends
  halts : ∀ s, (∀ k ∈ (exec a s).2.state.2, k.Returns) → exec a s = exec b s ∨
    ∃ f, (exec a s).1 = .error f ∧
      x.Halted base f (exec a s).2.state.2 (exec b s).2.state.2

variable {x : Extractor σ ε} {base : Nat}

theorem Halted.mono {f : Failure ε} {K M N : List Call} (h : x.Halted base f K M)
    (hMN : M <+: N) : x.Halted base f K N :=
  ⟨h.refused, h.calls.trans hMN, h.sites.trans (hMN.map _)⟩

namespace Heeds

theorem refl {a : Action (σ × List Call) ε α} (h : ∀ s, (exec a s).2.state = s.state) :
    x.Heeds base a a := by
  have ha : a.Appends := fun s => h s ▸ List.prefix_rfl
  exact ⟨ha, ha, fun _ _ => .inl rfl⟩

theorem bind {a b : Action (σ × List Call) ε α} {k l : α → Action (σ × List Call) ε β}
    (hab : x.Heeds base a b) (hkl : ∀ v, x.Heeds base (k v) (l v)) :
    x.Heeds base (a >>= k) (b >>= l) where
  first := hab.first.bind fun v => (hkl v).first
  second := hab.second.bind fun v => (hkl v).second
  halts s hreturns := by
    have hlater : (exec b s).2.state.2 <+: (exec (b >>= l) s).2.state.2 := by
      rcases hb : exec b s with ⟨e | v, s₁⟩
      · rw [exec_bind_error hb]
      · rw [exec_bind_ok hb]
        exact (hkl v).second s₁
    rcases ha : exec a s with ⟨e | v, s₁⟩
    · have hs := hab.halts s
      rw [exec_bind_error ha] at hreturns ⊢
      rw [ha] at hs
      rcases hs hreturns with hsame | ⟨f, hf, hhalted⟩
      · exact .inl (exec_bind_error hsame.symm).symm
      · exact .inr ⟨f, congrArg _ (Except.error.inj hf), hhalted.mono hlater⟩
    · have hs := hab.halts s
      rw [exec_bind_ok ha] at hreturns ⊢
      rw [ha] at hs
      rcases hs fun k hk => hreturns k (((hkl v).first s₁).subset hk) with hsame | ⟨_, hf, -⟩
      · rw [exec_bind_ok hsame.symm]
        exact (hkl v).halts s₁ hreturns
      · cases hf

end Heeds

section Run

variable {s : Session σ}

def Sample.list : Value :=
  .list [.int 1, .annotated (.int 2) ["unit"]]

end Run

end Extractor
end TreePaths
