import TreePaths.Proofs.Cursor.Following

/-!
Steps into a container and out of it cancel, with whatever calls between them that stay in the
container or below it: no such call touches the frames outside. So a callback may look around in the
value on which it is called.
-/

namespace TreePaths

open TreePaths.Action TreePaths.Effect

/-- Outer frames stay as long as the cursor is not less deep than they are. -/
theorem Cursor.suffix_outer_after {fs : List Frame} {c : Cursor} {m : Move} (h : fs <:+ c.outer)
    (hdeep : fs.length ≤ (c.after m).depth) : fs <:+ (c.after m).outer := by
  rcases c.after_cases m with hm | ⟨v, -, -, hm⟩ | ⟨f, gs, -, ho, hm⟩ | ⟨-, hm⟩
  · rwa [hm]
  · rw [hm, outer_inside]
    exact h.trans (List.suffix_cons _ _)
  · rw [hm] at hdeep ⊢
    rw [ho] at h
    rcases List.suffix_cons_iff.mp h with rfl | h
    · exact absurd hdeep (Nat.not_succ_le_self _)
    · exact h
  · rwa [hm]

/-- A call after which the cursor is still as deep as some frames leaves these frames as they are.
-/
theorem Cursor.suffix_outer_afterCall {fs : List Frame} {c : Cursor} {m : Method}
    (h : fs <:+ c.outer) (hdeep : fs.length ≤ (c.afterCall m).depth) :
    fs <:+ (c.afterCall m).outer := by
  cases m with
  | move m => exact suffix_outer_after h hdeep
  | ask q => exact h

namespace Session

variable {σ ε : Type} {s : Session σ}

/-- Calls by none of which the cursor gets less deep than it was before the first one, and after
which it is as deep as then. Some of them may fail. -/
structure Balanced (ε : Type) (s : Session σ) (calls : List Method) : Prop where
  deep : ∀ part, part <+: calls → s.cursor.depth ≤ (s.afterCalls ε part).cursor.depth
  level : (s.afterCalls ε calls).cursor.depth = s.cursor.depth

theorem afterCalls_append (ε : Type) (s : Session σ) (calls more : List Method) :
    s.afterCalls ε (calls ++ more) = (s.afterCalls ε calls).afterCalls ε more :=
  List.foldl_append

theorem indexed_afterCalls (calls : List Method) :
    (s.afterCalls ε calls).indexed = s.indexed := by
  induction calls generalizing s with
  | nil => rfl
  | cons m calls ih => exact ih.trans (exec_call m s).2

theorem suffix_outer_afterCalls {fs : List Frame} {calls : List Method} (h : fs <:+ s.cursor.outer)
    (hdeep : ∀ part, part <+: calls → fs.length ≤ (s.afterCalls ε part).cursor.depth) :
    fs <:+ (s.afterCalls ε calls).cursor.outer := by
  induction calls generalizing s with
  | nil => exact h
  | cons m calls ih =>
    refine ih ?_ fun part hpart => hdeep (m :: part) (List.cons_prefix_cons.mpr ⟨rfl, hpart⟩)
    have hfirst : fs.length ≤ (exec (Action.call m : Action σ ε Unit) s).2.cursor.depth :=
      hdeep [m] (List.prefix_append [m] calls)
    rw [(exec_call m s).1] at hfirst ⊢
    exact Cursor.suffix_outer_afterCall h hfirst

/-- Balanced calls leave the cursor in the container in which it was. -/
theorem Balanced.outer {calls : List Method} (h : s.Balanced ε calls) :
    (s.afterCalls ε calls).cursor.outer = s.cursor.outer :=
  ((suffix_outer_afterCalls List.suffix_rfl h.deep).eq_of_length h.level.symm).symm

/-- A step into the value under the cursor, balanced calls and a step out leave the cursor as it
was, and the step out does not fail. Whatever a callback does besides, if this is what it does with
the cursor, all that the engine looks at is what it returns. -/
theorem same_of_bracketed {calls : List Method}
    (hin : (exec (Action.call (.move .stepIn) : Action σ ε Unit) s).1 = .ok ())
    (hcalls : (s.afterCalls ε [.move .stepIn]).Balanced ε calls) :
    let inner := s.afterCalls ε (.move .stepIn :: calls)
    let back := s.afterCalls ε (.move .stepIn :: calls ++ [.move .stepOut])
    (exec (Action.call (.move .stepOut) : Action σ ε Unit) inner).1 = .ok () ∧
      s.SameCursor back ∧
      ∀ (r : Registration σ ε) (base : Nat) (v : Value) (s' : Session σ),
        exec r.callback s = (.ok v, s') → back.SameCursor s' →
          exec (r.invoke base) s = (r.checkCount (s.cursor.depth - base) v, s') := by
  intro inner back
  have henter : exec (Action.stepIn : Action σ ε Unit) s = (.ok (), _) := exec_eq_ok hin
  obtain ⟨d, hd, -⟩ := stepIn_of_exec henter
  have hentered : (s.afterCalls ε [.move .stepIn]).cursor = d :=
    (exec_call (.move .stepIn) s).1.trans (Cursor.after_stepIn hd)
  have houter : inner.cursor.outer = d.outer := hcalls.outer.trans (congrArg _ hentered)
  have hout : inner.cursor.stepOut = .ok s.cursor := Cursor.stepOut_of_stepIn hd houter
  have hback : s.SameCursor back := by
    have hlast : back = (exec (Action.call (.move .stepOut) : Action σ ε Unit) inner).2 :=
      s.afterCalls_append ε (.move .stepIn :: calls) [.move .stepOut]
    refine ⟨?_, indexed_afterCalls _⟩
    rw [hlast, (exec_call (.move .stepOut) inner).1]
    exact Cursor.after_stepOut hout
  refine ⟨congrArg Prod.fst (exec_stepOut hout), hback, fun r base v s' hcall hs' => ?_⟩
  have hsame : s.SameCursor s' :=
    ⟨hs'.cursor.trans hback.cursor, hs'.indexed.trans hback.indexed⟩
  exact Registration.exec_invoke base hcall hsame

/-- Into the list and out of it, with a step into a number, which fails, and a question behind the
last field, where there is no value. -/
def Sample.exploring : List Method :=
  [.move .next, .move .next, .move .stepIn, .move .next, .move .stepIn, .move .stepOut,
    .move .next, .ask .value, .move .next]

def Sample.outside : Session Unit :=
  .start Sample.repeated true ()

def Sample.entered : Session Unit :=
  Sample.outside.afterCalls Empty [.move .stepIn]

def Sample.explorer : Registration Unit Empty where
  path := ⟨[], []⟩
  callback := fun s =>
    (.ok (.int 0), s.afterCalls Empty (.move .stepIn :: Sample.exploring ++ [.move .stepOut]))

theorem same_of_bracketed_sample :
    (exec (Action.call (.move .stepIn) : Action Unit Empty Unit) Sample.outside).1 = .ok () ∧
    Sample.entered.Balanced Empty Sample.exploring ∧
    Sample.outside.SameCursor
      (Sample.outside.afterCalls Empty (.move .stepIn :: Sample.exploring ++ [.move .stepOut])) ∧
    (exec (Sample.explorer.invoke 0) Sample.outside).1 = .ok 0 := by
  have hin : (exec (Action.call (.move .stepIn) : Action Unit Empty Unit) Sample.outside).1 =
      .ok () := rfl
  have hdeep : ∀ part ∈ Sample.exploring.inits,
      1 ≤ (Sample.entered.afterCalls Empty part).cursor.depth := by
    decide
  have hcalls : Sample.entered.Balanced Empty Sample.exploring :=
    ⟨fun part hpart => hdeep part ((List.mem_inits _ _).mpr hpart), rfl⟩
  obtain ⟨-, hback, haccepted⟩ := same_of_bracketed hin hcalls
  refine ⟨hin, hcalls, hback, ?_⟩
  rw [haccepted Sample.explorer 0 (.int 0) _ rfl ⟨rfl, rfl⟩]
  rfl

end Session
end TreePaths
