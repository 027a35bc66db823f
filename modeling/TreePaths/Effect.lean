/-!
Effects: steps over a state that may fail. What was done to the state before a failure remains done.
-/

namespace TreePaths

abbrev Effect (σ ε : Type) := ExceptT ε (StateM σ)

/-- The outcome of an effect on a state, and the state after it. -/
def Effect.exec {σ ε α : Type} (a : Effect σ ε α) (s : σ) : Except ε α × σ :=
  a.run.run s

end TreePaths
