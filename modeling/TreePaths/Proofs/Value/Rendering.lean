import TreePaths.Proofs.Cursor

/-!
Documents of one shape: the same tree, in which names, annotations and data may be told in other
words.
-/

namespace TreePaths

structure Rendering where
  position : Position → Position
  value : Value → Value
  children : ∀ v, (value v).bare.children =
    v.bare.children.map fun e => (position e.1, value e.2)
  isContainer : ∀ v, (value v).bare.isContainer = v.bare.isContainer
  isFinite : ∀ v, v.isFinite → (value v).isFinite

namespace Rendering

def same : Rendering where
  position p := p
  value v := v
  children _ := (List.map_id _).symm
  isContainer _ := rfl
  isFinite _ h := h

variable (w : Rendering)

def step (s : Step) : Step :=
  ⟨s.ordinal, w.position s.position, w.value s.value⟩

def trail (t : Trail) : Trail :=
  t.map w.step

theorem value_trail (root : Value) (t : Trail) :
    (w.trail t).value (w.value root) = w.value (t.value root) := by
  cases t <;> rfl

theorem leads_trail {root : Value} {t : Trail} (h : t.Leads root) :
    (w.trail t).Leads (w.value root) := by
  induction t with
  | nil => trivial
  | cons s t ih =>
    refine ⟨ih h.1, ?_⟩
    rw [← trail, w.value_trail, w.children, List.getElem?_map, step, h.2]
    rfl

@[simp] theorem trail_same (t : Trail) : same.trail t = t :=
  List.map_id t

end Rendering

end TreePaths
