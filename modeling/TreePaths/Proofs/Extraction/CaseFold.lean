import TreePaths.Proofs.Extraction.Lockstep
import TreePaths.Proofs.Value.Folded

/-!
Matching without regard to case is matching of the folded problem: the same run is made with regard
to case if all names and annotations, in the paths and in the document, are folded.
-/

namespace TreePaths

open TreePaths.Action TreePaths.Effect

def Selector.folded : Selector → Selector
  | field n => .field (Text.fold n)
  | index i => .index i
  | wildcard => .wildcard

def Component.folded (c : Component) : Component :=
  ⟨c.selector.folded, c.annotations.map Text.fold⟩

def SearchPath.folded (p : SearchPath) : SearchPath :=
  ⟨p.annotations.map Text.fold, p.components.map Component.folded⟩

/-- Without regard to case annotations hold exactly if the folded ones hold. -/
theorem annotationsHold_fold (required present : List String) :
    annotationsHold false (required.map Text.fold) (present.map Text.fold) =
      annotationsHold true required present := by
  rw [annotationsHold, annotationsHold, List.all_map]
  refine congrArg (List.all required) (funext fun a => ?_)
  rw [Function.comp_apply, List.any_map]
  rfl

theorem Selector.accepts_folded (k : Selector) (p : Option Position) :
    k.folded.accepts false (p.map Position.folded) = k.accepts true p := by
  cases k <;> rcases p with _ | _ | _ <;> rfl

/-- Without regard to case a component accepts a child exactly if the folded one accepts the folded
child. -/
theorem Component.accepts_folded (c : Component) (p : Option Position) (present : List String) :
    c.folded.accepts false (p.map Position.folded) (present.map Text.fold) =
      c.accepts true p present := by
  rw [accepts, accepts, folded, Selector.accepts_folded, annotationsHold_fold]

/-- The options, but with regard to case. -/
def Options.exact (o : Options) : Options :=
  { o with ignoreCase := false }

theorem Step.fits_folded {o : Options} (h : o.ignoreCase) (s : Step) (c : Component) :
    (Rendering.folded.step s).fits o.exact c.folded = s.fits o c := by
  have haccepts := c.accepts_folded (some s.position) s.value.annotations
  rw [← Value.annotations_folded] at haccepts
  rw [fits, fits, h]
  exact haccepts

/-- The folded path leads to the same nodes of the folded document. -/
theorem SearchPath.reaches_folded {o : Options} (h : o.ignoreCase) (p : SearchPath) (root : Value)
    (m : Nat) (t : Trail) :
    p.folded.reaches o.exact root.folded m (Rendering.folded.trail t) = p.reaches o root m t := by
  have hsteps : ((p.folded.components.take m).zip ((Rendering.folded.trail t).take m).reverse).all
      (fun e => e.2.fits o.exact e.1) =
        ((p.components.take m).zip (t.take m).reverse).all fun e => e.2.fits o e.1 := by
    rw [folded, Rendering.trail, ← List.map_take, ← List.map_take, ← List.map_reverse,
      List.zip_map, List.all_map]
    exact congrArg (List.all _) (funext fun e => Step.fits_folded h e.2 e.1)
  have hanchor : annotationsHold o.exact.ignoreCase p.folded.annotations
      (Trail.value root.folded ((Rendering.folded.trail t).drop m)).annotations =
        annotationsHold o.ignoreCase p.annotations (Trail.value root (t.drop m)).annotations := by
    have hdrop : (Rendering.folded.trail t).drop m = Rendering.folded.trail (t.drop m) :=
      List.map_drop.symm
    have hvalue : Trail.value root.folded (Rendering.folded.trail (t.drop m)) =
        (Trail.value root (t.drop m)).folded := Rendering.folded.value_trail root (t.drop m)
    rw [hdrop, hvalue, h, ← annotationsHold_fold, ← Value.annotations_folded]
    rfl
  rw [reaches, reaches, hsteps, hanchor, Rendering.trail, List.length_map]
  rfl

def Rewording.folded {o : Options} (h : o.ignoreCase) : Rewording o o.exact where
  toRendering := .folded
  path := SearchPath.folded
  relative := rfl
  length _ := List.length_map _
  reaches p root m t := p.reaches_folded h root m t

/-- Which callback was called, on which node, told by the ordinals that lead there, and what was
returned. -/
def Call.trace (k : Call) : Nat × List Int × Option Value :=
  (k.order, k.before.cursor.ordinals, k.answer)

theorem Rendering.Corresponds.trace {w : Rendering} {root : Value} {c d : Cursor} {k l : Call}
    (h : w.Corresponds root c d k l) (hcd : d.ordinals = c.ordinals) : l.trace = k.trace := by
  obtain ⟨t, -, hk, hl⟩ := h.site
  have haddress : (w.trail t).address = t.address := List.map_map
  rw [Call.trace, Call.trace, h.order, h.answer, hk, hl, Cursor.ordinals_along,
    Cursor.ordinals_along, hcd, haddress]

namespace Extractor

variable {σ ε : Type}

def folded (x : Extractor σ ε) : Extractor σ ε where
  registrations := x.registrations.map fun r => ⟨r.path.folded, r.callback⟩
  options := x.options.exact

/-- Without regard to case, the callback of the path that selects the root returns this number. -/
def Sample.unfolded (n : Int) : Extractor Nat Empty :=
  ⟨[.counting (fun _ => .int n) ⟨[], []⟩], { ignoreCase := true }⟩

end Extractor

end TreePaths
