import TreePaths.Proofs.Extraction.Lockstep

/-!
A relative run from a node of a document is the run over the document that begins there: whatever
is around the node is neither asked for nor visited.
-/

namespace TreePaths

open TreePaths.Action TreePaths.Effect

theorem Violation.reword_id (v : Violation) : v.reword (fun p => p) = v := by
  cases v <;> rfl

theorem Failure.reword_id {ε : Type} (f : Failure ε) : f.reword (fun p => p) = f := by
  cases f with
  | violation v => exact congrArg Failure.violation v.reword_id
  | _ => rfl

theorem Cursor.Within.depth_le {c d : Cursor} {root : Value} (h : c.Within root d) :
    c.depth ≤ d.depth := by
  rcases h with rfl | ⟨t, n, -, rfl⟩
  · exact le_rfl
  · rw [depth_inside, depth_along]
    omega

/-- The call `k` is the call `l`, but all of it is told from farther outside, from where one comes
to the cursor `c`. -/
structure Call.Below (c : Cursor) (k l : Call) : Prop where
  order : k.order = l.order
  answer : k.answer = l.answer
  annotations : k.before.cursor.annotations = l.before.cursor.annotations
  value : k.before.cursor.value = l.before.cursor.value
  location : k.before.cursor.location = c.location ++ l.before.cursor.location
  depth : k.before.cursor.depth = c.depth + l.before.cursor.depth

/-- A call in a document of its own corresponds to one where the document is a part of another. -/
theorem Rendering.Corresponds.below {root : Value} {c : Cursor} {k l : Call}
    (h : Rendering.same.Corresponds root c (.ofRoot root) k l) (hc : c.current? = some root)
    (hfin : root.isFinite) : k.Below c l := by
  obtain ⟨t, ht, hk, hl⟩ := h.site
  rw [trail_same] at hl
  have hkcur : k.before.cursor.current? = some (t.value root) := by
    rw [hk]
    exact Cursor.current?_along hc ht
  have hlcur : l.before.cursor.current? = some (t.value root) := by
    rw [hl]
    exact Cursor.current?_along rfl ht
  have hv := ht.isFinite hfin
  refine ⟨h.order.symm, h.answer.symm, ?_, ?_, ?_, ?_⟩
  · rw [Cursor.annotations_of_current? hkcur, Cursor.annotations_of_current? hlcur]
  · rw [Cursor.value_of_current? hkcur hv, Cursor.value_of_current? hlcur hv]
  · rw [hk, hl]
    change (c.along root t).location = c.location ++ ((Cursor.ofRoot root).along root t).location
    rw [Cursor.location_along ht, Cursor.location_along ht]
    rfl
  · rw [hk, hl]
    change (c.along root t).depth = c.depth + ((Cursor.ofRoot root).along root t).depth
    rw [Cursor.depth_along, Cursor.depth_along, Cursor.ofRoot, Cursor.depth, Cursor.depth]
    simp

namespace Extractor

variable {σ ε : Type}

/-- A relative run that begins on a node is the run over the document of which this node is the
root: it has the same end, and makes the same calls and the same moves, by which it never leaves the
node. -/
theorem run_subdocument {x : Extractor σ ε} (hrelative : x.options.relative) {clock : σ → Nat}
    {answer : Nat → Value} (hx : ∀ r ∈ x.registrations, r.Numbered clock answer) {root : Value}
    (hfin : root.isFinite) {s : Session σ} (hs : s.cursor.current? = some root) (indexed : Bool)
    {state : σ} (hclock : clock state = clock s.state) :
    let u := Session.start root indexed state
    (exec x.run s).1 = (exec x.run u).1 ∧
      List.Forall₂ (Call.Below s.cursor) (x.calls s) (x.calls u) ∧
      (∀ f, (exec x.run s).1 = .error f → f.Closes (x.calls s) ∧
        x.Refused s.cursor.depth f (x.calls s) ∧ x.Refused 0 f (x.calls u)) ∧
      (∃ ms, x.ownMoves s = ms.reverse ++ s.moves ∧ x.ownMoves u = ms.reverse ∧
        ∀ ns, ns <+: ms → s.cursor.depth ≤ (s.cursor.afterAll ns).depth ∧
          s.cursor.Within root (s.cursor.afterAll ns)) ∧
      ((∀ r ∈ x.registrations, r.Still) →
        (exec x.run s).2.moves = (exec x.run u).2.moves ++ s.moves) := by
  intro u
  have h : Lockstep (x := x) (y := x) (Rewording.same x.options) root s u :=
    lockstep (List.map_congr_left fun r _ => rfl) hx hx hs rfl hfin (.inr hrelative)
      (.inr hrelative) hclock
  have hcalls : List.Forall₂ (Call.Below s.cursor) (x.calls s) (x.calls u) :=
    h.calls.imp fun k l hkl => hkl.below hs hfin
  refine ⟨?_, hcalls, fun f hf => ?_, ?_, fun hstill => ?_⟩
  · rw [h.result]
    cases (exec x.run s).1 with
    | ok _ => rfl
    | error f => exact congrArg Except.error f.reword_id.symm
  · obtain ⟨hrefused, hrefused'⟩ := h.failure f hf
    exact ⟨hrefused.closes, hrefused, f.reword_id ▸ hrefused'⟩
  · obtain ⟨ms, hms, hms', hconfined⟩ := h.ownMoves
    refine ⟨ms.reverse, ?_, ?_, fun ns hns => ?_⟩
    · rw [hms, List.reverse_reverse]
    · rw [hms', List.reverse_reverse]
      exact List.append_nil ms
    · have hsuffix := List.reverse_suffix.mpr hns
      rw [List.reverse_reverse] at hsuffix
      have hwithin := hconfined ns.reverse hsuffix
      rw [List.reverse_reverse] at hwithin
      exact ⟨hwithin.depth_le, hwithin⟩
  · obtain ⟨ms, hms, hms'⟩ := h.moves fun r hr => hstill r ((List.mem_append.mp hr).elim id id)
    rw [hms, hms']
    exact congrArg (· ++ s.moves) (List.append_nil ms).symm

def Sample.part : Value :=
  .list [.int 1, .annotated (.int 2) ["unit"]]

def Sample.inPart : Session Nat :=
  ⟨(Cursor.ofRoot Sample.document).inside Sample.document 1, true, [], [], 0⟩

/-- Relative paths of no component and of one. At the second call the callbacks ask to leave more
than the list, but not more than the document. -/
def Sample.doubles : Extractor Nat Empty where
  registrations := [⟨[], []⟩, ⟨[], [⟨.wildcard, []⟩]⟩].map (.counting fun n => .int (2 * n))
  options := { relative := true }

theorem Sample.numbered_doubles :
    ∀ r ∈ Sample.doubles.registrations, r.Numbered id fun n => .int (2 * n) := by
  intro r hr
  obtain ⟨p, -, rfl⟩ := List.mem_map.mp hr
  exact Registration.numbered_counting _ p

theorem run_subdocument_sample :
    (Sample.doubles.options.relative ∧ Sample.part.isFinite ∧
      Sample.inPart.cursor.current? = some Sample.part ∧
      ∀ r ∈ Sample.doubles.registrations, r.Numbered id fun n => .int (2 * n)) ∧
    Sample.inPart.cursor.depth = 1 ∧
    (exec Sample.doubles.run (.start Sample.part false 0)).1 =
      .error (.violation (.returnRange 2 1)) ∧
    (exec Sample.doubles.run Sample.inPart).1 = .error (.violation (.returnRange 2 1)) ∧
    List.Forall₂ (Call.Below Sample.inPart.cursor) (Sample.doubles.calls Sample.inPart)
      (Sample.doubles.calls (.start Sample.part false 0)) := by
  have hfin : Sample.part.isFinite := rfl
  have hs : Sample.inPart.cursor.current? = some Sample.part := rfl
  have hrun : (exec Sample.doubles.run (.start Sample.part false 0)).1 =
      .error (.violation (.returnRange 2 1)) := rfl
  obtain ⟨hend, hcalls, -⟩ :=
    run_subdocument rfl Sample.numbered_doubles hfin hs false (rfl : id 0 = id 0)
  exact ⟨⟨rfl, hfin, hs, Sample.numbered_doubles⟩, rfl, hrun, hend.trans hrun, hcalls⟩

end Extractor
end TreePaths
