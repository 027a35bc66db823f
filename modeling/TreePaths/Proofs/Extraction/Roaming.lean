import TreePaths.Proofs.Cursor.Motion
import TreePaths.Proofs.Extraction.Account
import TreePaths.Proofs.Extraction.Level

/-!
Runs with callbacks that do with the cursor whatever its moves allow. When a callback returns, the
engine looks at the depth, the position and the ordinal alone, so a callback can go to another
container unseen; but the run comes back to where it began.
-/

namespace TreePaths

open TreePaths.Action TreePaths.Effect

variable {σ ε α β : Type}

def Session.LeadsTo (s s' : Session σ) : Prop :=
  ∃ ms, s'.cursor = s.cursor.afterAll ms ∧ s'.indexed = s.indexed

namespace Session.LeadsTo

variable {s s₁ s₂ : Session σ} {root : Value}

theorem refl (s : Session σ) : s.LeadsTo s :=
  ⟨[], rfl, rfl⟩

theorem trans (h : s.LeadsTo s₁) (h' : s₁.LeadsTo s₂) : s.LeadsTo s₂ := by
  obtain ⟨ms, hc, hi⟩ := h
  obtain ⟨ns, hc', hi'⟩ := h'
  exact ⟨ms ++ ns, by rw [hc', hc, Cursor.afterAll_append], hi'.trans hi⟩

theorem moved (s : Session σ) (m : Move) : s.LeadsTo (moved s m (s.cursor.after m)) :=
  ⟨[m], rfl, rfl⟩

theorem stepIn {d : Cursor} (h : s.cursor.stepIn = .ok d) :
    s.LeadsTo (Action.moved s .stepIn d) :=
  Cursor.after_stepIn h ▸ moved s .stepIn

theorem stepOut {d : Cursor} (h : s.cursor.stepOut = .ok d) :
    s.LeadsTo (Action.moved s .stepOut d) :=
  Cursor.after_stepOut h ▸ moved s .stepOut

theorem visits (h : s.LeadsTo s₁) (hs : s.cursor.Visits root) : s₁.cursor.Visits root := by
  obtain ⟨ms, hc, -⟩ := h
  exact hc ▸ hs.afterAll ms

end Session.LeadsTo

namespace Action

/-- All that the action does with the cursor are moves, whether it returns or fails. -/
def Roams (a : Action σ ε α) : Prop :=
  ∀ s : Session σ, s.LeadsTo (exec a s).2

namespace Roams

variable {a : Action σ ε α}

theorem of_exec (h : ∀ s, (exec a s).2.cursor = s.cursor ∧ (exec a s).2.indexed = s.indexed) :
    a.Roams :=
  fun s => ⟨[], h s⟩

theorem bind {k : α → Action σ ε β} (ha : a.Roams) (hk : ∀ v, (k v).Roams) : (a >>= k).Roams := by
  intro s
  have hs := ha s
  rcases h : exec a s with ⟨e | v, s₁⟩
  · rw [exec_bind_error h]
    rwa [h] at hs
  · rw [exec_bind_ok h]
    rw [h] at hs
    exact hs.trans (hk v s₁)

/-- Failures may be caught. -/
theorem tryCatch {k : Failure ε → Action σ ε α} (ha : a.Roams) (hk : ∀ e, (k e).Roams) :
    (tryCatch a k).Roams := by
  intro s
  have hs := ha s
  rw [exec_tryCatch]
  rcases h : exec a s with ⟨e | v, s₁⟩
  · rw [h] at hs
    exact hs.trans (hk e s₁)
  · rwa [h] at hs

theorem moveBy {m : Move} {f : Cursor → Except CursorFault Cursor}
    (hf : ∀ c, (f c).toOption.getD c = c.after m) : (Action.moveBy f : Action σ ε Unit).Roams := by
  intro s
  have hs := hf s.cursor
  rcases h : f s.cursor with e | c
  · have hrun : exec (Action.moveBy f : Action σ ε Unit) s = (.error (failureOf e), s) := by
      simp [Action.moveBy, exec_bind, h]
    rw [hrun]
    exact .refl s
  · have hrun : exec (Action.moveBy f : Action σ ε Unit) s = (.ok (), { s with cursor := c }) := by
      simp [Action.moveBy, exec_bind, h]
    rw [h] at hs
    rw [hrun]
    exact ⟨[m], hs, rfl⟩

end Roams

theorem compatible_roams :
    Compatible fun {α : Type} (a _ : Action σ ε α) => a.Roams where
  pure _ := .of_exec fun _ => ⟨rfl, rfl⟩
  throw _ := .of_exec fun _ => ⟨rfl, rfl⟩
  bind ha hk := ha.bind hk
  look _ := .of_exec fun _ => ⟨rfl, rfl⟩
  log _ := .of_exec fun _ => ⟨rfl, rfl⟩
  stepIn := (Roams.of_exec fun _ => ⟨rfl, rfl⟩).bind fun _ => .moveBy (m := .stepIn) fun _ => rfl
  stepOut := (Roams.of_exec fun _ => ⟨rfl, rfl⟩).bind fun _ => .moveBy (m := .stepOut) fun _ => rfl
  next _ := ⟨[.next], rfl, rfl⟩

end Action

namespace Registration

variable {r : Registration σ ε} {base n : Nat} {root : Value} {s s₁ s' : Session σ} {v : Value}

/-- When the engine accepts a call, the cursor has the depth, the position and the ordinal that it
had, but it may be in another container. It is on the value on which it was if the callback went to
no next sibling above the depth of the value, the top level apart. -/
theorem stays_of_accepted {ms : List Move} (hs : s.cursor.Visits root) (hi : s.indexed)
    (hcall : exec r.callback s = (.ok v, s₁)) (hms : s₁.cursor = s.cursor.afterAll ms)
    (hi₁ : s₁.indexed = s.indexed) (h : exec (r.invoke base) s = (.ok n, s')) :
    s'.cursor.depth = s.cursor.depth ∧ s'.cursor.position = s.cursor.position ∧
      s'.cursor.ordinal = s.cursor.ordinal ∧
      (s.cursor.Spares s.cursor.depth ms → s'.cursor = s.cursor) := by
  obtain ⟨w, hw, hdepth, hposition, hordinal, -⟩ := (exec_invoke_eq_ok base).mp h
  obtain ⟨-, rfl⟩ := Prod.mk.inj (hw.symm.trans hcall)
  have ho : s'.cursor.ordinal = s.cursor.ordinal := by
    simpa [Session.ordinal?, hi₁, hi] using hordinal
  refine ⟨hdepth, hposition, ho, fun hspares => ?_⟩
  have hs' : s'.cursor.Visits root := hms ▸ hs.afterAll ms
  have houter : s'.cursor.outer = s.cursor.outer := by
    rw [hms] at hdepth ⊢
    exact hs.toOver.outer_afterAll hspares hdepth
  exact hs'.eq_of_outer_eq hs houter ho

end Registration

namespace Extractor

/-- Two containers under one name, each with a child under one name. -/
def Sample.twins : Value :=
  .struct [("a", .struct [("b", .int 1)]), ("a", .struct [("b", .int 2)])]

/-- Leaves the container that the cursor is in, enters it again and goes to its first child. -/
def Sample.again : Registration Unit Empty where
  path := ⟨[], [⟨.field "a", []⟩, ⟨.field "b", []⟩]⟩
  callback := do
    Action.stepOut
    Action.stepIn
    let _ ← Action.next
    return .int 0

def Sample.onFirst : Session Unit where
  cursor := (Cursor.ofRoot Sample.twins).afterAll [.stepIn, .next, .stepIn, .next]
  indexed := true
  moves := []
  events := []
  state := ()

theorem stays_of_accepted_sample :
    (exec (Sample.again.invoke 0) Sample.onFirst).1 = .ok 0 ∧
      (exec (Sample.again.invoke 0) Sample.onFirst).2.cursor = Sample.onFirst.cursor := by
  have hspares : Sample.onFirst.cursor.Spares 2 [.stepOut, .stepIn, .next] :=
    ⟨nofun, nofun, fun _ => .inr le_rfl, trivial⟩
  have hcall := exec_eq_ok (a := Sample.again.callback) (s := Sample.onFirst) rfl
  have hmoves : (exec Sample.again.callback Sample.onFirst).2.cursor =
      Sample.onFirst.cursor.afterAll [.stepOut, .stepIn, .next] := rfl
  have haccepted := exec_eq_ok (a := Sample.again.invoke 0) (s := Sample.onFirst) rfl
  have hstays := Registration.stays_of_accepted ⟨_, rfl⟩ rfl hcall hmoves rfl haccepted
  exact ⟨rfl, hstays.2.2.2 hspares⟩

/-- Goes from a child of a container to the first child of the next container, and tries to go on
from there. -/
def Sample.stray : Action Unit Empty Value := do
  Action.stepOut
  let _ ← Action.next
  Action.stepIn
  let _ ← Action.next
  tryCatch Action.stepIn fun _ => pure ()
  return .int 0

def Sample.straying : Extractor Unit Empty where
  registrations := [⟨Sample.again.path, Sample.stray⟩]
  options := {}

theorem Sample.roams_straying : ∀ r ∈ Sample.straying.registrations, r.callback.Roams := by
  intro r hr
  obtain rfl := List.mem_singleton.mp hr
  have hc := compatible_roams (σ := Unit) (ε := Empty)
  refine hc.stepOut.bind fun _ => hc.next.bind fun _ => hc.stepIn.bind fun _ => ?_
  refine hc.next.bind fun _ => ?_
  exact (hc.stepIn.tryCatch fun _ => hc.pure ()).bind fun _ => hc.pure _

/-- A run accepts a call that ends on another node than that on which it began. -/
theorem accepted_elsewhere :
    (∀ r ∈ Sample.straying.registrations, r.callback.Roams) ∧
      (exec Sample.straying.run (.start Sample.twins true ())).1 = .ok () ∧
      (Sample.straying.calls (.start Sample.twins true ())).map
        (fun k => (k.before.cursor.ordinals, k.after.cursor.ordinals)) = [([0, 0, 0], [0, 1, 0])] :=
  ⟨Sample.roams_straying, rfl, rfl⟩

section Roaming

variable {x : Extractor σ ε} (hx : ∀ r ∈ x.registrations, r.callback.Roams)

include hx

/-- A run of an extractor is one more action that moves the cursor and does nothing else with it. -/
theorem roams_runWithin (steps : Cursor → Nat) : (x.runWithin steps).Roams := by
  have hrun := compatible_roams.runWithin_of_mem x (f := ⟨fun _ r => r, fun _ _ => rfl⟩)
    (g := ⟨fun _ r => r, fun _ _ => rfl⟩) (fun e he => ?_) steps
  · rwa [recast_self] at hrun
  · exact hx e.1 (List.fst_mem_of_mem_zipIdx he)

/-- If callbacks do nothing but move the cursor, moves lead from the start of each part of a walk to
its end, at the same depth. -/
theorem respectsWalk_leadsTo (base : Nat) :
    x.RespectsWalk base fun s s' => s.LeadsTo s' ∧ s'.cursor.depth = s.cursor.depth where
  refl s := ⟨.refl s, rfl⟩
  trans h h' := ⟨h.1.trans h'.1, h'.2.trans h.2⟩
  call hr s s' n h := by
    obtain ⟨v, hv, hdepth, -⟩ := (Registration.exec_invoke_eq_ok base).mp h
    have hleads := hx _ hr s
    rw [hv] at hleads
    exact ⟨hleads, hdepth⟩
  next s := ⟨.moved s .next, rfl⟩
  log _ s := ⟨⟨[], rfl, rfl⟩, rfl⟩
  inner {s s₁ c d} hin h hout := by
    refine ⟨(Session.LeadsTo.stepIn hin).trans (h.1.trans (.stepOut hout)), ?_⟩
    have hd := Cursor.depth_of_stepIn hin
    have hs₁ := Cursor.depth_of_stepOut hout
    have hdepth : s₁.cursor.depth = d.depth := h.2
    simp only [cursor_moved]
    omega

/-- At depth zero a call that is accepted leaves the cursor where it is, since past the root it
could not come back. -/
theorem respectsCalls_outside (root : Value) : x.RespectsCalls 0 fun s s' =>
    s.cursor.Visits root → s.indexed → s.cursor.depth = 0 → s.SameCursor s' where
  refl _ _ _ _ := ⟨rfl, rfl⟩
  trans {s s₁ s₂} h h' hs hi hzero := by
    have h₁ := h hs hi hzero
    have h₂ := h' (h₁.cursor ▸ hs) (h₁.indexed ▸ hi) (h₁.cursor ▸ hzero)
    exact ⟨h₂.cursor.trans h₁.cursor, h₂.indexed.trans h₁.indexed⟩
  call {r} hr s s' n h hs hi hzero := by
    obtain ⟨v, hv, -⟩ := (Registration.exec_invoke_eq_ok 0).mp h
    have hleads := hx r hr s
    rw [hv] at hleads
    obtain ⟨ms, hms, hi'⟩ := hleads
    obtain ⟨-, -, -, hstays⟩ := Registration.stays_of_accepted hs hi hv hms hi' h
    exact ⟨hstays (Cursor.spares_of_le_one (hzero ▸ Nat.zero_le 1) ms), hi'⟩

/-- Whatever its callbacks do with the cursor, a run of any number of steps that returns ends at the
depth at which it began, and if that is zero, with the cursor as it was. Such runs are themselves
actions that move the cursor and do nothing else with it, so callbacks may make them. -/
theorem run_comes_back (steps : Cursor → Nat) :
    x.run = x.runWithin budget ∧ (x.runWithin steps).Roams ∧
      ∀ (root : Value) (s s' : Session σ), s.cursor.Visits root → s.indexed →
        exec (x.runWithin steps) s = (.ok (), s') →
        s'.cursor.depth = s.cursor.depth ∧ (s.cursor.depth = 0 → s'.cursor = s.cursor) := by
  refine ⟨rfl, roams_runWithin hx steps, fun root s s' hs hi h => ⟨?_, fun hzero => ?_⟩⟩
  · exact ((respectsWalk_leadsTo hx s.cursor.depth).run h).2
  · obtain ⟨rs, s₁, hrs, hstart, hrest⟩ := parts_of_runWithin h
    rw [hzero] at hstart
    have hs₁ := (respectsCalls_outside hx root).visitStart hrs hstart hs hi hzero
    obtain rfl | ⟨fuel, cs, d, n, s₂, c, hcs, hin, hwalk, hout, rfl⟩ := hrest
    · exact hs₁.cursor
    -- Below depth zero the outermost frame stays on the root, so the run steps out onto the root.
    · have hdepth : d.depth = 1 := by
        rw [Cursor.depth, Cursor.outer_of_stepIn hin, hs₁.cursor]
        exact congrArg (· + 1) hzero
      have hleads := (respectsWalk_leadsTo hx _).walk hcs hwalk
      have hvisits : d.Visits root := (Session.LeadsTo.stepIn hin).visits (hs₁.cursor ▸ hs)
      have hbegin := hvisits.toOver.outer_of_depth_eq_one hdepth
      have hend := (hleads.1.visits hvisits).toOver.outer_of_depth_eq_one (hleads.2.trans hdepth)
      have hback := Cursor.stepOut_of_stepIn hin (hend.trans hbegin.symm)
      exact (Except.ok.inj (hout.symm.trans hback)).trans hs₁.cursor

end Roaming

theorem run_comes_back_sample :
    (∀ r ∈ Sample.straying.registrations, r.callback.Roams) ∧
      (exec Sample.straying.run (.start Sample.twins true ())).1 = .ok () ∧
      (exec Sample.straying.run (.start Sample.twins true ())).2.cursor = .ofRoot Sample.twins := by
  obtain ⟨-, -, hback⟩ := run_comes_back Sample.roams_straying budget
  have hend := hback Sample.twins (.start Sample.twins true ()) _ ⟨[], rfl⟩ rfl (exec_eq_ok rfl)
  exact ⟨Sample.roams_straying, rfl, hend.2 rfl⟩

end Extractor
end TreePaths
