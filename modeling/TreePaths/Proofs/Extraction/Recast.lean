import TreePaths.Proofs.Extraction.Action
import Mathlib.Data.List.Infix

/-!
Runs of one extractor with other callbacks under the same paths. What relates the callbacks relates
the runs, if the constructs of a walk respect it. So callbacks that do the same as far as a relation
between their states tells make runs that do the same.
-/

namespace TreePaths

open TreePaths.Action TreePaths.Effect

variable {ρ σ τ ε α β γ : Type}

namespace Session

def withState (s : Session σ) (state : τ) : Session τ :=
  ⟨s.cursor, s.indexed, s.moves, s.events, state⟩

end Session

/-- Two actions on sessions that differ in their states alone. If `R` relates the states, both
actions end with one result, as `p` and `q` tell it, in states that `R` relates; unless the first
one gets lost, from where nothing leads back. -/
structure Alike (R : σ → τ → Prop) (lost : σ → Prop) (p : γ → α) (q : γ → β)
    (a : Action σ ε α) (b : Action τ ε β) (s : Session σ) (st : τ) : Prop where
  stays : lost s.state → ∃ (r : Except (Failure ε) γ) (s' : Session σ),
    exec a s = (r.map p, s') ∧ lost s'.state
  same : R s.state st → ∃ (r : Except (Failure ε) γ) (s' : Session σ),
    exec a s = (r.map p, s') ∧ (lost s'.state ∨
      ∃ st', exec b (s.withState st) = (r.map q, s'.withState st') ∧ R s'.state st')

namespace Alike

variable {R : σ → τ → Prop} {lost : σ → Prop} {p : γ → α} {q : γ → β} {s : Session σ} {st : τ}

theorem pure (v : γ) : Alike (ε := ε) R lost p q (Pure.pure (p v)) (Pure.pure (q v)) s st :=
  ⟨fun hs => ⟨.ok v, s, rfl, hs⟩, fun hR => ⟨.ok v, s, rfl, .inr ⟨st, rfl, hR⟩⟩⟩

theorem done (v : α) :
    Alike (ε := ε) R lost (fun v => v) (fun v => v) (Pure.pure v) (Pure.pure v) s st :=
  pure v

theorem throw (f : Failure ε) :
    Alike R lost p q (MonadExcept.throw f) (MonadExcept.throw f) s st :=
  ⟨fun hs => ⟨.error f, s, rfl, hs⟩, fun hR => ⟨.error f, s, rfl, .inr ⟨st, rfl, hR⟩⟩⟩

theorem map_self (r : Except (Failure ε) α) : r.map (fun v => v) = r := by
  cases r <;> rfl

theorem of_exec {a : Action σ ε α} {b : Action τ ε α} {r : Except (Failure ε) α} {s' : Session σ}
    (ha : exec a s = (r, s')) (hlost : lost s.state → lost s'.state)
    (hb : R s.state st → lost s'.state ∨
      ∃ st', exec b (s.withState st) = (r, s'.withState st') ∧ R s'.state st') :
    Alike R lost (fun v => v) (fun v => v) a b s st := by
  refine ⟨fun hs => ⟨r, s', ?_, hlost hs⟩, fun hR => ⟨r, s', ?_, ?_⟩⟩
  · rw [ha, map_self]
  · rw [ha, map_self]
  · rw [map_self]
    exact hb hR

/-- An action that does not look at the state does the same whatever the state is. -/
theorem of_blind {a : Action σ ε α} {b : Action τ ε α} {r : Except (Failure ε) α} {s' : Session σ}
    (ha : exec a s = (r, s')) (hstate : s'.state = s.state)
    (hb : exec b (s.withState st) = (r, s'.withState st)) :
    Alike R lost (fun v => v) (fun v => v) a b s st :=
  of_exec ha (fun hs => hstate ▸ hs) fun hR => .inr ⟨st, hb, hstate ▸ hR⟩

theorem bind {γ' α' β' : Type} {p' : γ' → α'} {q' : γ' → β'} {a : Action σ ε α}
    {b : Action τ ε β} {f : α → Action σ ε α'} {g : β → Action τ ε β'}
    (hab : Alike R lost p q a b s st)
    (hfg : ∀ v s₁ st₁, Alike R lost p' q' (f (p v)) (g (q v)) s₁ st₁) :
    Alike R lost p' q' (a >>= f) (b >>= g) s st where
  stays hs := by
    obtain ⟨r, s₁, ha, hlost⟩ := hab.stays hs
    cases r with
    | error e => exact ⟨.error e, s₁, exec_bind_error ha, hlost⟩
    | ok v =>
      rw [exec_bind_ok ha]
      exact (hfg v s₁ st).stays hlost
  same hR := by
    obtain ⟨r, s₁, ha, h⟩ := hab.same hR
    cases r with
    | error e =>
      refine ⟨.error e, s₁, exec_bind_error ha, h.imp_right fun ⟨st₁, hb, hR₁⟩ => ?_⟩
      exact ⟨st₁, exec_bind_error hb, hR₁⟩
    | ok v =>
      rw [exec_bind_ok ha]
      rcases h with hlost | ⟨st₁, hb, hR₁⟩
      · obtain ⟨r, s', hs', hlost'⟩ := (hfg v s₁ st).stays hlost
        exact ⟨r, s', hs', .inl hlost'⟩
      · rw [exec_bind_ok hb]
        exact (hfg v s₁ st₁).same hR₁

theorem log (e : Event) : Alike (ε := ε) R lost (fun v => v) (fun v => v) (Action.log e)
    (Action.log e) s st :=
  of_blind rfl rfl rfl

theorem next :
    Alike (ε := ε) R lost (fun v => v) (fun v => v) Action.next Action.next s st :=
  of_blind rfl rfl rfl

theorem look (f : Cursor → Bool → α) :
    Alike (ε := ε) R lost (fun v => v) (fun v => v) (Action.look fun s => f s.cursor s.indexed)
      (Action.look fun s => f s.cursor s.indexed) s st :=
  of_blind rfl rfl rfl

theorem moveBy (f : Cursor → Except CursorFault Cursor) :
    Alike (ε := ε) R lost (fun v => v) (fun v => v) (Action.moveBy f) (Action.moveBy f) s st := by
  cases hf : f s.cursor with
  | ok c =>
    have ha : exec (Action.moveBy f : Action σ ε Unit) s = (.ok (), { s with cursor := c }) := by
      simp [Action.moveBy, exec_bind, hf]
    refine of_blind ha rfl ?_
    simp [Action.moveBy, exec_bind, Session.withState, hf]
  | error e =>
    have ha : exec (Action.moveBy f : Action σ ε Unit) s = (.error (failureOf e), s) := by
      simp [Action.moveBy, exec_bind, hf]
    refine of_blind ha rfl ?_
    simp [Action.moveBy, exec_bind, Session.withState, hf]

theorem stepIn :
    Alike (ε := ε) R lost (fun v => v) (fun v => v) Action.stepIn Action.stepIn s st :=
  bind (of_blind rfl rfl rfl) fun _ _ _ => moveBy _

theorem stepOut :
    Alike (ε := ε) R lost (fun v => v) (fun v => v) Action.stepOut Action.stepOut s st :=
  bind (of_blind rfl rfl rfl) fun _ _ _ => moveBy _

end Alike

structure Recasting (ρ σ ε : Type) where
  registration : Nat → Registration ρ ε → Registration σ ε
  path : ∀ i r, (registration i r).path = r.path

open Classical in
noncomputable def Recasting.within (f : Recasting ρ σ ε) (rs : List (Registration ρ ε)) :
    Recasting ρ σ ε where
  registration i r :=
    if (r, i) ∈ rs.zipIdx then f.registration i r else ⟨r.path, Pure.pure .null⟩
  path i r := by
    split
    · exact f.path i r
    · rfl

namespace Candidate

def recast (f : Recasting ρ σ ε) (c : Candidate ρ ε) : Candidate σ ε :=
  ⟨c.order, f.registration c.order c.registration, c.matched⟩

variable (f : Recasting ρ σ ε) (c : Candidate ρ ε)

@[simp] theorem order_recast : (c.recast f).order = c.order := rfl

@[simp] theorem path_recast : (c.recast f).registration.path = c.registration.path :=
  f.path _ _

@[simp] theorem component?_recast : (c.recast f).component? = c.component? := by
  rw [component?, path_recast]
  rfl

@[simp] theorem isTerminal_recast : (c.recast f).isTerminal = c.isTerminal := by
  rw [isTerminal, path_recast]
  rfl

@[simp] theorem advance_recast : (c.recast f).advance = c.advance.recast f := rfl

end Candidate

namespace Extractor

def recast (f : Recasting ρ σ ε) (x : Extractor ρ ε) : Extractor σ ε :=
  ⟨x.registrations.zipIdx.map fun e => f.registration e.2 e.1, x.options⟩

variable (f : Recasting ρ σ ε) (g : Recasting ρ τ ε) (x : Extractor ρ ε)

@[simp] theorem options_recast : (x.recast f).options = x.options := rfl

theorem zipIdx_map_zipIdx (l : List α) (h : α × Nat → β) (k : Nat) :
    ((l.zipIdx k).map h).zipIdx k = (l.zipIdx k).map fun e => (h e, e.2) := by
  induction l generalizing k with
  | nil => rfl
  | cons a l ih => simp [ih]

theorem seeds_recast : (x.recast f).seeds = x.seeds.map (Candidate.recast f) := by
  rw [seeds, recast, zipIdx_map_zipIdx, List.filter_map, List.map_map, seeds, List.map_map]
  refine congrArg _ (List.filter_congr fun e _ => ?_)
  dsimp only [Function.comp_apply]
  rw [f.path]

theorem seedsAt_recast (annotations : List String) :
    (x.recast f).seedsAt annotations = (x.seedsAt annotations).map (Candidate.recast f) := by
  rw [seedsAt, seeds_recast, List.filter_map]
  refine congrArg _ (List.filter_congr fun c _ => ?_)
  rw [Function.comp_apply, Candidate.path_recast]
  rfl

theorem entersAll_recast : (x.recast f).entersAll = x.entersAll := by
  rw [entersAll, seeds_recast, List.isEmpty_map, options_recast]
  rfl

theorem merge_recast (cs ds : List (Candidate ρ ε)) :
    merge (cs.map (Candidate.recast f)) (ds.map (Candidate.recast f)) =
      (merge cs ds).map (Candidate.recast f) := by
  simp only [merge, List.isEmpty_map, ← List.map_append]
  split
  · rfl
  · split
    · rfl
    · exact (List.map_mergeSort (f := Candidate.recast f) fun _ _ _ _ => rfl).symm

theorem below_recast (annotations : List String) (cs : List (Candidate ρ ε)) :
    (x.recast f).below annotations (cs.map (Candidate.recast f)) =
      (x.below annotations cs).map (Candidate.recast f) := by
  rw [below, below, options_recast, seedsAt_recast, merge_recast]
  split <;> rfl

theorem onStart_recast (annotations : List String) :
    ((x.recast f).onStart.filter fun r => (x.recast f).anchors annotations r.path) =
      (x.registrations.zipIdx.filter fun e =>
        x.anchors annotations e.1.path && decide (e.1.path.length = 0)).map
          fun e => f.registration e.2 e.1 := by
  rw [onStart, List.filter_filter, recast, List.filter_map]
  refine congrArg _ (List.filter_congr fun e _ => ?_)
  dsimp only [Function.comp_apply]
  rw [f.path]
  rfl

theorem recast_within : x.recast (f.within x.registrations) = x.recast f := by
  rw [recast, recast]
  congr 1
  exact List.map_congr_left fun e he => if_pos he

def withCallbacks (x : Extractor σ ε) (f : Registration σ ε → Action σ ε Value) :
    Extractor σ ε where
  registrations := x.registrations.map fun r => ⟨r.path, f r⟩
  options := x.options

theorem withCallbacks_eq_recast (x : Extractor σ ε) (f : Registration σ ε → Action σ ε Value) :
    x.withCallbacks f = x.recast ⟨fun _ r => ⟨r.path, f r⟩, fun _ _ => rfl⟩ := by
  rw [withCallbacks, recast]
  conv_lhs => rw [← List.zipIdx_map_fst 0 x.registrations, List.map_map]
  rfl

/-- A run whose walk may take any number of steps. -/
def runWithin (x : Extractor σ ε) (steps : Cursor → Nat) : Action σ ε Unit := do
  let base ← Action.look (·.cursor.depth)
  if base ≠ 0 ∧ !x.options.relative then
    throw (.violation (.startDepth base))
  else
    let annotations ← Action.look (·.cursor.annotations)
    visitStart base (x.onStart.filter fun r => x.anchors annotations r.path)
    if ← Action.look (·.cursor.isContainer) then
      let candidates := x.seedsAt annotations
      if !candidates.isEmpty || x.entersAll then
        let bound ← Action.look (steps ·.cursor)
        Action.stepIn
        let _ ← x.walk base bound candidates
        Action.stepOut

theorem run_eq_runWithin (x : Extractor σ ε) : x.run = x.runWithin budget := rfl

def runFrom (x : Extractor σ ε) (steps : Cursor → Nat) (base : Nat) : Action σ ε Unit :=
  if base ≠ 0 ∧ !x.options.relative then
    throw (.violation (.startDepth base))
  else do
    let annotations ← Action.look (·.cursor.annotations)
    visitStart base (x.onStart.filter fun r => x.anchors annotations r.path)
    if ← Action.look (·.cursor.isContainer) then
      let candidates := x.seedsAt annotations
      if !candidates.isEmpty || x.entersAll then
        let bound ← Action.look (steps ·.cursor)
        Action.stepIn
        let _ ← x.walk base bound candidates
        Action.stepOut

end Extractor

structure Compatible (rel : ∀ {α : Type}, Action σ ε α → Action τ ε α → Prop) : Prop where
  pure {α : Type} (v : α) : rel (Pure.pure v) (Pure.pure v)
  throw {α : Type} (f : Failure ε) :
    rel (MonadExcept.throw f : Action σ ε α) (MonadExcept.throw f)
  bind {α β : Type} {a : Action σ ε α} {b : Action τ ε α} {k : α → Action σ ε β}
    {l : α → Action τ ε β} (hab : rel a b) (hkl : ∀ v, rel (k v) (l v)) : rel (a >>= k) (b >>= l)
  look {α : Type} (q : Cursor → Bool → α) :
    rel (Action.look fun s => q s.cursor s.indexed) (Action.look fun s => q s.cursor s.indexed)
  log (e : Event) : rel (Action.log e) (Action.log e)
  stepIn : rel Action.stepIn Action.stepIn
  stepOut : rel Action.stepOut Action.stepOut
  next : rel Action.next Action.next

/-- A call asks nothing of the session but its cursor and, if the cursor tells it, the ordinal. -/
theorem Registration.invoke_eq (r : Registration σ ε) (base : Nat) : r.invoke base = (do
    let before ← Action.look fun s => (s.cursor, s.ordinal?)
    let returned ← r.callback
    let after ← Action.look fun s => (s.cursor, s.ordinal?)
    if after.1.depth ≠ before.1.depth then
      Action.log (.violation .depthChanged r.path)
      throw (.violation (.depthChanged before.1.depth after.1.depth))
    else if after.1.position ≠ before.1.position ∨ after.2 ≠ before.2 then
      Action.log (.violation .cursorAdvanced r.path)
      throw (.violation (.cursorAdvanced before.1.position))
    else
      match r.checkCount (before.1.depth - base) returned with
      | .ok n => return n
      | .error e => throw e) := by
  simp only [Action.look, bind_assoc, pure_bind]
  rfl

namespace Compatible

variable {rel : ∀ {α : Type}, Action σ ε α → Action τ ε α → Prop}

theorem ite (_ : Compatible rel) {c : Prop} [Decidable c] {a a' : Action σ ε α}
    {b b' : Action τ ε α} (h : rel a b) (h' : rel a' b') :
    rel (if c then a else a') (if c then b else b') := by
  split
  · exact h
  · exact h'

variable (hrel : Compatible rel)

include hrel

theorem invoke {r : Registration σ ε} {r' : Registration τ ε} (hpath : r.path = r'.path)
    (h : rel r.callback r'.callback) (base : Nat) : rel (r.invoke base) (r'.invoke base) := by
  rw [r.invoke_eq, r'.invoke_eq, hpath]
  let told (c : Cursor) (indexed : Bool) := (c, if indexed then some c.ordinal else none)
  refine hrel.bind (hrel.look told) fun before => hrel.bind h fun v => ?_
  refine hrel.bind (hrel.look told) fun after => ?_
  refine hrel.ite (hrel.bind (hrel.log _) fun _ => hrel.throw _) ?_
  refine hrel.ite (hrel.bind (hrel.log _) fun _ => hrel.throw _) ?_
  have hcheck :
      r.checkCount (before.1.depth - base) v = r'.checkCount (before.1.depth - base) v := by
    cases v <;> simp [Registration.checkCount, hpath]
  rw [hcheck]
  cases r'.checkCount (before.1.depth - base) v with
  | ok n => exact hrel.pure n
  | error e => exact hrel.throw _

variable {f : Recasting ρ σ ε} {g : Recasting ρ τ ε} (x : Extractor ρ ε) {base : Nat}

section Calls

variable (h : ∀ i r,
  rel ((f.registration i r).invoke base) ((g.registration i r).invoke base))

include h

/-- What goes on after a visit sees the candidates under other callbacks. -/
theorem visit_bind (position : Option Position) (annotations : List String)
    (cs : List (Candidate ρ ε)) {k : Nat × List (Candidate σ ε) → Action σ ε α}
    {l : Nat × List (Candidate τ ε) → Action τ ε α}
    (hkl : ∀ n (ds : List (Candidate ρ ε)),
      rel (k (n, ds.map (Candidate.recast f))) (l (n, ds.map (Candidate.recast g)))) :
    rel ((x.recast f).visit base position annotations (cs.map (Candidate.recast f)) >>= k)
      ((x.recast g).visit base position annotations (cs.map (Candidate.recast g)) >>= l) := by
  induction cs generalizing k l with
  | nil => exact hkl 0 []
  | cons c cs ih =>
    rw [List.map_cons, List.map_cons, Extractor.visit, Extractor.visit]
    simp only [Candidate.component?_recast, Candidate.isTerminal_recast, Extractor.options_recast]
    split
    · exact ih hkl
    split
    · have hcall : rel ((c.recast f).registration.invoke base)
          ((c.recast g).registration.invoke base) := h c.order c.registration
      simp only [bind_assoc]
      exact hrel.bind hcall fun n => ih fun m ds => hkl (max n m) ds
    · simp only [bind_assoc]
      exact ih fun m ds => hkl m (c.advance :: ds)

/-- A walk respects a compatible relation if its callbacks do. -/
theorem walk (fuel : Nat) (cs : List (Candidate ρ ε)) :
    rel ((x.recast f).walk base fuel (cs.map (Candidate.recast f)))
      ((x.recast g).walk base fuel (cs.map (Candidate.recast g))) := by
  induction fuel generalizing cs with
  | zero => exact hrel.throw _
  | succ fuel ih =>
    unfold Extractor.walk
    refine hrel.bind hrel.next fun more => hrel.ite (hrel.pure 0) ?_
    refine hrel.bind (hrel.look fun c _ => c.position) fun position => ?_
    refine hrel.bind (hrel.look fun c _ => c.annotations) fun annotations => ?_
    refine hrel.visit_bind x h position annotations cs fun count carried => ?_
    refine hrel.ite ?_ (hrel.bind (hrel.look fun c _ => c.isContainer) fun entered => ?_)
    · refine hrel.bind (hrel.look fun c _ => c.depth) fun depth => ?_
      exact hrel.bind (hrel.log _) fun _ => hrel.pure (count - 1)
    refine hrel.ite (ih cs) ?_
    simp only [Extractor.below_recast, List.isEmpty_map, Extractor.entersAll_recast]
    refine hrel.ite (ih cs) (hrel.bind hrel.stepIn fun _ => hrel.bind (ih _) fun count => ?_)
    exact hrel.bind hrel.stepOut fun _ => hrel.ite (hrel.pure (count - 1)) (ih cs)

theorem visitStart (es : List (Registration ρ ε × Nat)) :
    rel (Extractor.visitStart base (es.map fun e => f.registration e.2 e.1))
      (Extractor.visitStart base (es.map fun e => g.registration e.2 e.1)) := by
  induction es with
  | nil => exact hrel.pure ()
  | cons e es ih => exact hrel.bind (h e.2 e.1) fun _ => ih

/-- Related calls make related runs. -/
theorem runFrom (steps : Cursor → Nat) :
    rel ((x.recast f).runFrom steps base) ((x.recast g).runFrom steps base) := by
  unfold Extractor.runFrom
  refine hrel.ite (hrel.throw _) ?_
  refine hrel.bind (hrel.look fun c _ => c.annotations) fun annotations => ?_
  rw [Extractor.onStart_recast, Extractor.onStart_recast]
  refine hrel.bind (hrel.visitStart h _) fun _ => ?_
  refine hrel.bind (hrel.look fun c _ => c.isContainer) fun entered => ?_
  refine hrel.ite ?_ (hrel.pure ())
  simp only [Extractor.seedsAt_recast, List.isEmpty_map, Extractor.entersAll_recast]
  refine hrel.ite (hrel.bind (hrel.look fun c _ => steps c) fun bound => ?_) (hrel.pure ())
  exact hrel.bind hrel.stepIn fun _ => hrel.bind (hrel.walk x h bound _) fun _ => hrel.stepOut

end Calls

/-- Only the callbacks of the extractor itself need to be called. -/
theorem runFrom_of_mem (h : ∀ e ∈ x.registrations.zipIdx,
    rel ((f.registration e.2 e.1).invoke base) ((g.registration e.2 e.1).invoke base))
    (steps : Cursor → Nat) :
    rel ((x.recast f).runFrom steps base) ((x.recast g).runFrom steps base) := by
  rw [← Extractor.recast_within x (f := f), ← Extractor.recast_within x (f := g)]
  refine hrel.runFrom x (fun i r => ?_) steps
  by_cases he : (r, i) ∈ x.registrations.zipIdx
  · simpa only [Recasting.within, if_pos he] using h (r, i) he
  · simp only [Recasting.within, if_neg he]
    exact hrel.invoke rfl (hrel.pure _) base

/-- Related callbacks make related runs. -/
theorem runWithin_of_mem (h : ∀ e ∈ x.registrations.zipIdx,
    rel (f.registration e.2 e.1).callback (g.registration e.2 e.1).callback)
    (steps : Cursor → Nat) :
    rel ((x.recast f).runWithin steps) ((x.recast g).runWithin steps) := by
  have hpath (i : Nat) (r : Registration ρ ε) := (f.path i r).trans (g.path i r).symm
  refine hrel.bind (hrel.look fun c _ => c.depth) fun base => ?_
  exact hrel.runFrom_of_mem x (fun e he => hrel.invoke (hpath e.2 e.1) (h e he) base) steps

end Compatible

theorem compatible_alike (R : σ → τ → Prop) (lost : σ → Prop) :
    Compatible fun {α : Type} (a : Action σ ε α) (b : Action τ ε α) =>
      ∀ s st, Alike R lost (fun v => v) (fun v => v) a b s st where
  pure v _ _ := Alike.done v
  throw f _ _ := Alike.throw f
  bind hab hkl s st := (hab s st).bind hkl
  look q _ _ := Alike.look q
  log e _ _ := Alike.log e
  stepIn _ _ := Alike.stepIn
  stepOut _ _ := Alike.stepOut
  next _ _ := Alike.next

namespace Extractor

variable {f : Recasting ρ σ ε} {g : Recasting ρ τ ε} (x : Extractor ρ ε) {R : σ → τ → Prop}
  {lost : σ → Prop}

/-- Runs with callbacks that do the same do the same. -/
theorem alike_run (h : ∀ i r s st, Alike R lost (fun v => v) (fun v => v)
    (f.registration i r).callback (g.registration i r).callback s st) (s : Session σ) (st : τ) :
    Alike R lost (fun v => v) (fun v => v) (x.recast f).run (x.recast g).run s st :=
  (compatible_alike R lost).runWithin_of_mem x (fun e _ => h e.2 e.1) budget s st

/-- Only the callbacks of the extractor itself need to do the same. -/
theorem alike_run_of_mem (h : ∀ e ∈ x.registrations.zipIdx, ∀ s st,
    Alike R lost (fun v => v) (fun v => v) (f.registration e.2 e.1).callback
      (g.registration e.2 e.1).callback s st) (s : Session σ) (st : τ) :
    Alike R lost (fun v => v) (fun v => v) (x.recast f).run (x.recast g).run s st :=
  (compatible_alike R lost).runWithin_of_mem x h budget s st

end Extractor
end TreePaths
