import Mathlib.Logic.Relation
import TreePaths.Proofs.Cursor.Motion
import TreePaths.Proofs.Extraction.Nesting
import TreePaths.Proofs.Extraction.Tour

/-!
The candidates of every walk that is called in the course of a run: they are those that stand in the
container that was entered, which is known from the document alone.
-/

namespace TreePaths

open TreePaths.Action TreePaths.Effect

namespace Extractor

variable {σ ε : Type}

section Standing

variable (x : Extractor σ ε) (root : Value) (t : Trail)

/-- In a container stand the paths of which some components lead there, but not all. -/
theorem mem_standing {c : Candidate σ ε} : c ∈ x.standing root t ↔
    x.registrations[c.order]? = some c.registration ∧
      c.matched < c.registration.path.length ∧
      c.registration.path.reaches x.options root c.matched t := by
  obtain ⟨order, r, m⟩ := c
  simp only [standing, List.mem_flatMap, List.mem_map, SearchPath.stages, List.mem_filter,
    List.mem_reverse, List.mem_range, Candidate.mk.injEq]
  constructor
  · rintro ⟨e, he, m, ⟨hm, hreach⟩, rfl, rfl, rfl⟩
    exact ⟨List.mem_zipIdx_iff_getElem?.mp he, hm, hreach⟩
  · rintro ⟨he, hm, hreach⟩
    exact ⟨(r, order), List.mk_mem_zipIdx_iff_getElem?.mpr he, m, ⟨hm, hreach⟩, rfl, rfl, rfl⟩

/-- In the order of registration, and for one path the stage that has come furthest first. -/
theorem pairwise_standing : (x.standing root t).Pairwise fun a b =>
    a.order < b.order ∨ a.order = b.order ∧ b.matched < a.matched := by
  rw [standing, List.pairwise_flatMap]
  constructor
  · intro e _
    rw [List.pairwise_map]
    refine List.Pairwise.filter _ (List.pairwise_reverse.mpr ?_)
    exact List.pairwise_lt_range.imp fun h => .inr ⟨rfl, h⟩
  · refine (pairwise_zipIdx x.registrations).imp fun h a ha b hb => .inl ?_
    obtain ⟨_, -, rfl⟩ := List.mem_map.mp ha
    obtain ⟨_, -, rfl⟩ := List.mem_map.mp hb
    exact h

end Standing

structure Stands (x : Extractor σ ε) (root : Value) (t : Trail) (cs : List (Candidate σ ε)) :
    Prop where
  sorted : cs.Pairwise fun a b => a.order ≤ b.order
  distinct : (cs.map fun c => (c.order, c.matched)).Nodup
  registered : ∀ c ∈ cs, x.registrations[c.order]? = some c.registration
  inRange : ∀ c ∈ cs, c.matched < c.registration.path.length ∧ c.matched ≤ t.length
  absolute : x.options.relative = false → ∀ c ∈ cs, c.matched = t.length
  component : ∀ c ∈ cs, c.component?.isSome
  /-- At a child at most one candidate of each path both ends and is accepted. -/
  once : ∀ s : Step, (x.ending s cs).Pairwise fun a b => a.order < b.order
  /-- The candidates are known from the document: the beginnings of paths that lead to the
  container. -/
  present : ∀ order matched, (∃ c ∈ cs, c.order = order ∧ c.matched = matched) ↔
    ∃ r, x.registrations[order]? = some r ∧ matched < r.path.length ∧
      r.path.reaches x.options root matched t

theorem stands_standing (x : Extractor σ ε) (root : Value) (t : Trail) :
    x.Stands root t (x.standing root t) := by
  have hlength {c : Candidate σ ε} (hc : c ∈ x.standing root t) :
      if x.options.relative then c.matched ≤ t.length else c.matched = t.length := by
    have hreach := ((mem_standing x root t).mp hc).2.2
    rw [SearchPath.reaches, Bool.and_eq_true, Bool.and_eq_true] at hreach
    cases hr : x.options.relative <;> simpa [hr] using hreach.1.1
  have hpairwise := x.pairwise_standing root t
  constructor
  · exact hpairwise.imp fun h => h.elim Nat.le_of_lt fun h => Nat.le_of_eq h.1
  · refine List.pairwise_map.mpr (hpairwise.imp fun {a b} h heq => ?_)
    obtain ⟨horder, hmatched⟩ := Prod.mk.inj heq
    rcases h with h | h
    · exact Nat.ne_of_lt h horder
    · exact Nat.ne_of_lt h.2 hmatched.symm
  · exact fun c hc => ((mem_standing x root t).mp hc).1
  · intro c hc
    refine ⟨((mem_standing x root t).mp hc).2.1, ?_⟩
    have := hlength hc
    split at this <;> omega
  · intro hr c hc
    simpa [hr] using hlength hc
  · intro c hc
    have hlt := ((mem_standing x root t).mp hc).2.1
    rw [Candidate.component?, List.getElem?_eq_getElem hlt]
    rfl
  · intro s
    rw [ending_standing_eq]
    exact List.pairwise_map.mpr ((pairwise_zipIdx x.registrations).filter _)
  · intro order matched
    constructor
    · rintro ⟨c, hc, rfl, rfl⟩
      exact ⟨c.registration, (mem_standing x root t).mp hc⟩
    · rintro ⟨r, hr⟩
      exact ⟨⟨order, r, matched⟩, (mem_standing x root t).mpr hr, rfl, rfl⟩

theorem owns_standing (x : Extractor σ ε) (root : Value) (t : Trail) :
    x.Owns (x.standing root t) :=
  fun _ hc => List.mem_of_getElem? ((mem_standing x root t).mp hc).1

end Extractor

structure WalkCall (σ ε : Type) where
  fuel : Nat
  candidates : List (Candidate σ ε)
  session : Session σ

namespace Extractor

variable {σ ε : Type}

/-- A run calls a walk over the children of the value that it starts on. -/
inductive Begins (x : Extractor σ ε) (s : Session σ) : WalkCall σ ε → Prop
  | intro {s₁ s₂ : Session σ} (hallowed : s.cursor.depth = 0 ∨ x.options.relative)
      (hstart : exec (visitStart s.cursor.depth
        (x.onStart.filter fun r => x.anchors s.cursor.annotations r.path)) s = (.ok (), s₁))
      (hcontainer : s₁.cursor.isContainer)
      (hseeds : !(x.seedsAt s.cursor.annotations).isEmpty || x.entersAll)
      (hin : exec (stepIn : Action σ ε Unit) s₁ = (.ok (), s₂)) :
      x.Begins s ⟨budget s₁.cursor, x.seedsAt s.cursor.annotations, s₂⟩

/-- The walk goes to the next child, and no callback there asks to leave the container. `inner` are
the candidates below the child. -/
def Passes (x : Extractor σ ε) (base : Nat) (cs : List (Candidate σ ε)) (s : Session σ)
    (inner : List (Candidate σ ε)) (s₂ : Session σ) : Prop :=
  ∃ s₁ carried, exec (next : Action σ ε Bool) s = (.ok true, s₁) ∧
    exec (x.visit base s₁.cursor.position s₁.cursor.annotations cs) s₁ = (.ok (0, carried), s₂) ∧
    inner = x.below s₁.cursor.annotations carried

/-- The child under the cursor is a container that is walked through with these candidates. -/
def opens (x : Extractor σ ε) (inner : List (Candidate σ ε)) (s : Session σ) : Bool :=
  s.cursor.isContainer && (!inner.isEmpty || x.entersAll)

/-- A walk calls another one: over the remaining siblings of a child that is not entered, over the
children of one that is, or over its remaining siblings after it has been left. -/
inductive Makes (x : Extractor σ ε) (base : Nat) : WalkCall σ ε → WalkCall σ ε → Prop
  | skip {fuel : Nat} {cs inner : List (Candidate σ ε)} {s s₂ : Session σ}
      (h : x.Passes base cs s inner s₂) (hclosed : x.opens inner s₂ = false) :
      x.Makes base ⟨fuel + 1, cs, s⟩ ⟨fuel, cs, s₂⟩
  | enter {fuel : Nat} {cs inner : List (Candidate σ ε)} {s s₂ s₃ : Session σ}
      (h : x.Passes base cs s inner s₂) (hopens : x.opens inner s₂)
      (hin : exec (stepIn : Action σ ε Unit) s₂ = (.ok (), s₃)) :
      x.Makes base ⟨fuel + 1, cs, s⟩ ⟨fuel, inner, s₃⟩
  | resume {fuel : Nat} {cs inner : List (Candidate σ ε)} {s s₂ s₃ s₄ s₅ : Session σ}
      (h : x.Passes base cs s inner s₂) (hopens : x.opens inner s₂)
      (hin : exec (stepIn : Action σ ε Unit) s₂ = (.ok (), s₃))
      (hwalk : exec (x.walk base fuel inner) s₃ = (.ok 0, s₄))
      (hout : exec (stepOut : Action σ ε Unit) s₄ = (.ok (), s₅)) :
      x.Makes base ⟨fuel + 1, cs, s⟩ ⟨fuel, cs, s₅⟩

/-- A walk with `walk` in place of the walks that it calls. -/
def turn (x : Extractor σ ε) (base : Nat) (walk : List (Candidate σ ε) → Action σ ε Nat)
    (candidates : List (Candidate σ ε)) : Action σ ε Nat := do
  if !(← Action.next) then
    return 0
  else
    let position ← Action.look (·.cursor.position)
    let annotations ← Action.look (·.cursor.annotations)
    let (count, carried) ← x.visit base position annotations candidates
    if count > 0 then
      let depth ← Action.look (·.cursor.depth)
      Action.log (.stepOut (depth - base) position (count - 1))
      return count - 1
    else if !(← Action.look (·.cursor.isContainer)) then
      walk candidates
    else
      let inner := x.below annotations carried
      if inner.isEmpty && !x.entersAll then
        walk candidates
      else
        Action.stepIn
        let count ← walk inner
        Action.stepOut
        if count > 0 then
          return count - 1
        else
          walk candidates

theorem walk_eq_turn (x : Extractor σ ε) (base fuel : Nat) (cs : List (Candidate σ ε)) :
    x.walk base (fuel + 1) cs = x.turn base (x.walk base fuel) cs := rfl

def runWith (x : Extractor σ ε) (walk : Nat → Nat → List (Candidate σ ε) → Action σ ε Nat) :
    Action σ ε Unit := do
  let base ← Action.look (·.cursor.depth)
  if base ≠ 0 ∧ !x.options.relative then
    throw (.violation (.startDepth base))
  else
    let annotations ← Action.look (·.cursor.annotations)
    visitStart base (x.onStart.filter fun r => x.anchors annotations r.path)
    if ← Action.look (·.cursor.isContainer) then
      let candidates := x.seedsAt annotations
      if !candidates.isEmpty || x.entersAll then
        let steps ← Action.look (budget ·.cursor)
        Action.stepIn
        let _ ← walk base steps candidates
        Action.stepOut

theorem run_eq_runWith (x : Extractor σ ε) : x.run = x.runWith x.walk := rfl

/-- Where this walk is called, `walk` does the same. -/
def Agrees (x : Extractor σ ε) (base : Nat)
    (walk : Nat → Nat → List (Candidate σ ε) → Action σ ε Nat) (w : WalkCall σ ε) : Prop :=
  exec (walk base w.fuel w.candidates) w.session =
    exec (x.walk base w.fuel w.candidates) w.session

section Turns

variable {x : Extractor σ ε} {base : Nat} {cs : List (Candidate σ ε)} {s : Session σ}

/-- What a walk does when it has passed a child. The walks that it calls are those that `Makes`
names. -/
theorem exec_turn_of_passes {inner : List (Candidate σ ε)} {s₂ : Session σ}
    (h : x.Passes base cs s inner s₂) (walk : List (Candidate σ ε) → Action σ ε Nat) :
    exec (x.turn base walk cs) s =
      exec (if x.opens inner s₂ then do
          stepIn
          let count ← walk inner
          stepOut
          if count > 0 then return count - 1 else walk cs
        else walk cs) s₂ := by
  obtain ⟨s₁, carried, hnext, hvisit, rfl⟩ := h
  rw [turn, exec_bind_ok hnext, if_neg (by simp), exec_bind_ok (exec_look _ _),
    exec_bind_ok (exec_look _ _), exec_bind_ok hvisit]
  dsimp only
  rw [if_neg (by simp), exec_bind_ok (exec_look _ _), opens]
  cases s₂.cursor.isContainer with
  | false => rfl
  | true =>
    cases hinner : (x.below s₁.cursor.annotations carried).isEmpty <;>
      cases hall : x.entersAll <;> rfl

/-- A walk that passes no child ends without calling another one. -/
theorem exec_turn_of_not_passes (h : ∀ inner s₂, ¬x.Passes base cs s inner s₂)
    (walk walk' : List (Candidate σ ε) → Action σ ε Nat) :
    exec (x.turn base walk cs) s = exec (x.turn base walk' cs) s := by
  rw [turn, turn]
  refine exec_bind_congr rfl fun inside s₁ hnext => ?_
  cases inside with
  | false => rw [if_pos (by simp), if_pos (by simp)]
  | true =>
    rw [if_neg (by simp), if_neg (by simp)]
    iterate 4 rw [exec_bind_ok (exec_look _ _)]
    refine exec_bind_congr rfl fun found s₂ hvisit => ?_
    obtain ⟨count, carried⟩ := found
    dsimp only
    by_cases hcount : count > 0
    · rw [if_pos hcount, if_pos hcount]
    · obtain rfl := Nat.eq_zero_of_not_pos hcount
      exact absurd ⟨s₁, carried, hnext, hvisit, rfl⟩ (h _ s₂)

/-- What a walk does is known from the walks that `Makes` names: it calls no other one. -/
theorem exec_turn_of_agrees {fuel : Nat}
    {walk : Nat → Nat → List (Candidate σ ε) → Action σ ε Nat}
    (h : ∀ w, x.Makes base ⟨fuel + 1, cs, s⟩ w → x.Agrees base walk w) :
    exec (x.turn base (walk base fuel) cs) s = exec (x.walk base (fuel + 1) cs) s := by
  rw [walk_eq_turn]
  by_cases hpasses : ∃ inner s₂, x.Passes base cs s inner s₂
  · obtain ⟨inner, s₂, hpass⟩ := hpasses
    rw [exec_turn_of_passes hpass, exec_turn_of_passes hpass]
    cases hopens : x.opens inner s₂ with
    | false => exact h _ (.skip hpass hopens)
    | true =>
      rw [if_pos rfl, if_pos rfl]
      refine exec_bind_congr rfl fun _ s₃ hin => ?_
      refine exec_bind_congr (h _ (.enter hpass hopens hin)) fun count s₄ hwalk => ?_
      refine exec_bind_congr rfl fun _ s₅ hout => ?_
      cases count with
      | zero => exact h _ (.resume hpass hopens hin hwalk hout)
      | succ count => rfl
  · exact exec_turn_of_not_passes (fun inner s₂ hpass => hpasses ⟨inner, s₂, hpass⟩) _ _

/-- What a run does is known from the walk that `Begins` names: without one it calls none. -/
theorem exec_runWith_of_agrees {walk : Nat → Nat → List (Candidate σ ε) → Action σ ε Nat}
    (h : ∀ w, x.Begins s w → x.Agrees s.cursor.depth walk w) :
    exec (x.runWith walk) s = exec x.run s := by
  rw [run_eq_runWith, runWith, runWith]
  iterate 2 rw [exec_bind_ok (exec_look _ _)]
  by_cases hmay : s.cursor.depth ≠ 0 ∧ (!x.options.relative) = true
  · rw [if_pos hmay, if_pos hmay]
  have hallowed : s.cursor.depth = 0 ∨ x.options.relative := by
    simpa [or_iff_not_imp_left] using hmay
  rw [if_neg hmay, if_neg hmay]
  iterate 2 rw [exec_bind_ok (exec_look _ _)]
  refine exec_bind_congr rfl fun _ s₁ hstart => ?_
  iterate 2 rw [exec_bind_ok (exec_look _ _)]
  by_cases hcontainer : s₁.cursor.isContainer
  · rw [if_pos hcontainer, if_pos hcontainer]
    dsimp only
    by_cases hseeds : !(x.seedsAt s.cursor.annotations).isEmpty || x.entersAll
    · rw [if_pos hseeds, if_pos hseeds]
      iterate 2 rw [exec_bind_ok (exec_look _ _)]
      refine exec_bind_congr rfl fun _ s₂ hin => ?_
      exact exec_bind_congr (h _ (.intro hallowed hstart hcontainer hseeds hin)) fun _ _ _ => rfl
    · rw [if_neg hseeds, if_neg hseeds]
  · rw [if_neg hcontainer, if_neg hcontainer]

/-- What a run does with the walk that it calls. -/
theorem exec_run_of_begins {w : WalkCall σ ε} (h : x.Begins s w) : exec x.run s =
    exec (do
      let _ ← x.walk s.cursor.depth w.fuel w.candidates
      stepOut) w.session := by
  obtain ⟨hallowed, hstart, hcontainer, hseeds, hin⟩ := h
  have hmay : ¬(s.cursor.depth ≠ 0 ∧ (!x.options.relative) = true) := by
    rcases hallowed with h | h <;> simp [h]
  rw [run, exec_bind_ok (exec_look _ _), if_neg hmay, exec_bind_ok (exec_look _ _),
    exec_bind_ok hstart, exec_bind_ok (exec_look _ _), if_pos hcontainer]
  dsimp only
  rw [if_pos hseeds, exec_bind_ok (exec_look _ _), exec_bind_ok hin]

end Turns

/-- The session of a call is in the container at the end of a trail, and its candidates are those
that stand there. The run began under the cursor `c`, on the value `root`. -/
structure AtLevel (x : Extractor σ ε) (c : Cursor) (root : Value) (t : Trail)
    (w : WalkCall σ ε) : Prop where
  leads : t.Leads root
  cursor : ∃ i, w.session.cursor = (c.along root t).inside (t.value root) i
  candidates : w.candidates = x.standing root t

section Steps

variable {x : Extractor σ ε} {c : Cursor} {root : Value} {t : Trail} {base : Nat}

/-- The candidates below a child are those that stand there. -/
theorem Passes.standing (hx : x.Steady) {s s₂ : Session σ} {inner : List (Candidate σ ε)} {i : Nat}
    (hs : s.cursor = c.inside (t.value root) i) (ht : t.Leads root)
    (h : x.Passes base (x.standing root t) s inner s₂) :
    ∃ e : Step, e.ordinal = i ∧ Trail.Leads root (e :: t) ∧
      s₂.cursor = c.inside (t.value root) (i + 1) ∧ inner = x.standing root (e :: t) := by
  obtain ⟨s₁, carried, hnext, hvisit, rfl⟩ := h
  rw [exec_next] at hnext
  obtain ⟨hinside, rfl⟩ := Prod.mk.inj hnext
  have hi : i < (t.value root).bare.children.length := by
    by_contra hlast
    rw [hs, Cursor.next_inside_last (Nat.le_of_not_lt hlast)] at hinside
    cases hinside
  obtain ⟨⟨p, v⟩, hchild⟩ : ∃ e, (t.value root).bare.children[i]? = some e :=
    ⟨_, List.getElem?_eq_getElem hi⟩
  have hcursor : s.cursor.next = c.inside (t.value root) (i + 1) := by
    rw [hs, Cursor.next_inside hchild]
  have hannotations := Cursor.annotations_of_current? (Cursor.current?_inside (c := c) hchild)
  rw [cursor_moved, hcursor, Cursor.position_inside hchild, hannotations,
    x.visit_eq base ⟨i, p, v⟩, exec_bind_eq_ok] at hvisit
  obtain ⟨n, s', hcall, hend⟩ := hvisit
  obtain ⟨hpair, rfl⟩ := Prod.mk.inj hend
  cases hpair
  refine ⟨⟨i, p, v⟩, rfl, ⟨ht, hchild⟩, ?_, ?_⟩
  · rw [x.ending_standing] at hcall
    rw [(callAll_sameCursor (hx.selecting root _) hcall).cursor, cursor_moved]
  · rw [cursor_moved, hcursor, hannotations]
    exact x.below_standing root ⟨i, p, v⟩ t

theorem Steady.keeps (hx : x.Steady) (r : Registration σ ε) (hr : r ∈ x.registrations) :
    r.callback.Keeps fun _ => () :=
  fun s v s' h => ⟨hx r hr s v s' h, rfl⟩

/-- A walk that passes a child does so at the end of a longer trail. -/
theorem AtLevel.passes (hx : x.Steady) {fuel : Nat} {cs inner : List (Candidate σ ε)}
    {s s₂ : Session σ} (h : x.AtLevel c root t ⟨fuel, cs, s⟩) (hpass : x.Passes base cs s inner s₂) :
    ∃ e : Step, Trail.Leads root (e :: t) ∧
      s.cursor = (c.along root t).inside (t.value root) e.ordinal ∧
      s₂.cursor = c.along root (e :: t) ∧ inner = x.standing root (e :: t) := by
  obtain ⟨ht, ⟨i, hs⟩, hcs⟩ := h
  obtain rfl : cs = x.standing root t := hcs
  obtain ⟨e, rfl, he, hcursor, hinner⟩ := hpass.standing hx hs ht
  exact ⟨e, he, hs, hcursor, hinner⟩

theorem cursor_of_stepIn {v : Value} {s s' : Session σ} (hv : s.cursor.current? = some v)
    (hin : exec (stepIn : Action σ ε Unit) s = (.ok (), s')) :
    s'.cursor = s.cursor.inside v 0 := by
  obtain ⟨d, hd, rfl⟩ := stepIn_of_exec hin
  obtain ⟨w, hw, rfl⟩ := Cursor.stepIn_eq_ok hd
  rw [cursor_moved, Option.some.inj (hw.symm.trans hv)]

/-- A walk below a child and the steps around it give the cursor back. -/
theorem Steady.cursor_of_walk (hx : x.Steady) {fuel n : Nat} {cs : List (Candidate σ ε)}
    (hcs : x.Owns cs) {s₂ s₃ s₄ s₅ : Session σ}
    (hin : exec (stepIn : Action σ ε Unit) s₂ = (.ok (), s₃))
    (hwalk : exec (x.walk base fuel cs) s₃ = (.ok n, s₄))
    (hout : exec (stepOut : Action σ ε Unit) s₄ = (.ok (), s₅)) : s₅.cursor = s₂.cursor := by
  obtain ⟨d, hd, rfl⟩ := stepIn_of_exec hin
  obtain ⟨b, hb, rfl⟩ := stepOut_of_exec hout
  have hinside := (respectsWalk_inside hx.keeps base).walk hcs hwalk
  obtain rfl := Except.ok.inj ((Cursor.stepOut_of_stepIn hd hinside.1).symm.trans hb)
  rfl

/-- A walk is called over the next siblings of a child, to do what is left to be done in their
container, or over the children of the child. -/
theorem AtLevel.makes_cases (hx : x.Steady) {w w' : WalkCall σ ε} (h : x.AtLevel c root t w)
    (hmade : x.Makes base w w') : w.fuel = w'.fuel + 1 ∧ ∃ e : Step, Trail.Leads root (e :: t) ∧
      w.session.cursor = (c.along root t).inside (t.value root) e.ordinal ∧
      (w'.session.cursor = (c.along root t).inside (t.value root) (e.ordinal + 1) ∧
          w'.candidates = x.standing root t ∧
          exec (x.walk base w.fuel w.candidates) w.session =
            exec (x.walk base w'.fuel w'.candidates) w'.session ∨
        w'.session.cursor = (c.along root (e :: t)).inside e.value 0 ∧
          w'.candidates = x.standing root (e :: t) ∧
          exec (x.walk base w.fuel w.candidates) w.session = exec (do
            let count ← x.walk base w'.fuel w'.candidates
            stepOut
            if count > 0 then return count - 1 else x.walk base w'.fuel w.candidates) w'.session) := by
  cases hmade with
  | @skip fuel _ _ _ _ hpass hclosed =>
    obtain ⟨e, he, hs, hcursor, -⟩ := h.passes hx hpass
    have hturn := exec_turn_of_passes hpass (x.walk base fuel)
    rw [hclosed, if_neg Bool.false_ne_true] at hturn
    exact ⟨rfl, e, he, hs, .inl ⟨hcursor, h.candidates, hturn⟩⟩
  | @enter fuel _ _ _ s₂ _ hpass hopens hin =>
    obtain ⟨e, he, hs, hcursor, hinner⟩ := h.passes hx hpass
    have hchild : s₂.cursor.current? = some e.value := by
      rw [hcursor]
      exact Cursor.current?_inside he.2
    have hturn := exec_turn_of_passes hpass (x.walk base fuel)
    rw [if_pos hopens, exec_bind_ok hin] at hturn
    exact ⟨rfl, e, he, hs, .inr ⟨hcursor ▸ cursor_of_stepIn hchild hin, hinner, hturn⟩⟩
  | @resume fuel _ _ _ _ _ _ _ hpass hopens hin hwalk hout =>
    obtain ⟨e, he, hs, hcursor, rfl⟩ := h.passes hx hpass
    have hback := hx.cursor_of_walk (owns_standing x root _) hin hwalk hout
    have hturn := exec_turn_of_passes hpass (x.walk base fuel)
    rw [if_pos hopens, exec_bind_ok hin, exec_bind_ok hwalk, exec_bind_ok hout,
      if_neg (Nat.lt_irrefl 0)] at hturn
    exact ⟨rfl, e, he, hs, .inl ⟨hback.trans hcursor, h.candidates, hturn⟩⟩

theorem AtLevel.makes (hx : x.Steady) {w w' : WalkCall σ ε} (h : x.AtLevel c root t w)
    (hmade : x.Makes base w w') : ∃ u, x.AtLevel c root u w' := by
  obtain ⟨-, e, he, -, ⟨hcursor, hcs, -⟩ | ⟨hcursor, hcs, -⟩⟩ := h.makes_cases hx hmade
  · exact ⟨t, h.leads, ⟨_, hcursor⟩, hcs⟩
  · exact ⟨e :: t, he, ⟨0, hcursor⟩, hcs⟩

theorem Steady.cursor_of_visitStart (hx : x.Steady) {annotations : List String} {s s' : Session σ}
    (h : exec (visitStart base (x.onStart.filter fun r => x.anchors annotations r.path)) s =
      (.ok (), s')) : s'.cursor = s.cursor := by
  have hrows : ∀ r ∈ x.onStart.filter fun r => x.anchors annotations r.path, r.Steady :=
    fun r hr => hx r (List.mem_filter.mp (List.mem_filter.mp hr).1).1
  rw [visitStart_eq, exec_bind_eq_ok] at h
  obtain ⟨n, s₁, hcall, hend⟩ := h
  cases hend
  exact (callAll_sameCursor hrows hcall).cursor

theorem Begins.atLevel (hx : x.Steady) {s : Session σ} {w : WalkCall σ ε} (h : x.Begins s w) :
    ∃ root, s.cursor.current? = some root ∧ x.AtLevel s.cursor root [] w := by
  obtain ⟨-, hstart, -, -, hin⟩ := h
  have hsame := hx.cursor_of_visitStart hstart
  obtain ⟨d, hd, rfl⟩ := stepIn_of_exec hin
  obtain ⟨root, hroot, rfl⟩ := Cursor.stepIn_eq_ok hd
  rw [hsame] at hroot
  refine ⟨root, hroot, trivial, ⟨0, ?_⟩, ?_⟩
  · rw [cursor_moved, hsame]
    rfl
  · rw [standing_nil, Cursor.annotations_of_current? hroot]

/-- What walks that wait for another one do with the number that it returns, the innermost of them
first: the container is left, and the next walk hands on one less, or goes on if it is zero. The
number that the outermost walk returns is dropped. -/
def unwind (x : Extractor σ ε) (base : Nat) :
    List (Nat × List (Candidate σ ε)) → Nat → Action σ ε Unit
  | [], _ => stepOut
  | (fuel, cs) :: waiting, n => do
    stepOut
    if n > 0 then x.unwind base waiting (n - 1)
    else do
      let m ← x.walk base fuel cs
      x.unwind base waiting m

/-- A run from the session `s` has called a walk, for which these walks wait, the innermost first:
those over what is left in the containers around, with the candidates that stand there. -/
structure Awaits (x : Extractor σ ε) (s : Session σ) (root : Value) (t : Trail)
    (waiting : List (Nat × List (Candidate σ ε))) (w : WalkCall σ ε) : Prop
    extends x.AtLevel s.cursor root t w where
  waits : waiting.map (·.2) = t.tails.tail.map (x.standing root)
  run : exec x.run s = exec (x.walk s.cursor.depth w.fuel w.candidates >>=
    x.unwind s.cursor.depth waiting) w.session

/-- Whatever walk is called by one that others wait for, others wait for it in turn. -/
theorem Awaits.makes (hx : x.Steady) {s : Session σ}
    {waiting : List (Nat × List (Candidate σ ε))} {w w' : WalkCall σ ε}
    (h : x.Awaits s root t waiting w) (hmade : x.Makes s.cursor.depth w w') :
    ∃ u more, x.Awaits s root u more w' := by
  obtain ⟨-, e, he, -, ⟨hcursor, hcs, hturn⟩ | ⟨hcursor, hcs, hturn⟩⟩ := h.makes_cases hx hmade
  · refine ⟨t, waiting, ⟨h.leads, ⟨_, hcursor⟩, hcs⟩, h.waits, ?_⟩
    rw [h.run, exec_bind_of_eq hturn]
  · refine ⟨e :: t, (w'.fuel, w.candidates) :: waiting, ⟨he, ⟨0, hcursor⟩, hcs⟩, ?_, ?_⟩
    · have htails : t.tails = t :: t.tails.tail := by cases t <;> rfl
      rw [List.map_cons, h.waits, h.candidates, List.tails_cons, List.tail_cons, htails,
        List.map_cons, List.tail_cons]
    · rw [h.run, exec_bind_of_eq hturn, bind_assoc]
      refine exec_bind_congr rfl fun count s₁ _ => ?_
      rw [unwind, bind_assoc]
      refine exec_bind_congr rfl fun _ s₂ _ => ?_
      split
      · rw [pure_bind]
      · rfl

theorem Begins.awaits (hx : x.Steady) {s : Session σ} {w : WalkCall σ ε} (h : x.Begins s w) :
    ∃ root, s.cursor.current? = some root ∧ x.Awaits s root [] [] w := by
  obtain ⟨root, hroot, hlevel⟩ := h.atLevel hx
  exact ⟨root, hroot, hlevel, rfl, exec_run_of_begins h⟩

theorem Begins.awaits_of_made (hx : x.Steady) {s : Session σ} {w w' : WalkCall σ ε}
    (h : x.Begins s w) (hmade : Relation.ReflTransGen (x.Makes s.cursor.depth) w w') :
    ∃ root t waiting, s.cursor.current? = some root ∧ x.Awaits s root t waiting w' := by
  obtain ⟨root, hroot, hfirst⟩ := h.awaits hx
  induction hmade with
  | refl => exact ⟨root, [], [], hroot, hfirst⟩
  | tail _ hstep ih =>
    obtain ⟨v, t, waiting, hv, ht⟩ := ih
    obtain ⟨u, more, hu⟩ := ht.makes hx hstep
    exact ⟨v, u, more, hv, hu⟩

theorem AtLevel.depth {w : WalkCall σ ε} (h : x.AtLevel c root t w) :
    w.session.cursor.depth = c.depth + (t.length + 1) := by
  obtain ⟨-, ⟨i, hs⟩, -⟩ := h
  rw [hs, Cursor.depth_inside, Cursor.depth_along, Nat.add_assoc]

/-- If callbacks leave the cursor in place, each walk that is called in the course of a run goes
over the children of one container, with the candidates that stand there, and the run is what this
walk does and then the walks around it. `Begins` and `Makes` name all walks that are called:
whatever does the same in these calls may stand in for the walk, in a run and in each walk that it
calls. -/
theorem stands_in_every_call (hx : x.Steady) (s : Session σ) :
    (∀ walk, (∀ w, x.Begins s w → x.Agrees s.cursor.depth walk w) →
      exec (x.runWith walk) s = exec x.run s) ∧
    ∀ w w', x.Begins s w → Relation.ReflTransGen (x.Makes s.cursor.depth) w w' →
      (∀ walk fuel, w'.fuel = fuel + 1 →
        (∀ v, x.Makes s.cursor.depth w' v → x.Agrees s.cursor.depth walk v) →
          exec (x.turn s.cursor.depth (walk s.cursor.depth fuel) w'.candidates) w'.session =
            exec (x.walk s.cursor.depth w'.fuel w'.candidates) w'.session) ∧
      ∃ root t i waiting, s.cursor.current? = some root ∧ t.Leads root ∧
        w'.session.cursor = (s.cursor.along root t).inside (t.value root) i ∧
        w'.session.cursor.depth - s.cursor.depth = t.length + 1 ∧
        x.Stands root t w'.candidates ∧
        waiting.map (·.2) = t.tails.tail.map (x.standing root) ∧
        exec x.run s = exec (x.walk s.cursor.depth w'.fuel w'.candidates >>=
          x.unwind s.cursor.depth waiting) w'.session := by
  refine ⟨fun walk h => exec_runWith_of_agrees h, fun w w' hbegun hmade => ⟨?_, ?_⟩⟩
  · rintro walk fuel hfuel h
    obtain ⟨_, cs, u⟩ := w'
    obtain rfl : _ = fuel + 1 := hfuel
    exact exec_turn_of_agrees h
  · obtain ⟨root, t, waiting, hroot, ht⟩ := hbegun.awaits_of_made hx hmade
    obtain ⟨i, hi⟩ := ht.cursor
    refine ⟨root, t, i, waiting, hroot, ht.leads, hi, ?_, ?_, ht.waits, ht.run⟩
    · rw [ht.depth, Nat.add_sub_cancel_left]
    · exact ht.candidates ▸ stands_standing x root t

end Steps

def Sample.boxed : Value :=
  .list [.list [.int 7]]

/-- Two paths in relative mode. One of them ends where the other one goes on. -/
def Sample.boxes : Extractor Nat Empty where
  registrations :=
    [⟨[], [⟨.wildcard, []⟩, ⟨.index 0, []⟩]⟩, ⟨[], [⟨.index 0, []⟩]⟩].map
      fun p => ⟨p, fun s => (.ok (.int 0), { s with state := s.state + 1 })⟩
  options := { relative := true }

theorem Sample.steady_boxes : Sample.boxes.Steady := by
  intro r hr s v s' h
  obtain ⟨p, -, rfl⟩ := List.mem_map.mp hr
  obtain ⟨-, rfl⟩ := Prod.mk.inj h
  exact ⟨rfl, rfl⟩

def Sample.onBoxed : Session Nat :=
  .start Sample.boxed true 0

def Sample.outerCall : WalkCall Nat Empty where
  fuel := patience + 3
  candidates := Sample.boxes.seedsAt []
  session := moved Sample.onBoxed .stepIn (Sample.onBoxed.cursor.inside Sample.boxed 0)

theorem Sample.begins_outerCall : Sample.boxes.Begins Sample.onBoxed Sample.outerCall := by
  have hstart : exec (visitStart 0 (Sample.boxes.onStart.filter fun r =>
      Sample.boxes.anchors [] r.path)) Sample.onBoxed = (.ok (), Sample.onBoxed) := rfl
  have hin : exec (stepIn : Action Nat Empty Unit) Sample.onBoxed =
      (.ok (), Sample.outerCall.session) := rfl
  have hbudget : budget Sample.onBoxed.cursor = patience + 3 := Nat.add_comm 3 patience
  rw [Sample.outerCall, ← hbudget]
  exact .intro (.inl rfl) hstart rfl rfl hin

theorem stands_in_every_call_sample : ∃ w : WalkCall Nat Empty,
    (Sample.boxes.Steady ∧ Sample.boxes.Begins Sample.onBoxed Sample.outerCall ∧
      Relation.ReflTransGen (Sample.boxes.Makes 0) Sample.outerCall w) ∧
    w.session.cursor.depth = 2 ∧ (w.candidates.Pairwise fun a b => a.order ≤ b.order) ∧
    ∀ c ∈ w.candidates, c.matched ≤ 1 ∧ c.component?.isSome := by
  have hinto : ∃ w, Sample.boxes.Makes 0 Sample.outerCall w ∧ w.session.cursor.depth = 2 := by
    have hpasses : ∃ inner s₂, Sample.boxes.Passes 0 (Sample.boxes.seedsAt [])
        Sample.outerCall.session inner s₂ ∧ Sample.boxes.opens inner s₂ ∧
        ∃ s₃, exec (stepIn : Action Nat Empty Unit) s₂ = (.ok (), s₃) ∧ s₃.cursor.depth = 2 :=
      ⟨_, _, ⟨_, _, rfl, rfl, rfl⟩, Bool.or_true _, _, rfl, rfl⟩
    obtain ⟨inner, s₂, hpasses, hopens, s₃, hin, hdepth⟩ := hpasses
    exact ⟨_, .enter hpasses hopens hin, hdepth⟩
  obtain ⟨w, hmakes, hdepth⟩ := hinto
  obtain ⟨-, hcalls⟩ := stands_in_every_call Sample.steady_boxes Sample.onBoxed
  obtain ⟨-, root, t, i, _, -, -, -, hlength, hstands, -⟩ :=
    hcalls _ _ Sample.begins_outerCall (.single hmakes)
  have ht : 2 - 0 = t.length + 1 := hdepth ▸ hlength
  refine ⟨w, ⟨Sample.steady_boxes, Sample.begins_outerCall, .single hmakes⟩, hdepth, hstands.sorted,
    fun c hc => ⟨?_, hstands.component c hc⟩⟩
  have := (hstands.inRange c hc).2
  omega

end Extractor

end TreePaths
