import TreePaths.Proofs.Extraction.Calls

/-!
The course of a run as a tree of visits: to which nodes it comes, into which containers it goes, and
which moves the walk makes for that between the calls of callbacks.
-/

namespace TreePaths

open TreePaths.Action TreePaths.Effect

variable {σ ε : Type}

structure Track where
  cursor : Cursor
  moves : List Move

def Session.track (s : Session σ) : Track :=
  ⟨s.cursor, s.moves⟩

/-- A part of the course of a run: a move of the walk's own, or the call of a callback with all that
the callback does. Going to the next sibling may find one or not. -/
inductive Leg where
  | stepIn
  | next (found : Bool)
  | stepOut
  | call (k : Call)

namespace Leg

def Leads : Leg → Track → Track → Prop
  | stepIn, a, b => a.cursor.stepIn = .ok b.cursor ∧ b.moves = .stepIn :: a.moves
  | next found, a, b =>
    a.cursor.next = b.cursor ∧ b.cursor.isInside = found ∧ b.moves = .next :: a.moves
  | stepOut, a, b => a.cursor.stepOut = .ok b.cursor ∧ b.moves = .stepOut :: a.moves
  | call k, a, b => k.before.track = a ∧ k.after.track = b

end Leg

inductive Course : List Leg → Track → Track → Prop
  | nil (a : Track) : Course [] a a
  | cons {l : Leg} {ls : List Leg} {a b c : Track} (h : l.Leads a b) (hs : Course ls b c) :
    Course (l :: ls) a c

theorem Course.append {ls ms : List Leg} {a b c : Track} (h : Course ls a b) (h' : Course ms b c) :
    Course (ls ++ ms) a c := by
  induction h with
  | nil => exact h'
  | cons h _ ih => exact .cons h (ih h')

theorem Course.single {l : Leg} {a b : Track} (h : l.Leads a b) : Course [l] a b :=
  .cons h (.nil b)

inductive Visit where
  | pass (node : Trail) (calls : List Call)
  | enter (node : Trail) (calls : List Call) (inner : List Visit)

namespace Visit

def node : Visit → Trail
  | pass t _ => t
  | enter t _ _ => t

def calls : Visit → List Call
  | pass _ ks => ks
  | enter _ ks _ => ks

def inner : Visit → List Visit
  | pass _ _ => []
  | enter _ _ vs => vs

def isEntered : Visit → Bool
  | pass _ _ => false
  | enter _ _ _ => true

def count (v : Visit) : Nat :=
  greatest (v.calls.map Call.count)

mutual

/-- The visit and all visits within it, in the order in which they begin. -/
def parts : Visit → List Visit
  | pass t ks => [pass t ks]
  | enter t ks vs => enter t ks vs :: partsAll vs

def partsAll : List Visit → List Visit
  | [] => []
  | v :: vs => parts v ++ partsAll vs

end

/-- A callback called in the visit asks to leave the container at a depth. -/
def leaves (v : Visit) (depth : Nat) : Bool :=
  v.parts.any fun w => w.node.length ≤ depth + w.count

def isLeft (v : Visit) : Bool :=
  v.inner.any fun w => w.leaves v.node.length

/-- The last look for a sibling in a container, which finds none. There is none if the container is
left by a step-out. -/
def ending (left : Bool) : List Leg :=
  if left then [] else [.next false]

mutual

/-- What the walk does on a visit. A container is entered and left once, and in it the walk goes on
once to each child that it visits. -/
def legs : Visit → List Leg
  | pass _ ks => ks.map .call
  | enter t ks vs =>
    ks.map .call ++ .stepIn :: (legsAll vs ++ ending (vs.any (leaves · t.length)) ++ [.stepOut])

def legsAll : List Visit → List Leg
  | [] => []
  | v :: vs => .next true :: (legs v ++ legsAll vs)

end

end Visit

/-- The children of the node at the end of a trail, from the `i`-th one on. -/
def Trail.below (t : Trail) (i : Nat) : List (Position × Value) → List Trail
  | [] => []
  | (p, v) :: es => (⟨i, p, v⟩ :: t) :: t.below (i + 1) es

/-- A path may select a node below the one at the end of the trail. In relative mode paths may start
anywhere, and otherwise one has to have begun on the way there. -/
def Extractor.Matters (x : Extractor σ ε) (root : Value) (t : Trail) : Prop :=
  if x.options.relative then ∃ r ∈ x.registrations, 0 < r.path.length
  else ∃ r ∈ x.registrations,
    t.length < r.path.length ∧ r.path.reaches x.options root t.length t

structure Visit.Right (x : Extractor σ ε) (c : Cursor) (root : Value) (v : Visit) : Prop where
  /-- The callbacks of the paths that select the node are called on it, and no others. -/
  sites : v.calls.map Call.site = (x.chosen root v.node).map (·, c.along root v.node)
  /-- A container is entered if something below it matters and no callback asks to leave it. -/
  enters : v.isEntered ↔
    (v.node.value root).bare.isContainer ∧ v.count = 0 ∧ x.Matters root v.node
  /-- Children are visited in their order, from the first one on. -/
  children : v.inner.map Visit.node =
    (v.node.below 0 (v.node.value root).bare.children).take v.inner.length
  /-- The child at which the container is left is the last one. -/
  onwards : ∀ w ∈ v.inner.dropLast, w.leaves v.node.length = false
  /-- In a container that is not left by a step-out all children are visited. -/
  through : v.isEntered → v.isLeft = false →
    v.inner.length = (v.node.value root).bare.children.length

namespace Extractor

variable {x : Extractor σ ε} {base n : Nat} {root : Value} {c : Cursor}

/-- Candidates stand in a container exactly if some components of a path, but not all, lead there.
-/
theorem standing_ne_nil {t : Trail} : x.standing root t ≠ [] ↔
    ∃ r ∈ x.registrations, ∃ m < r.path.length, r.path.reaches x.options root m t := by
  rw [standing, ne_eq, List.flatMap_eq_nil_iff]
  constructor
  · intro h
    by_contra hnone
    refine h fun e he => List.map_eq_nil_iff.mpr (List.filter_eq_nil_iff.mpr fun m hm hreach => ?_)
    rw [List.mem_reverse, List.mem_range] at hm
    exact hnone ⟨e.1, List.fst_mem_of_mem_zipIdx he, m, hm, hreach⟩
  · rintro ⟨r, hr, m, hm, hreach⟩ h
    obtain ⟨i, hi⟩ := List.mem_iff_getElem?.mp hr
    have hnil := List.map_eq_nil_iff.mp (h (r, i) (List.mk_mem_zipIdx_iff_getElem?.mpr hi))
    have hmem : m ∈ r.path.stages x.options root t :=
      List.mem_filter.mpr ⟨List.mem_reverse.mpr (List.mem_range.mpr hm), hreach⟩
    exact List.ne_nil_of_mem hmem hnil

theorem seeds_ne_nil : x.seeds ≠ [] ↔ ∃ r ∈ x.registrations, 0 < r.path.length := by
  rw [seeds, ne_eq, List.map_eq_nil_iff, List.filter_eq_nil_iff]
  constructor
  · intro h
    by_contra hnone
    refine h fun e he hlen => hnone ⟨e.1, List.fst_mem_of_mem_zipIdx he, ?_⟩
    exact Nat.pos_of_ne_zero (of_decide_eq_true hlen)
  · rintro ⟨r, hr, hlen⟩ h
    obtain ⟨i, hi⟩ := List.mem_iff_getElem?.mp hr
    exact h (r, i) (List.mk_mem_zipIdx_iff_getElem?.mpr hi) (decide_eq_true (by omega))

/-- A container is entered if something below it matters. -/
theorem enters_iff {t : Trail} : x.enters root t ↔ x.Matters root t := by
  have henters : x.enters root t ↔
      x.standing root t ≠ [] ∨ (x.options.relative = true ∧ x.seeds ≠ []) := by
    simp [enters, entersAll]
  rw [henters, standing_ne_nil, seeds_ne_nil, Matters]
  by_cases hrel : x.options.relative
  · rw [if_pos hrel]
    constructor
    · rintro (⟨r, hr, m, hm, -⟩ | ⟨-, h⟩)
      · exact ⟨r, hr, Nat.zero_lt_of_lt hm⟩
      · exact h
    · exact fun h => .inr ⟨hrel, h⟩
  · rw [if_neg hrel]
    constructor
    · rintro (⟨r, hr, m, hm, hreach⟩ | ⟨h, -⟩)
      · -- In absolute mode as many components have been matched as there are steps.
        have hlen := hreach
        simp only [SearchPath.reaches, hrel, Bool.and_eq_true] at hlen
        obtain rfl : m = t.length := by simpa using hlen.1.1
        exact ⟨r, hr, hm, hreach⟩
      · exact absurd h hrel
    · rintro ⟨r, hr, hm, hreach⟩
      exact .inl ⟨r, hr, _, hm, hreach⟩

theorem not_matters {t : Trail} {v : Value}
    (hin : (v.bare.isContainer && x.logged.enters root t) = false) (hcon : v.bare.isContainer) :
    ¬x.Matters root t := by
  rw [← enters_iff, ← enters_logged]
  intro henters
  rw [hcon, henters] at hin
  exact Bool.noConfusion hin

/-- Calls that are accepted lead on, one after another. -/
theorem course_callAll {es : List (Registration σ ε × Nat)} {s s' : Session (σ × List Call)}
    (h : exec (callAll base (es.map fun e => e.1.logged e.2)) s = (.ok n, s')) :
    ∃ K : List Call, s'.state.2 = s.state.2 ++ K ∧ Course (K.map .call) s.track s'.track := by
  induction es generalizing s n with
  | nil =>
    obtain ⟨-, rfl⟩ := Prod.mk.inj h
    exact ⟨[], (List.append_nil _).symm, .nil _⟩
  | cons e es ih =>
    rw [List.map_cons, callAll, exec_bind_eq_ok] at h
    obtain ⟨m, s₁, hinvoke, h⟩ := h
    rw [exec_bind_eq_ok] at h
    obtain ⟨m', s₂, hrest, h⟩ := h
    obtain ⟨-, rfl⟩ := Prod.mk.inj h
    obtain ⟨v, hcall, -⟩ := (Registration.exec_invoke_eq_ok base).mp hinvoke
    rw [Registration.exec_logged] at hcall
    obtain ⟨-, rfl⟩ := Prod.mk.inj hcall
    obtain ⟨K, hlog, hcourse⟩ := ih hrest
    refine ⟨e.1.call e.2 s.forget :: K, ?_, .cons ⟨rfl, rfl⟩ hcourse⟩
    rw [hlog]
    exact List.append_assoc _ _ _

end Extractor

namespace Visit

variable {x : Extractor σ ε} {c : Cursor} {root v : Value} {t : Trail} {i m n : Nat} {p : Position}
  {es : List (Position × Value)} {K : List Call} {V : Visit} {vs ws : List Visit} {left : Bool}

theorem partsAll_eq (vs : List Visit) : partsAll vs = vs.flatMap parts := by
  induction vs with
  | nil => rfl
  | cons v vs ih => rw [partsAll, ih, List.flatMap_cons]

theorem leaves_pass (t : Trail) (K : List Call) (depth : Nat) :
    (pass t K).leaves depth = decide (t.length ≤ depth + greatest (K.map Call.count)) :=
  Bool.or_false _

theorem leaves_enter {depth : Nat} (hK : greatest (K.map Call.count) = 0) (hlt : depth < t.length) :
    (enter t K vs).leaves depth = vs.any (leaves · depth) := by
  have hself : decide (t.length ≤ depth + greatest (K.map Call.count)) = false :=
    decide_eq_false (by omega)
  show (_ || (partsAll vs).any _) = _
  rw [partsAll_eq, List.any_flatMap]
  show (decide (t.length ≤ depth + greatest (K.map Call.count)) || _) = _
  rw [hself, Bool.false_or]
  rfl

structure Fits (x : Extractor σ ε) (c : Cursor) (root : Value) (u : Trail) (V : Visit) : Prop where
  node : V.node = u
  sublist : (V.parts.map Visit.node).Sublist (u :: u.forest 0 (u.value root).bare.children)
  right : ∀ w ∈ V.parts, w.Right x c root

/-- These are the visits to the children of the node at `t` from the `i`-th one on. In the end the
container is left by a step-out or not, and with it `n` containers around it. -/
structure Row (x : Extractor σ ε) (c : Cursor) (root : Value) (t : Trail) (i : Nat)
    (es : List (Position × Value)) (left : Bool) (n : Nat) (vs : List Visit) : Prop where
  nodes : vs.map node = (t.below i es).take vs.length
  sublist : ((partsAll vs).map node).Sublist (t.forest i es)
  right : ∀ w ∈ partsAll vs, w.Right x c root
  leaves : ∀ depth ≤ t.length,
    vs.any (leaves · depth) = (left && decide (t.length ≤ depth + n))
  onwards : ∀ w ∈ vs.dropLast, w.leaves t.length = false
  through : left = false → vs.length = es.length ∧ n = 0

theorem Row.nil : Row x c root t i [] false 0 [] where
  nodes := rfl
  sublist := by rw [Trail.forest]; exact .slnil
  right _ hw := absurd hw List.not_mem_nil
  leaves _ _ := rfl
  onwards _ hw := absurd hw List.not_mem_nil
  through _ := ⟨rfl, rfl⟩

/-- At a child the container is left. -/
theorem Row.last (h : Fits x c root (⟨i, p, v⟩ :: t) V)
    (hleaves : ∀ depth ≤ t.length, V.leaves depth = decide (t.length ≤ depth + n)) :
    Row x c root t i ((p, v) :: es) true n [V] where
  nodes := congrArg ([·]) h.node
  sublist := by
    rw [partsAll, partsAll, List.append_nil, Trail.forest]
    exact h.sublist.trans ((List.sublist_append_left _ _).cons_cons _)
  right := by
    rw [partsAll, partsAll, List.append_nil]
    exact h.right
  leaves depth hdepth := by
    rw [List.any_cons, List.any_nil, Bool.or_false, hleaves depth hdepth, Bool.true_and]
  onwards _ hw := absurd hw List.not_mem_nil
  through h := Bool.noConfusion h

/-- At a child no container around it is left. -/
theorem Row.cons (h : Fits x c root (⟨i, p, v⟩ :: t) V)
    (hleaves : ∀ depth ≤ t.length, V.leaves depth = false)
    (hvs : Row x c root t (i + 1) es left n vs) :
    Row x c root t i ((p, v) :: es) left n (V :: vs) where
  nodes := by
    rw [List.map_cons, h.node, hvs.nodes, Trail.below, List.length_cons, List.take_succ_cons]
  sublist := by
    rw [partsAll, List.map_append, Trail.forest, ← List.cons_append]
    exact h.sublist.append hvs.sublist
  right w hw := by
    rw [partsAll, List.mem_append] at hw
    exact hw.elim (h.right w) (hvs.right w)
  leaves depth hdepth := by
    rw [List.any_cons, hleaves depth hdepth, Bool.false_or, hvs.leaves depth hdepth]
  onwards w hw := by
    cases vs with
    | nil => exact absurd hw List.not_mem_nil
    | cons w' ws =>
      rw [List.dropLast_cons_cons, List.mem_cons] at hw
      rcases hw with rfl | hw
      · exact hleaves _ le_rfl
      · exact hvs.onwards w hw
  through hleft := by
    obtain ⟨hlength, hn⟩ := hvs.through hleft
    exact ⟨by rw [List.length_cons, List.length_cons, hlength], hn⟩

theorem fits_pass (h : Extractor.Sweeps.At x c root t K) (hpass : ¬((t.value root).bare.isContainer ∧
    greatest (K.map Call.count) = 0 ∧ x.Matters root t)) : Fits x c root t (pass t K) where
  node := rfl
  sublist := (List.nil_sublist _).cons_cons t
  right w hw := by
    obtain rfl := List.mem_singleton.mp hw
    exact {
      sites := h
      enters := iff_of_false Bool.false_ne_true hpass
      children := rfl
      onwards := fun _ hw => absurd hw List.not_mem_nil
      through := fun h => absurd h Bool.false_ne_true }

theorem Row.any_leaves (hvs : Row x c root t i es left n vs) :
    vs.any (Visit.leaves · t.length) = left := by
  rw [hvs.leaves _ le_rfl, decide_eq_true (Nat.le_add_right _ _), Bool.and_true]

theorem fits_enter (h : Extractor.Sweeps.At x c root t K) (hin : (t.value root).bare.isContainer)
    (hK : greatest (K.map Call.count) = 0) (hmatters : x.Matters root t)
    (hvs : Row x c root t 0 (t.value root).bare.children left n vs) :
    Fits x c root t (enter t K vs) where
  node := rfl
  sublist := hvs.sublist.cons_cons t
  right w hw := by
    rcases List.mem_cons.mp hw with rfl | hw
    · exact {
        sites := h
        enters := iff_of_true rfl ⟨hin, hK, hmatters⟩
        children := hvs.nodes
        onwards := hvs.onwards
        through := fun _ hleft => (hvs.through (hvs.any_leaves.symm.trans hleft)).1 }
    · exact hvs.right w hw

theorem leaves_pass_of_zero {e : Step} {depth : Nat} (hK : greatest (K.map Call.count) = 0)
    (hdepth : depth ≤ t.length) : (pass (e :: t) K).leaves depth = false := by
  rw [leaves_pass, hK, List.length_cons]
  exact decide_eq_false (by omega)

theorem leaves_pass_of_pos {e : Step} {depth : Nat} (hK : 0 < greatest (K.map Call.count)) :
    (pass (e :: t) K).leaves depth =
      decide (t.length ≤ depth + (greatest (K.map Call.count) - 1)) := by
  rw [leaves_pass, List.length_cons]
  exact decide_eq_decide.mpr (by omega)

namespace Row

variable {e : Step} {depth : Nat}

theorem leaves_enter (h : Row x c root (e :: t) i es left m vs)
    (hK : greatest (K.map Call.count) = 0) (hdepth : depth ≤ t.length) :
    (enter (e :: t) K vs).leaves depth = (left && decide (t.length + 1 ≤ depth + m)) := by
  rw [Visit.leaves_enter hK (Nat.lt_succ_of_le hdepth)]
  exact h.leaves depth (Nat.le_succ_of_le hdepth)

theorem leaves_enter_of_zero (h : Row x c root (e :: t) i es left 0 vs)
    (hK : greatest (K.map Call.count) = 0) (hdepth : depth ≤ t.length) :
    (enter (e :: t) K vs).leaves depth = false := by
  rw [h.leaves_enter hK hdepth, decide_eq_false (by omega), Bool.and_false]

theorem leaves_enter_of_pos (h : Row x c root (e :: t) i es left m vs)
    (hK : greatest (K.map Call.count) = 0) (hm : 0 < m) (hdepth : depth ≤ t.length) :
    (enter (e :: t) K vs).leaves depth = decide (t.length ≤ depth + (m - 1)) := by
  have hleft : left = true := by
    by_contra hleft
    exact Nat.ne_of_gt hm (h.through (Bool.eq_false_iff.mpr hleft)).2
  rw [h.leaves_enter hK hdepth, hleft, Bool.true_and]
  exact decide_eq_decide.mpr (by omega)

end Row

end Visit

namespace Extractor

variable {x : Extractor σ ε} {n : Nat} {root : Value} {c : Cursor}

/-- The calls at a node, and how they lead on. -/
theorem exec_calls_at {es : List (Registration σ ε × Nat)} (hes : ∀ e ∈ es, e.1.Obedient c.depth)
    (s : Session (σ × List Call)) :
    ∃ (K : List Call) (s' : Session (σ × List Call)),
      exec (callAll c.depth (es.map fun e => e.1.logged e.2)) s =
        (.ok (greatest (K.map Call.count)), s') ∧
      s'.cursor = s.cursor ∧ s'.state.2 = s.state.2 ++ K ∧
      K.map Call.site = es.map (fun e => (e.2, s.cursor)) ∧
      greatest (K.map Call.count) ≤ s.cursor.depth - c.depth ∧
      Course (K.map .call) s.track s'.track := by
  obtain ⟨K, s', hcall, hsame, hlog, hsite, hmax⟩ := exec_callAll_logged hes s
  obtain ⟨K', hlog', hcourse⟩ := course_callAll hcall
  obtain rfl : K = K' := List.append_cancel_left (hlog.symm.trans hlog')
  exact ⟨K, s', hcall, hsame.cursor, hlog, hsite, hmax, hcourse⟩

/-- A container is entered, its children are visited, and it is left again. -/
theorem course_enter (ls : List Leg) {t : Trail} {K : List Call} {vs : List Visit} {left : Bool}
    {a : Track} {s s' : Session (σ × List Call)} {d e : Cursor}
    (hleft : vs.any (Visit.leaves · t.length) = left)
    (hcalls : Course (ls ++ K.map .call) a s.track) (hin : s.cursor.stepIn = .ok d)
    (hvs : Course (Visit.legsAll vs ++ Visit.ending left) (moved s .stepIn d).track s'.track)
    (hout : s'.cursor.stepOut = .ok e) :
    Course (ls ++ (Visit.enter t K vs).legs) a (moved s' .stepOut e).track := by
  have hinner : Course (.stepIn :: (Visit.legsAll vs ++ Visit.ending left ++ [.stepOut])) s.track
      (moved s' .stepOut e).track :=
    .cons (b := (moved s .stepIn d).track) ⟨hin, rfl⟩ (hvs.append (.single ⟨hout, rfl⟩))
  have hall := hcalls.append hinner
  rwa [Visit.legs, hleft, ← List.append_assoc]

/-- By these legs and then these calls a session has come to the node at `u`, where the walk has not
gone on yet. -/
structure Arrived (x : Extractor σ ε) (c : Cursor) (root : Value) (u : Trail) (ls : List Leg)
    (K : List Call) (a b : Session (σ × List Call)) : Prop where
  cursor : b.cursor = c.along root u
  account : b.state.2 = a.state.2 ++ K
  course : Course (ls ++ K.map .call) a.track b.track
  sites : Sweeps.At x c root u K

structure Visited (x : Extractor σ ε) (c : Cursor) (root : Value) (u : Trail) (ls : List Leg)
    (V : Visit) (a b : Session (σ × List Call)) : Prop where
  account : b.state.2 = a.state.2 ++ V.parts.flatMap Visit.calls
  course : Course (ls ++ V.legs) a.track b.track
  fits : Visit.Fits x c root u V

structure Toured (x : Extractor σ ε) (c : Cursor) (root : Value) (t : Trail) (i : Nat)
    (es : List (Position × Value)) (left : Bool) (n : Nat) (vs : List Visit)
    (a b : Session (σ × List Call)) : Prop where
  account : b.state.2 = a.state.2 ++ (Visit.partsAll vs).flatMap Visit.calls
  course : Course (Visit.legsAll vs ++ Visit.ending left) a.track b.track
  row : Visit.Row x c root t i es left n vs

section Sessions

variable {t u : Trail} {i m : Nat} {p : Position} {v : Value} {es : List (Position × Value)}
  {left : Bool} {vs : List Visit} {ls : List Leg} {K : List Call} {V : Visit}
  {s a b d : Session (σ × List Call)}

theorem Arrived.log (h : Arrived x c root u ls K a b) (e : Event) :
    Arrived x c root u ls K a { b with events := e :: b.events } :=
  ⟨h.cursor, h.account, h.course, h.sites⟩

theorem Arrived.pass (h : Arrived x c root u ls K a b)
    (hpass : ¬((u.value root).bare.isContainer ∧ greatest (K.map Call.count) = 0 ∧
      x.Matters root u)) : Visited x c root u ls (.pass u K) a b where
  account := by
    rw [h.account]
    exact congrArg (a.state.2 ++ ·) (List.append_nil _).symm
  course := h.course
  fits := Visit.fits_pass h.sites hpass

theorem Arrived.enter (h : Arrived x c root u ls K a b) (hin : (u.value root).bare.isContainer)
    (hK : greatest (K.map Call.count) = 0) (hmatters : x.Matters root u) {f e : Cursor}
    (hstep : b.cursor.stepIn = .ok f)
    (hvs : Toured x c root u 0 (u.value root).bare.children left n vs (moved b .stepIn f) d)
    (hout : d.cursor.stepOut = .ok e) :
    Visited x c root u ls (.enter u K vs) a (moved d .stepOut e) where
  account := by
    rw [state_moved, hvs.account, state_moved, h.account, List.append_assoc, Visit.parts,
      List.flatMap_cons]
    rfl
  course := course_enter ls hvs.row.any_leaves h.course hstep hvs.course hout
  fits := Visit.fits_enter h.sites hin hK hmatters hvs.row

/-- The walk ends at a child. -/
theorem Visited.last (h : Visited x c root (⟨i, p, v⟩ :: t) [.next true] V a b)
    (hleaves : ∀ depth ≤ t.length, V.leaves depth = decide (t.length ≤ depth + n)) :
    Toured x c root t i ((p, v) :: es) true n [V] a b where
  account := by rw [h.account, Visit.partsAll, Visit.partsAll, List.append_nil]
  course := by
    rw [Visit.legsAll, Visit.legsAll, List.append_nil, Visit.ending, if_pos rfl, List.append_nil]
    exact h.course
  row := .last h.fits hleaves

/-- The walk goes on to the next child. -/
theorem Visited.cons (h : Visited x c root (⟨i, p, v⟩ :: t) [.next true] V a b)
    (hleaves : ∀ depth ≤ t.length, V.leaves depth = false)
    (hrest : Toured x c root t (i + 1) es left n vs b d) :
    Toured x c root t i ((p, v) :: es) left n (V :: vs) a d where
  account := by
    rw [hrest.account, h.account, List.append_assoc, Visit.partsAll, List.flatMap_append]
  course := by
    have hall := h.course.append hrest.course
    rwa [List.append_assoc, ← List.append_assoc V.legs] at hall
  row := .cons h.fits hleaves hrest.row

theorem toured_nil (hs : s.cursor = (c.along root t).inside (t.value root) i)
    (hes : (t.value root).bare.children.drop i = []) :
    Toured x c root t i [] false 0 [] s (moved s .next s.cursor.next) where
  account := (List.append_nil _).symm
  course := by
    have hend : s.cursor.next.isInside = false := by
      rw [hs]
      exact Cursor.next_inside_last (List.drop_eq_nil_iff.mp hes)
    exact .single ⟨rfl, hend, rfl⟩
  row := .nil

/-- The walk goes to the next child, and the callbacks are called there. -/
theorem exec_arrive (hx : ∀ r ∈ x.registrations, r.Obedient c.depth)
    (hs : s.cursor = (c.along root t).inside (t.value root) i)
    (hi : (t.value root).bare.children[i]? = some (p, v)) : ∃ K s₂,
      exec (callAll c.depth (x.logged.selecting root (⟨i, p, v⟩ :: t)))
          (moved s .next s.cursor.next) = (.ok (greatest (K.map Call.count)), s₂) ∧
        Arrived x c root (⟨i, p, v⟩ :: t) [.next true] K s s₂ := by
  have hnext : s.cursor.next = c.along root (⟨i, p, v⟩ :: t) := by
    rw [hs, Cursor.next_inside hi]
    rfl
  have hinside : s.cursor.next.isInside := by
    rw [hs, Cursor.next_inside hi]
    exact Cursor.isInside_inside hi
  obtain ⟨K, s₂, hcall, hcursor, hlog, hsite, -, hcourse⟩ :=
    exec_calls_at (Obedient.selected hx root (⟨i, p, v⟩ :: t)) (moved s .next s.cursor.next)
  refine ⟨K, s₂, by rw [selecting_logged, hcall], hcursor.trans hnext, hlog, ?_, ?_⟩
  · exact .cons ⟨rfl, hinside, rfl⟩ hcourse
  · rw [Sweeps.At, hsite, chosen, cursor_moved, hnext, List.map_map]
    rfl

/-- A tour of the children of a node is a row of visits to them. -/
theorem exec_tour_visits (hx : ∀ r ∈ x.registrations, r.Obedient c.depth)
    (hs : s.cursor = (c.along root t).inside (t.value root) i)
    (hes : (t.value root).bare.children.drop i = es) (hfin : (t.value root).isFinite) :
    ∃ n s' left vs, exec (x.logged.tour c.depth root t i es) s = (.ok n, s') ∧
      Toured x c root t i es left n vs s s' := by
  fun_induction tour x.logged c.depth root t i es generalizing s with
  | case1 t i => exact ⟨0, _, false, [], exec_bind_ok (exec_next s), toured_nil hs hes⟩
  | case2 t i p v es ihv ihes =>
    obtain ⟨hi, hd⟩ := Trail.getElem?_of_drop hes
    have hv : v.isFinite := Value.isFinite_of_mem_children hfin (List.mem_of_getElem? hi)
    obtain ⟨K, s₂, hcall, harrived⟩ := exec_arrive hx hs hi
    rw [exec_bind_ok (exec_next s), exec_bind_ok hcall]
    -- The row ends with the child if containers are left at it or below it, and goes on otherwise.
    rcases Nat.eq_zero_or_pos (greatest (K.map Call.count)) with hzero | hpos
    · rw [if_neg (by omega)]
      cases hin : v.bare.isContainer && x.logged.enters root (⟨i, p, v⟩ :: t) with
      | false =>
        obtain ⟨n, s', left, vs, hrest, htoured⟩ := ihes harrived.cursor hd hfin
        have hpass := harrived.pass fun hlegs => not_matters hin hlegs.1 hlegs.2.2
        exact ⟨n, s', left, _ :: vs, hrest,
          hpass.cons (fun depth => Visit.leaves_pass_of_zero hzero) htoured⟩
      | true =>
        obtain ⟨hcon, henters⟩ := Bool.and_eq_true_iff.mp hin
        rw [enters_logged] at henters
        have hstep : s₂.cursor.stepIn = .ok ((c.along root (⟨i, p, v⟩ :: t)).inside v 0) := by
          rw [harrived.cursor]
          exact Cursor.stepIn_of_current? (Cursor.current?_inside hi) hcon hv
        obtain ⟨m, s₃, left₁, vs₁, hvs₁, htoured₁⟩ :=
          ihv (s := moved s₂ .stepIn ((c.along root (⟨i, p, v⟩ :: t)).inside v 0)) rfl rfl hv
        have hsteady : x.Steady := fun r hr => (hx r hr).steady
        have hout : s₃.cursor.stepOut = .ok (c.along root (⟨i, p, v⟩ :: t)) :=
          Cursor.stepOut_of_outer (tour_outer hsteady.logged hvs₁).1
        have henter := harrived.enter hcon hzero (enters_iff.mp henters) hstep htoured₁ hout
        rw [if_pos rfl, exec_bind_ok (exec_stepIn hstep), exec_bind_ok hvs₁,
          exec_bind_ok (exec_stepOut hout)]
        rcases Nat.eq_zero_or_pos m with rfl | hmpos
        · rw [if_neg (by omega)]
          obtain ⟨n, s', left, vs, hrest, htoured⟩ :=
            ihes (s := moved s₃ .stepOut (c.along root (⟨i, p, v⟩ :: t))) rfl hd hfin
          exact ⟨n, s', left, _ :: vs, hrest,
            henter.cons (fun depth => htoured₁.row.leaves_enter_of_zero hzero) htoured⟩
        · rw [if_pos hmpos]
          exact ⟨_, _, true, _, rfl,
            henter.last fun depth => htoured₁.row.leaves_enter_of_pos hzero hmpos⟩
    · rw [if_pos hpos, exec_bind_ok (exec_log _ _)]
      have hpass (e : Event) := (harrived.log e).pass fun hlegs => Nat.ne_of_gt hpos hlegs.2.1
      exact ⟨_, _, true, _, rfl, (hpass _).last fun depth _ => Visit.leaves_pass_of_pos hpos⟩

end Sessions

/-- A tour of the value under the cursor and of all below it is one visit. -/
theorem exec_tourAll_visits {s : Session (σ × List Call)}
    (hx : ∀ r ∈ x.registrations, r.Obedient s.cursor.depth) (hs : s.cursor.current? = some root)
    (hfin : root.isFinite) :
    ∃ (s' : Session (σ × List Call)) (V : Visit),
      exec (x.logged.tourAll s.cursor.depth root) s = (.ok (), s') ∧
        Visited x s.cursor root [] [] V s s' := by
  obtain ⟨K, s₁, hcall, hcursor, hlog, hsite, hmax, hcourse⟩ :=
    exec_calls_at (Obedient.selected hx root []) s
  have hsites : Sweeps.At x s.cursor root [] K := by
    rw [Sweeps.At, hsite, chosen, List.map_map]
    rfl
  have harrived : Arrived x s.cursor root [] [] K s s₁ := ⟨hcursor, hlog, hcourse, hsites⟩
  have hzero : greatest (K.map Call.count) = 0 := by omega
  rw [tourAll, selecting_logged, exec_bind_ok hcall]
  cases hin : root.bare.isContainer && x.logged.enters root [] with
  | false =>
    exact ⟨s₁, _, rfl, harrived.pass fun hlegs => not_matters hin hlegs.1 hlegs.2.2⟩
  | true =>
    obtain ⟨hcon, henters⟩ := Bool.and_eq_true_iff.mp hin
    rw [enters_logged] at henters
    have hstep : s₁.cursor.stepIn = .ok (s.cursor.inside root 0) := by
      rw [hcursor]
      exact Cursor.stepIn_of_current? hs hcon hfin
    obtain ⟨n, s₂, left, vs, hvs, htoured⟩ :=
      exec_tour_visits (t := []) (i := 0) hx (s := moved s₁ .stepIn (s.cursor.inside root 0))
        rfl rfl hfin
    have hsteady : x.Steady := fun r hr => (hx r hr).steady
    have hout : s₂.cursor.stepOut = .ok s.cursor :=
      Cursor.stepOut_of_outer (tour_outer hsteady.logged hvs).1
    refine ⟨moved s₂ .stepOut s.cursor, _, ?_,
      harrived.enter hcon hzero (enters_iff.mp henters) hstep htoured hout⟩
    rw [if_pos rfl, exec_bind_ok (exec_stepIn hstep)]
    exact (exec_bind_ok hvs).trans (exec_stepOut hout)

theorem matters_tamed (x : Extractor σ ε) (base : Nat) : (x.tamed base).Matters = x.Matters := by
  funext root t
  have hpaths (P : SearchPath → Prop) : (∃ r ∈ (x.tamed base).registrations, P r.path) ↔
      ∃ r ∈ x.registrations, P r.path := by
    constructor
    · rintro ⟨r, hr, h⟩
      obtain ⟨e, he, rfl⟩ := List.mem_map.mp hr
      exact ⟨e.1, List.fst_mem_of_mem_zipIdx he, h⟩
    · rintro ⟨r, hr, h⟩
      obtain ⟨i, hi⟩ := List.mem_iff_getElem?.mp hr
      exact ⟨r.tamed base,
        List.mem_map.mpr ⟨(r, i), List.mk_mem_zipIdx_iff_getElem?.mpr hi, rfl⟩, h⟩
  have hrelative : (x.tamed base).options = x.options := rfl
  rw [Matters, Matters, hrelative, hpaths fun p => 0 < p.length,
    hpaths fun p => t.length < p.length ∧ p.reaches x.options root t.length t]

/-- A run whose callbacks leave the cursor alone and ask to leave no more containers than there are
is a visit to the root. It passes over no node twice, goes into exactly those containers on its way
below which a path may select something, unless a callback asks to leave them, and makes no moves
but those of its visits. -/
theorem run_visits {s : Session σ} (hs : s.cursor.current? = some root) (hfin : root.isFinite)
    (hstart : s.cursor.depth = 0 ∨ x.options.relative)
    (hlegal : ∀ k ∈ x.calls s, k.Legal s.cursor.depth) :
    ∃ V : Visit, V.node = [] ∧ (∀ w ∈ V.parts, w.Right x s.cursor root) ∧
      (V.parts.map Visit.node).Sublist ([] :: root.preorder) ∧
      ((V.parts.map Visit.node).map Trail.address).Nodup ∧
      x.calls s = V.parts.flatMap Visit.calls ∧ (exec x.run s).1 = .ok () ∧
      Course V.legs s.track (exec x.run s).2.track := by
  obtain ⟨hcalls, hrun⟩ := x.calls_tamed hlegal
  let y := x.tamed s.cursor.depth
  have hy : ∀ r ∈ y.registrations, r.Obedient s.cursor.depth := by
    intro r hr
    obtain ⟨e, -, rfl⟩ := List.mem_map.mp hr
    exact Registration.obedient_tamed _ _
  have hsteady : y.Steady := fun r hr => (hy r hr).steady
  obtain ⟨s', V, htour, hlog, hcourse, hfits⟩ :=
    exec_tourAll_visits (s := s.withState (s.state, [])) hy hs hfin
  have htour : exec y.logged.run (s.withState (s.state, [])) = (.ok (), s') :=
    (run_eq_tour hsteady.logged hs hfin hstart).trans htour
  have hmade : y.calls s = V.parts.flatMap Visit.calls := by
    rw [calls, htour, hlog, Session.withState, List.nil_append]
  rw [exec_run_logged, hrun] at htour
  obtain ⟨hok, rfl⟩ := Prod.mk.inj htour
  have hsublist : (V.parts.map Visit.node).Sublist ([] :: root.preorder) := hfits.sublist
  refine ⟨V, hfits.node, fun w hw => ?_, hsublist,
    root.nodup_addresses_nodes.sublist (hsublist.map _), hcalls.symm.trans hmade, hok, hcourse⟩
  have hright := hfits.right w hw
  exact { hright with
    sites := by rw [← chosen_tamed x s.cursor.depth]; exact hright.sites
    enters := by rw [← matters_tamed x s.cursor.depth]; exact hright.enters }

/-- The same three paths in absolute mode. The callback that is called in the first list asks to
leave it, so that its second node is passed over by no move. -/
def Sample.absolute : Extractor Nat Empty :=
  { Sample.extractor fun n c => min n c.depth with options := {} }

theorem run_visits_sample :
    ((Cursor.ofRoot Sample.document).current? = some Sample.document ∧ Sample.document.isFinite ∧
      ∀ k ∈ Sample.absolute.calls (.start Sample.document true 0), k.Legal 0) ∧
    (∃ V : Visit, (V.parts.map Visit.node).Sublist ([] :: Sample.document.preorder) ∧
      Course V.legs (Session.start Sample.document true 0).track
        (exec Sample.absolute.run (.start Sample.document true 0)).2.track) ∧
    (exec Sample.absolute.run (.start Sample.document true 0)).2.moves.reverse =
      [.stepIn, .next, .stepIn, .next, .stepOut, .next, .stepIn, .next, .stepOut, .stepOut] := by
  have hlegal : ∀ k ∈ Sample.absolute.calls (.start Sample.document true 0), k.Legal 0 := by
    refine forall_mem_calls _ _ fun e he s => Registration.legal_call.mpr ?_
    change e ∈ (Sample.extractor fun n c => min n c.depth).registrations.zipIdx at he
    exact ⟨_, _, Sample.exec_callback e he s, ⟨rfl, rfl⟩, min_le_right _ _⟩
  obtain ⟨V, -, -, hsublist, -, -, -, hcourse⟩ := run_visits rfl rfl (.inl rfl) hlegal
  exact ⟨⟨rfl, rfl, hlegal⟩, ⟨V, hsublist, hcourse⟩, by decide +kernel⟩

end Extractor

end TreePaths
