import TreePaths.Proofs.Cursor
import TreePaths.Proofs.Extraction.Action
import TreePaths.Proofs.Extraction.Selection

/-!
A tour does what a walk does without candidates and without a bound on its steps: it goes through
the document, asks at each node which paths select it, and calls their callbacks. A walk over a
document whose callbacks leave the cursor alone is a tour.
-/

namespace TreePaths

open TreePaths.Action TreePaths.Effect

namespace Extractor

variable {σ ε : Type}

def callAll (base : Nat) : List (Registration σ ε) → Action σ ε Nat
  | [] => return 0
  | r :: rs => do
    let n ← r.invoke base
    let m ← callAll base rs
    return max n m

/-- Goes through the children of the container at the end of a trail, from the `i`-th one on. -/
def tour (x : Extractor σ ε) (base : Nat) (root : Value) (t : Trail) (i : Nat) :
    List (Position × Value) → Action σ ε Nat
  | [] => do
    let _ ← Action.next
    return 0
  | (p, v) :: es => do
    let _ ← Action.next
    let count ← callAll base (x.selecting root (⟨i, p, v⟩ :: t))
    if count > 0 then
      Action.log (.stepOut (t.length + 1) p (count - 1))
      return count - 1
    else if v.bare.isContainer && x.enters root (⟨i, p, v⟩ :: t) then
      Action.stepIn
      let count ← x.tour base root (⟨i, p, v⟩ :: t) 0 v.bare.children
      Action.stepOut
      if count > 0 then
        return count - 1
      else
        x.tour base root t (i + 1) es
    else
      x.tour base root t (i + 1) es
termination_by es => Value.weight es
decreasing_by
  all_goals
    have := Value.weight_children_lt v
    simp only [Value.weight_cons]
    omega

/-- A visit calls the callbacks of the paths that end at the child, and hands on the candidates that
go on. -/
theorem visit_eq (x : Extractor σ ε) (base : Nat) (s : Step) (cs : List (Candidate σ ε)) :
    x.visit base s.position s.value.annotations cs =
      (do
        let n ← callAll base ((x.ending s cs).map (·.registration))
        return (n, x.goingOn s cs)) := by
  induction cs with
  | nil => simp [visit, ending, goingOn, callAll]
  | cons c cs ih =>
    have hfit : (c.component?.any fun k =>
        k.accepts x.options.ignoreCase s.position s.value.annotations) =
        c.registration.path.goesOn x.options s c.matched := rfl
    rw [visit, ih, hfit]
    cases hgo : c.registration.path.goesOn x.options s c.matched with
    | false => simp [ending, goingOn, hgo]
    | true =>
      cases hend : c.isTerminal with
      | false => simp [ending, goingOn, hgo, hend]
      | true => simp [ending, goingOn, hgo, hend, callAll]

variable {x : Extractor σ ε} {base n : Nat} {s s' : Session σ}

def Steady (x : Extractor σ ε) : Prop :=
  ∀ r ∈ x.registrations, r.Steady

theorem callAll_sameCursor {rs : List (Registration σ ε)} (hrs : ∀ r ∈ rs, r.Steady)
    (h : exec (callAll base rs) s = (.ok n, s')) : s.SameCursor s' := by
  induction rs generalizing s n with
  | nil =>
    obtain ⟨-, rfl⟩ := Prod.mk.inj h
    exact ⟨rfl, rfl⟩
  | cons r rs ih =>
    simp only [callAll, exec_bind_eq_ok] at h
    obtain ⟨m, s₁, hr, k, s₂, hrest, h⟩ := h
    obtain ⟨-, rfl⟩ := Prod.mk.inj h
    have h₁ := (hrs r List.mem_cons_self).invoke base hr
    have h₂ := ih (fun q hq => hrs q (List.mem_cons_of_mem _ hq)) hrest
    exact ⟨h₂.cursor.trans h₁.cursor, h₂.indexed.trans h₁.indexed⟩

theorem Steady.selecting (hx : x.Steady) (root : Value) (t : Trail) :
    ∀ r ∈ x.selecting root t, r.Steady :=
  fun r hr => hx r (List.mem_filter.mp hr).1

/-- A tour over some children leaves the containers around them as they were. -/
theorem tour_outer (hx : x.Steady) {root : Value} {t : Trail} {i : Nat}
    {es : List (Position × Value)} (h : exec (x.tour base root t i es) s = (.ok n, s')) :
    s'.cursor.outer = s.cursor.outer ∧ s'.indexed = s.indexed := by
  fun_induction tour x base root t i es generalizing n s s' with
  | case1 =>
    rw [exec_bind_ok (exec_next s)] at h
    obtain ⟨-, rfl⟩ := Prod.mk.inj h
    exact ⟨rfl, rfl⟩
  | case2 t i p v es ihv ihes =>
    rw [exec_bind_ok (exec_next s), exec_bind_eq_ok] at h
    obtain ⟨count, s₁, hcall, h⟩ := h
    have hc := callAll_sameCursor (hx.selecting root _) hcall
    have hs₁ : s₁.cursor.outer = s.cursor.outer ∧ s₁.indexed = s.indexed := by
      rw [hc.cursor, hc.indexed]
      exact ⟨rfl, rfl⟩
    split at h
    · rw [exec_bind_ok (exec_log _ _)] at h
      obtain ⟨-, rfl⟩ := Prod.mk.inj h
      exact hs₁
    split at h
    · simp only [exec_bind_eq_ok] at h
      obtain ⟨_, s₂, hin, m, s₃, htour, _, s₄, hout, h⟩ := h
      obtain ⟨d, hd, rfl⟩ := stepIn_of_exec hin
      obtain ⟨ho, hi⟩ := ihv htour
      rw [exec_stepOut (Cursor.stepOut_of_stepIn hd ho)] at hout
      obtain ⟨-, rfl⟩ := Prod.mk.inj hout
      have hs₄ : s₃.indexed = s.indexed := hi.trans hs₁.2
      split at h
      · obtain ⟨-, rfl⟩ := Prod.mk.inj h
        exact ⟨hs₁.1, hs₄⟩
      · obtain ⟨ho', hi'⟩ := ihes h
        exact ⟨ho'.trans hs₁.1, hi'.trans hs₄⟩
    · obtain ⟨ho', hi'⟩ := ihes h
      exact ⟨ho'.trans hs₁.1, hi'.trans hs₁.2⟩

/-- Going through a container and then on behind it does the same as elsewhere, if both parts do. -/
theorem exec_descend_congr {a b k l : Action σ ε Nat} {s : Session σ} {d e : Cursor}
    (hin : s.cursor.stepIn = .ok d)
    (hab : exec a (moved s .stepIn d) = exec b (moved s .stepIn d))
    (hout : ∀ m s', exec b (moved s .stepIn d) = (.ok m, s') → s'.cursor.stepOut = .ok e)
    (hkl : ∀ s' : Session σ, s'.cursor = e → exec k s' = exec l s') :
    exec (do
        stepIn
        let m ← a
        stepOut
        if m > 0 then return m - 1 else k) s =
      exec (do
        stepIn
        let m ← b
        stepOut
        if m > 0 then return m - 1 else l) s := by
  rw [exec_bind_ok (exec_stepIn hin), exec_bind_ok (exec_stepIn hin)]
  refine exec_bind_congr hab fun m s' hb => ?_
  have hout := hout m s' hb
  rw [exec_bind_ok (exec_stepOut hout), exec_bind_ok (exec_stepOut hout)]
  by_cases hm : m > 0
  · rw [if_pos hm, if_pos hm]
  · rw [if_neg hm, if_neg hm]
    exact hkl _ rfl

/-- What the walk asks of a child's position, annotations and content is what the document says. -/
theorem walk_eq_tour (hx : x.Steady) {c : Cursor} {root : Value} {t : Trail} {i fuel : Nat}
    {es : List (Position × Value)} (hs : s.cursor = c.inside (t.value root) i)
    (hdepth : c.depth = base + t.length) (hes : (t.value root).bare.children.drop i = es)
    (hfin : (t.value root).isFinite) (hfuel : Value.weight es < fuel) :
    exec (x.walk base fuel (x.standing root t)) s = exec (x.tour base root t i es) s := by
  -- What carries it: the cursor is before child `i` of the node at `t`, and the candidates that the
  -- walk holds are those that stand there.
  fun_induction tour x base root t i es generalizing c fuel s with
  | case1 t i =>
    obtain ⟨fuel, rfl⟩ := Nat.exists_eq_add_one_of_ne_zero (Nat.ne_of_gt hfuel)
    have hend : s.cursor.next.isInside = false := by
      rw [hs]
      exact Cursor.next_inside_last (List.drop_eq_nil_iff.mp hes)
    rw [walk, exec_bind_ok (exec_next s), exec_bind_ok (exec_next s), hend]
    simp
  | case2 t i p v es ihv ihes =>
    obtain ⟨fuel, rfl⟩ := Nat.exists_eq_add_one_of_ne_zero (Nat.ne_of_gt (Nat.zero_lt_of_lt hfuel))
    obtain ⟨hi, hd⟩ := Trail.getElem?_of_drop hes
    have hv : v.isFinite := Value.isFinite_of_mem_children hfin (List.mem_of_getElem? hi)
    have hw := Value.weight_children_lt v
    have hfuel : v.nodes + Value.weight es < fuel + 1 := by simpa using hfuel
    have hnext : s.cursor.next = c.inside (t.value root) (i + 1) := by
      rw [hs, Cursor.next_inside hi]
    have hcur := Cursor.current?_inside (c := c) hi
    rw [walk, exec_bind_ok (exec_next s), exec_bind_ok (exec_next s), hnext,
      Cursor.isInside_inside hi]
    simp only [Bool.not_true, Bool.false_eq_true, if_false]
    rw [exec_bind_ok (exec_look _ _), exec_bind_ok (exec_look _ _), cursor_moved,
      Cursor.position_inside hi, Cursor.annotations_of_current? hcur]
    have hvisit := x.visit_eq base ⟨i, p, v⟩ (x.standing root t)
    rw [x.ending_standing] at hvisit
    rw [hvisit, bind_assoc]
    apply exec_bind_congr rfl
    intro count s₂ hcall
    have hs₂ : s₂.cursor = c.inside (t.value root) (i + 1) :=
      (callAll_sameCursor (hx.selecting root _) hcall).cursor
    have hd₂ : s₂.cursor.depth - base = t.length + 1 := by
      rw [hs₂, Cursor.depth_inside]
      omega
    rw [pure_bind]
    dsimp only
    by_cases hcount : count > 0
    · rw [if_pos hcount, if_pos hcount, exec_bind_ok (exec_look _ _), hd₂]
    rw [if_neg hcount, if_neg hcount, exec_bind_ok (exec_look _ _), hs₂,
      Cursor.isContainer_of_current? hcur]
    cases hcon : v.bare.isContainer with
    | false => exact ihes hs₂ hdepth hd hfin (by omega)
    | true =>
      rw [x.below_standing root ⟨i, p, v⟩ t, x.not_enters]
      cases x.enters root (⟨i, p, v⟩ :: t) with
      | false => exact ihes hs₂ hdepth hd hfin (by omega)
      | true =>
        simp only [Bool.not_true, Bool.false_eq_true, Bool.and_true, if_true, if_false]
        have hin : s₂.cursor.stepIn = .ok ((c.inside (t.value root) (i + 1)).inside v 0) := by
          rw [hs₂]
          exact Cursor.stepIn_of_current? hcur hcon hv
        refine exec_descend_congr hin (ihv rfl ?_ rfl hv (by omega))
          (fun m s₃ htour => Cursor.stepOut_of_outer (tour_outer hx htour).1)
          fun s₃ hs₃ => ihes hs₃ hdepth hd hfin (by omega)
        rw [Cursor.depth_inside, hdepth, List.length_cons, Nat.add_assoc]

theorem visitStart_eq (base : Nat) (rs : List (Registration σ ε)) :
    visitStart base rs = (do let _ ← callAll base rs) := by
  induction rs with
  | nil => simp [visitStart, callAll]
  | cons r rs ih => simp [visitStart, callAll, ih]

theorem onStart_eq (x : Extractor σ ε) (root : Value) :
    (x.onStart.filter fun r => x.anchors root.annotations r.path) = x.selecting root [] := by
  rw [onStart, List.filter_filter, selecting]
  apply List.filter_congr
  intro r _
  rw [SearchPath.selects_nil, anchors, Bool.and_comm]
  cases hp : r.path.components <;> simp [SearchPath.length, hp]

def tourAll (x : Extractor σ ε) (base : Nat) (root : Value) : Action σ ε Unit := do
  let _ ← callAll base (x.selecting root [])
  if root.bare.isContainer && x.enters root [] then
    Action.stepIn
    let _ ← x.tour base root [] 0 root.bare.children
    Action.stepOut

/-- A run over a document is a tour of it. -/
theorem run_eq_tour (hx : x.Steady) {root : Value} (hs : s.cursor.current? = some root)
    (hfin : root.isFinite) (hstart : s.cursor.depth = 0 ∨ x.options.relative) :
    exec x.run s = exec (x.tourAll s.cursor.depth root) s := by
  have hmay : ¬(s.cursor.depth ≠ 0 ∧ (!x.options.relative) = true) := by
    rcases hstart with h | h <;> simp [h]
  rw [run, exec_bind_ok (exec_look _ _), if_neg hmay, exec_bind_ok (exec_look _ _),
    Cursor.annotations_of_current? hs, onStart_eq, visitStart_eq, tourAll, bind_assoc]
  apply exec_bind_congr rfl
  intro n s₁ hcall
  have hs₁ : s₁.cursor = s.cursor := (callAll_sameCursor (hx.selecting root []) hcall).cursor
  rw [pure_bind, exec_bind_ok (exec_look _ _), hs₁, Cursor.isContainer_of_current? hs,
    ← standing_nil]
  cases hcon : root.bare.isContainer with
  | false => rfl
  | true =>
    dsimp only
    rw [if_pos rfl, ← enters]
    cases x.enters root [] with
    | false => rfl
    | true =>
      simp only [Bool.and_true, if_true]
      have hin : s₁.cursor.stepIn = .ok (s.cursor.inside root 0) := by
        rw [hs₁]
        exact Cursor.stepIn_of_current? hs hcon hfin
      have hfuel : Value.weight root.bare.children < budget s.cursor := by
        have := Value.weight_children_lt root
        rw [budget, hs]
        dsimp only
        rw [if_pos hfin]
        omega
      rw [exec_bind_ok (exec_look _ _), exec_bind_ok (exec_stepIn hin),
        exec_bind_ok (exec_stepIn hin), hs₁]
      exact exec_bind_congr (walk_eq_tour hx rfl rfl rfl hfin hfuel) fun _ _ _ => rfl

end Extractor
end TreePaths
