import Mathlib.Data.List.Perm.Basic
import TreePaths.Proofs.Extraction.Calls

/-!
The order of registration does not matter: if callbacks leave the cursor where it is and return what
depends on their path and the node alone, runs call the same callbacks node by node, each run in its
own order, and go on or fail at the same node.
-/

namespace TreePaths

open TreePaths.Action TreePaths.Effect

variable {σ ε α β : Type}

theorem greatest_perm {counts counts' : List Nat} (h : counts.Perm counts') :
    greatest counts = greatest counts' :=
  h.foldr_eq 0

namespace Action

/-- The same action, but its moves are not recorded. -/
def quiet (a : Action σ ε α) : Action σ ε α :=
  fun s => ((exec a s).1, { (exec a s).2 with moves := s.moves })

theorem exec_quiet (a : Action σ ε α) (s : Session σ) :
    exec a.quiet s = ((exec a s).1, { (exec a s).2 with moves := s.moves }) := rfl

end Action

namespace Registration

theorem Steady.quiet {r : Registration σ ε} (h : r.Steady) :
    (⟨r.path, r.callback.quiet⟩ : Registration σ ε).Steady := by
  intro s v s' hs
  rw [exec_quiet] at hs
  obtain ⟨hv, rfl⟩ := Prod.mk.inj hs
  have hsame := h s v (exec r.callback s).2 (exec_eq_ok hv)
  exact ⟨hsame.cursor, hsame.indexed⟩

/-- The callback returns what is said for the cursor, and leaves the cursor as it found it. Nothing
is asked of what it returns off the values of a finite document. -/
structure Answers (r : Registration σ ε) (answer : Cursor → Value) : Prop where
  steady : r.Steady
  answers : ∀ s v, s.cursor.current? = some v → v.isFinite →
    ∃ s', exec r.callback s = (.ok (answer s.cursor), s')

end Registration

namespace Extractor

/-- The count that a callback answers with at a node, if it is one that it may return there. -/
def tally (answer : Registration σ ε → Cursor → Value) (base : Nat) (c : Cursor)
    (r : Registration σ ε) : Option Nat :=
  (r.checkCount (c.depth - base) (answer r c)).toOption

section Calling

variable {answer : Registration σ ε → Cursor → Value} {still : Prop} (base : Nat)
  {s : Session (σ × List Call)} {value : Value}

/-- Calling callbacks that answer succeeds if all their answers are counts, and fails otherwise. -/
theorem exec_callAll_answers {es : List (Registration σ ε × Nat)}
    (hes : ∀ e ∈ es, e.1.Answers (answer e.1)) (hstill : still → ∀ e ∈ es, e.1.Still)
    (hs : s.cursor.current? = some value) (hfin : value.isFinite) :
    ∃ (K : List Call) (s' : Session (σ × List Call)), s.Called still s' K ∧
      ((∀ r ∈ es.map (·.1), (tally answer base s.cursor r).isSome) ∧
          K.map Call.order = es.map (·.2) ∧
          exec (callAll base (es.map fun e => e.1.logged e.2)) s = (.ok (greatest
            ((es.map (·.1)).map fun r => (tally answer base s.cursor r).getD 0)), s') ∨
        (∃ r ∈ es.map (·.1), tally answer base s.cursor r = none) ∧
          ∃ f : Failure ε, f.Closes s'.state.2 ∧
            exec (callAll base (es.map fun e => e.1.logged e.2)) s = (.error f, s')) := by
  induction es generalizing s with
  | nil => exact ⟨[], s, .nil s, .inl ⟨nofun, rfl, rfl⟩⟩
  | cons e es ih =>
    have hanswers := hes e List.mem_cons_self
    obtain ⟨s₀, hreturns⟩ : ∃ s₀,
        exec e.1.callback s.forget = (.ok (answer e.1 s.cursor), s₀) :=
      hanswers.answers s.forget value hs hfin
    obtain ⟨s₁, h₁, hanswer, -, hcall⟩ := Registration.exec_invoke_logged hreturns
      (hanswers.steady _ _ _ hreturns) (fun h => hstill h e List.mem_cons_self) base e.2
    simp only [List.map_cons, callAll]
    cases hn : e.1.checkCount (s.cursor.depth - base) (answer e.1 s.cursor) with
    | error f =>
      have hnone : tally answer base s.cursor e.1 = none := congrArg Except.toOption hn
      have hcloses : f.Closes s₁.state.2 := h₁.account ▸ Failure.closes_of_checkCount hanswer hn
      rw [hn] at hcall
      exact ⟨_, s₁, h₁,
        .inr ⟨⟨e.1, List.mem_cons_self, hnone⟩, f, hcloses, exec_bind_error hcall⟩⟩
    | ok n =>
      have hsome : tally answer base s.cursor e.1 = some n := congrArg Except.toOption hn
      rw [hn] at hcall
      obtain ⟨K, s', hK, hor⟩ := ih (fun e he => hes e (List.mem_cons_of_mem _ he))
        (fun h e he => hstill h e (List.mem_cons_of_mem _ he)) (h₁.cursor ▸ hs)
      rw [h₁.cursor] at hor
      refine ⟨_, s', h₁.append hK, ?_⟩
      rw [exec_bind_ok hcall]
      rcases hor with ⟨hall, horder, hexec⟩ | ⟨⟨r, hr, hnone⟩, f, hcloses, hexec⟩
      · refine .inl ⟨?_, congrArg (e.2 :: ·) horder, ?_⟩
        · rintro r (_ | ⟨_, hr⟩)
          · rw [hsome]
            rfl
          · exact hall r hr
        · rw [exec_bind_ok hexec, hsome]
          rfl
      · exact .inr ⟨⟨r, List.mem_cons_of_mem _ hr, hnone⟩, f, hcloses, exec_bind_error hexec⟩

/-- If all answers at a node are counts, the calls there are for what is registered and selects
it. -/
theorem exec_callAll_at {x : Extractor σ ε} (hx : ∀ r ∈ x.registrations, r.Answers (answer r))
    (hstill : still → ∀ r ∈ x.registrations, r.Still) (root : Value) (t : Trail)
    (hs : s.cursor.current? = some value) (hfin : value.isFinite) :
    ∃ (K : List Call) (s' : Session (σ × List Call)), s.Called still s' K ∧
      ((∀ r ∈ x.selecting root t, (tally answer base s.cursor r).isSome) ∧
          K.map (fun k => x.registrations[k.order]?) = (x.selecting root t).map some ∧
          (K.map Call.order).Pairwise (· < ·) ∧
          exec (callAll base (x.logged.selecting root t)) s = (.ok (greatest
            ((x.selecting root t).map fun r => (tally answer base s.cursor r).getD 0)), s') ∨
        (∃ r ∈ x.selecting root t, tally answer base s.cursor r = none) ∧
          ∃ f : Failure ε, f.Closes s'.state.2 ∧
            exec (callAll base (x.logged.selecting root t)) s = (.error f, s')) := by
  have hmem : ∀ e ∈ x.selected root t, e ∈ x.registrations.zipIdx := fun e => List.mem_of_mem_filter
  have hselected : (x.selected root t).map (·.1) = x.selecting root t :=
    map_fst_filter_zipIdx x.registrations fun r => r.path.selects x.options root t
  obtain ⟨K, s', hK, hor⟩ := exec_callAll_answers base
    (fun e he => hx e.1 (List.fst_mem_of_mem_zipIdx (hmem e he)))
    (fun (h : still) e he => hstill h e.1 (List.fst_mem_of_mem_zipIdx (hmem e he))) hs hfin
  rw [hselected, ← selecting_logged] at hor
  refine ⟨K, s', hK, hor.imp_left fun ⟨hall, horder, hexec⟩ => ⟨hall, ?_, ?_, hexec⟩⟩
  · have hregistrations : (x.selected root t).map (fun e => x.registrations[e.2]?) =
        (x.selected root t).map fun e => some e.1 :=
      List.map_congr_left fun e he => List.mem_zipIdx_iff_getElem?.mp (hmem e he)
    have hplaces := congrArg (List.map fun i => x.registrations[i]?) horder
    rw [List.map_map, List.map_map] at hplaces
    rw [← hselected, List.map_map]
    exact hplaces.trans hregistrations
  · rw [horder]
    exact List.pairwise_map.mpr ((pairwise_zipIdx x.registrations).sublist List.filter_sublist)

end Calling

theorem matched_standing (x : Extractor σ ε) (root : Value) (t : Trail) :
    (x.standing root t).map Candidate.matched =
      x.registrations.flatMap fun r => r.path.stages x.options root t := by
  rw [standing, List.map_flatMap,
    ← flatMap_zipIdx_fst x.registrations fun r => r.path.stages x.options root t]
  refine List.flatMap_congr fun e _ => ?_
  rw [List.map_map]
  exact List.map_id _

theorem registration_seeds (x : Extractor σ ε) :
    x.seeds.map Candidate.registration = x.registrations.filter fun r => r.path.length ≠ 0 := by
  rw [seeds, List.map_map, ← map_fst_filter_zipIdx x.registrations fun r => r.path.length ≠ 0]
  rfl

/-- The second extractor has the registrations of the first one in some order, and the same options.
What a callback returns depends on the registration and the node alone, and may be no count. -/
structure Reordered (x y : Extractor σ ε) : Prop where
  perm : x.registrations.Perm y.registrations
  options : x.options = y.options
  answers : ∀ r ∈ x.registrations, ∃ answer, r.Answers answer

inductive NodeByNode (x y : Extractor σ ε) (c : Cursor) (root : Value) :
    List Trail → List Call → List Call → Prop where
  | nil : NodeByNode x y c root [] [] []
  | node {nodes : List Trail} {t : Trail} {K L K' L' : List Call}
      (h : NodeByNode x y c root nodes K L)
      (hK : ∀ k ∈ K', k.before.cursor = c.along root t)
      (hL : ∀ k ∈ L', k.before.cursor = c.along root t)
      (hperm : (K'.map fun k => x.registrations[k.order]?).Perm
        (L'.map fun k => y.registrations[k.order]?))
      (hxorder : (K'.map Call.order).Pairwise (· < ·))
      (hyorder : (L'.map Call.order).Pairwise (· < ·)) :
      NodeByNode x y c root (nodes ++ [t]) (K ++ K') (L ++ L')

structure Abreast (x y : Extractor σ ε) (c : Cursor) (root : Value) (nodes : List Trail)
    (s u : Session (σ × List Call)) : Prop extends s.SameCursor u where
  moves : (∀ r ∈ x.registrations, r.Still) → u.moves = s.moves
  account : NodeByNode x y c root nodes s.state.2 u.state.2

/-- Two runs have come over the nodes before and over some of those ahead, in this order. Both go on
with the same result, or both have failed at the next one of these, each as its last call tells. -/
inductive Paired (x y : Extractor σ ε) (c : Cursor) (root : Value) (before ahead : List Trail) :
    Except (Failure ε) α × Session (σ × List Call) →
      Except (Failure ε) α × Session (σ × List Call) → Prop where
  | going {v : α} {s u : Session (σ × List Call)} {nodes : List Trail}
      (hnodes : nodes.Sublist ahead) (h : Abreast x y c root (before ++ nodes) s u) :
      Paired x y c root before ahead (.ok v, s) (.ok v, u)
  | failed {f g : Failure ε} {s u : Session (σ × List Call)} {nodes : List Trail} {t : Trail}
      {K L P Q : List Call} (hf : f.Closes s.state.2) (hg : g.Closes u.state.2)
      (hnodes : (nodes ++ [t]).Sublist ahead)
      (hcursor : s.cursor = c.along root t) (hsame : s.SameCursor u)
      (hmoves : (∀ r ∈ x.registrations, r.Still) → u.moves = s.moves)
      (haccount : NodeByNode x y c root (before ++ nodes) K L) (hx : s.state.2 = K ++ P)
      (hy : u.state.2 = L ++ Q) (hsite : ∀ k ∈ P ++ Q, k.before.cursor = c.along root t) :
      Paired x y c root before ahead (.error f, s) (.error g, u)

section Reordered

variable {x y : Extractor σ ε} {c : Cursor} {root : Value} {nodes before ahead later : List Trail}
  {s u : Session (σ × List Call)}

theorem Abreast.moved (h : Abreast x y c root nodes s u) (m : Move) (d : Cursor) :
    Abreast x y c root nodes (moved s m d) (moved u m d) where
  cursor := rfl
  indexed := h.indexed
  moves hstill := congrArg (m :: ·) (h.moves hstill)
  account := h.account

theorem Abreast.logged (h : Abreast x y c root nodes s u) (e : Event) :
    Abreast x y c root nodes { s with events := e :: s.events }
      { u with events := e :: u.events } :=
  ⟨⟨h.cursor, h.indexed⟩, h.moves, h.account⟩

namespace Paired

variable {a b : Except (Failure ε) α × Session (σ × List Call)}

theorem moves (h : Paired x y c root before ahead a b) (hstill : ∀ r ∈ x.registrations, r.Still) :
    b.2.moves = a.2.moves := by
  cases h with
  | going _ h => exact h.moves hstill
  | failed _ _ _ _ _ hmoves => exact hmoves hstill

theorem done {v : α} (h : Abreast x y c root before s u) :
    Paired (ε := ε) x y c root before ahead (.ok v, s) (.ok v, u) :=
  .going (List.nil_sublist _) (by rwa [List.append_nil])

/-- What comes ahead of the nodes over which the runs have come already. -/
theorem after (hnodes : nodes.Sublist ahead)
    (h : Paired x y c root (before ++ nodes) later a b) :
    Paired x y c root before (ahead ++ later) a b := by
  cases h with
  | going hmore h =>
    rw [List.append_assoc] at h
    exact .going (hnodes.append hmore) h
  | failed hf hg hmore hcursor hsame hmoves haccount hx hy hsite =>
    rw [List.append_assoc] at haccount
    refine .failed hf hg ?_ hcursor hsame hmoves haccount hx hy hsite
    rw [List.append_assoc]
    exact hnodes.append hmore

theorem bind {a b : Action (σ × List Call) ε α} {k l : α → Action (σ × List Call) ε β}
    (h : Paired x y c root before ahead (exec a s) (exec b u))
    (hkl : ∀ v s' u' nodes, exec a s = (.ok v, s') → Abreast x y c root nodes s' u' →
      Paired x y c root nodes later (exec (k v) s') (exec (l v) u')) :
    Paired x y c root before (ahead ++ later) (exec (a >>= k) s) (exec (b >>= l) u) := by
  rcases ha : exec a s with ⟨r, s'⟩
  rcases hb : exec b u with ⟨q, u'⟩
  rw [ha, hb] at h
  cases h with
  | going hnodes h =>
    rw [exec_bind_ok ha, exec_bind_ok hb]
    exact .after hnodes (hkl _ s' u' _ ha h)
  | failed hf hg hnodes hcursor hsame hmoves haccount hx hy hsite =>
    rw [exec_bind_error ha, exec_bind_error hb]
    have hahead := hnodes.trans (List.sublist_append_left ahead later)
    exact .failed hf hg hahead hcursor hsame hmoves haccount hx hy hsite

end Paired

namespace Reordered

variable (h : Reordered x y)

include h

theorem symm : Reordered y x :=
  ⟨h.perm.symm, h.options.symm, fun r hr => h.answers r (h.perm.mem_iff.mpr hr)⟩

theorem steady : x.Steady := by
  intro r hr
  obtain ⟨answer, hanswer⟩ := h.answers r hr
  exact hanswer.steady

theorem selecting (root : Value) (t : Trail) : (x.selecting root t).Perm (y.selecting root t) := by
  rw [Extractor.selecting, Extractor.selecting, h.options]
  exact h.perm.filter _

theorem enters (root : Value) (t : Trail) : x.enters root t = y.enters root t := by
  have hstanding : (x.standing root t).isEmpty = (y.standing root t).isEmpty := by
    rw [← List.isEmpty_map (f := Candidate.matched), matched_standing,
      ← List.isEmpty_map (f := Candidate.matched), matched_standing, h.options]
    exact (h.perm.flatMap_right _).isEmpty_eq
  have hseeds : x.seeds.isEmpty = y.seeds.isEmpty := by
    rw [← List.isEmpty_map (f := Candidate.registration), registration_seeds,
      ← List.isEmpty_map (f := Candidate.registration), registration_seeds]
    exact (h.perm.filter _).isEmpty_eq
  rw [Extractor.enters, Extractor.enters, hstanding, entersAll, entersAll, hseeds, h.options]

/-- The calls at one node are paired, in whichever order they are made. -/
theorem callAll (base : Nat) {t : Trail} {value : Value} (hs : s.cursor = c.along root t)
    (hcurrent : (c.along root t).current? = some value) (hfin : value.isFinite)
    (hsu : Abreast x y c root before s u) :
    Paired x y c root before [t] (exec (callAll base (x.logged.selecting root t)) s)
      (exec (callAll base (y.logged.selecting root t)) u) := by
  have hvalue : Nonempty Value := ⟨.null⟩
  choose! answer hanswer using h.answers
  let still : Prop := ∀ r ∈ x.registrations, r.Still
  obtain ⟨K, s', hK, hx⟩ := exec_callAll_at base hanswer (fun hstill : still => hstill) root t
    (hs ▸ hcurrent) hfin
  obtain ⟨L, u', hL, hy⟩ := exec_callAll_at base (fun r hr => hanswer r (h.perm.mem_iff.mpr hr))
    (fun (hstill : still) r hr => hstill r (h.perm.mem_iff.mpr hr)) root t
    (hsu.cursor.trans hs ▸ hcurrent) hfin
  have hs' : s'.cursor = c.along root t := hK.cursor.trans hs
  have hsame : s'.SameCursor u' :=
    ⟨by rw [hL.cursor, hsu.cursor, hK.cursor], by rw [hL.indexed, hsu.indexed, hK.indexed]⟩
  have hmoves : still → u'.moves = s'.moves := fun hstill => by
    rw [hL.moves hstill, hsu.moves hstill, hK.moves hstill]
  have hKsite : ∀ k ∈ K, k.before.cursor = c.along root t := fun k hk => (hK.site k hk).trans hs
  have hLsite : ∀ k ∈ L, k.before.cursor = c.along root t := fun k hk =>
    (hL.site k hk).trans (hsu.cursor.trans hs)
  have hselect := h.selecting root t
  rw [hsu.cursor] at hy
  rcases hx with ⟨hsome, hKs, hKorder, hexec⟩ | ⟨⟨r, hr, hnone⟩, f, hf, hexec⟩
  · rcases hy with ⟨-, hLs, hLorder, hexec'⟩ | ⟨⟨r, hr, hnone⟩, -⟩
    · rw [hexec, hexec', greatest_perm ((hselect.map _).symm)]
      refine .going (List.Sublist.refl [t]) ⟨hsame, hmoves, ?_⟩
      rw [hK.account, hL.account]
      exact hsu.account.node hKsite hLsite (hKs ▸ hLs ▸ hselect.map _) hKorder hLorder
    · have hr' := hsome r (hselect.mem_iff.mpr hr)
      rw [hnone] at hr'
      cases hr'
  · rcases hy with ⟨hsome, -⟩ | ⟨-, g, hg, hexec'⟩
    · have hr' := hsome r (hselect.mem_iff.mp hr)
      rw [hnone] at hr'
      cases hr'
    · rw [hexec, hexec']
      have haccount : NodeByNode x y c root (before ++ []) s.state.2 u.state.2 := by
        rw [List.append_nil]
        exact hsu.account
      refine .failed hf hg (List.Sublist.refl [t]) hs' hsame hmoves haccount hK.account hL.account ?_
      exact fun k hk => (List.mem_append.mp hk).elim (hKsite k) (hLsite k)

/-- Two tours side by side. -/
theorem tour {t : Trail} {i : Nat} {es : List (Position × Value)}
    (hs : s.cursor = (c.along root t).inside (t.value root) i)
    (hes : (t.value root).bare.children.drop i = es) (hfin : (t.value root).isFinite)
    (hsu : Abreast x y c root before s u) :
    Paired x y c root before (t.forest i es) (exec (x.logged.tour c.depth root t i es) s)
      (exec (y.logged.tour c.depth root t i es) u) := by
  fun_induction Extractor.tour x.logged c.depth root t i es generalizing s u before with
  | case1 t i =>
    rw [Extractor.tour, exec_bind_ok (exec_next s), exec_bind_ok (exec_next u), hsu.cursor]
    exact .done (hsu.moved .next s.cursor.next)
  | case2 t i p v es ihv ihes =>
    obtain ⟨hi, hd⟩ := Trail.getElem?_of_drop hes
    have hv : v.isFinite := Value.isFinite_of_mem_children hfin (List.mem_of_getElem? hi)
    have hnext : s.cursor.next = c.along root (⟨i, p, v⟩ :: t) := by
      rw [hs, Cursor.next_inside hi]
      rfl
    rw [Extractor.tour, exec_bind_ok (exec_next s), exec_bind_ok (exec_next u), hsu.cursor, hnext,
      Trail.forest, ← List.singleton_append]
    have hchild : (c.along root (⟨i, p, v⟩ :: t)).current? = some v := Cursor.current?_inside hi
    refine (h.callAll c.depth rfl hchild hv (hsu.moved .next _)).bind
      fun n s₁ u₁ nodes hcall h₁ => ?_
    have hs₁ : s₁.cursor = c.along root (⟨i, p, v⟩ :: t) :=
      (callAll_sameCursor (h.steady.logged.selecting root _) hcall).cursor
    rw [enters_logged, enters_logged, h.enters]
    split
    · exact .done (h₁.logged _)
    split
    next hin =>
      have hstep : s₁.cursor.stepIn = .ok ((c.along root (⟨i, p, v⟩ :: t)).inside v 0) := by
        rw [hs₁]
        have hcontainer := (Bool.and_eq_true_iff.mp hin).1
        exact Cursor.stepIn_of_current? hchild hcontainer hv
      rw [exec_bind_ok (exec_stepIn hstep), exec_bind_ok (exec_stepIn (h₁.cursor ▸ hstep))]
      refine (ihv rfl rfl hv (h₁.moved .stepIn _)).bind fun m s₂ u₂ nodes htour h₂ => ?_
      have hout : s₂.cursor.stepOut = .ok (c.along root (⟨i, p, v⟩ :: t)) :=
        Cursor.stepOut_of_outer (tour_outer h.steady.logged htour).1
      rw [exec_bind_ok (exec_stepOut hout), exec_bind_ok (exec_stepOut (h₂.cursor ▸ hout))]
      split
      · exact .done (h₂.moved .stepOut _)
      · exact ihes rfl hd hfin (h₂.moved .stepOut _)
    -- Nothing below the child is entered, so none of the nodes there is come over.
    · have hrest := ihes hs₁ hd hfin h₁
      rw [← List.append_nil nodes] at hrest
      exact .after (List.nil_sublist _) hrest

/-- Tours of the value and of all nodes below it are paired over these nodes in pre-order. -/
theorem tourAll (hs : s.cursor.current? = some root) (hfin : root.isFinite)
    (hsu : Abreast x y s.cursor root before s u) :
    Paired x y s.cursor root before ([] :: root.preorder)
      (exec (x.logged.tourAll s.cursor.depth root) s)
      (exec (y.logged.tourAll s.cursor.depth root) u) := by
  unfold Extractor.tourAll
  rw [← List.singleton_append]
  refine (h.callAll (t := []) s.cursor.depth rfl hs hfin hsu).bind fun n s₁ u₁ nodes hcall h₁ => ?_
  have hs₁ : s₁.cursor = s.cursor :=
    (callAll_sameCursor (h.steady.logged.selecting root _) hcall).cursor
  rw [enters_logged, enters_logged, h.enters]
  split
  next hin =>
    have hstep : s₁.cursor.stepIn = .ok (s.cursor.inside root 0) := by
      rw [hs₁]
      exact Cursor.stepIn_of_current? hs (Bool.and_eq_true_iff.mp hin).1 hfin
    rw [exec_bind_ok (exec_stepIn hstep), exec_bind_ok (exec_stepIn (h₁.cursor ▸ hstep)),
      ← List.append_nil root.preorder]
    have htour := h.tour (t := []) (i := 0) (s := moved s₁ .stepIn _) rfl rfl hfin
      (h₁.moved .stepIn (s.cursor.inside root 0))
    refine htour.bind fun m s₂ u₂ nodes htour h₂ => ?_
    have hout : s₂.cursor.stepOut = .ok s.cursor :=
      Cursor.stepOut_of_outer (tour_outer h.steady.logged htour).1
    rw [exec_stepOut hout, exec_stepOut (h₂.cursor ▸ hout)]
    exact .done (h₂.moved .stepOut s.cursor)
  · exact .done h₁

/-- Two runs side by side. Neither may begin below depth zero if it is not relative. -/
theorem run {s : Session σ} (hs : s.cursor.current? = some root) (hfin : root.isFinite) :
    Paired x y s.cursor root [] ([] :: root.preorder)
      (exec x.logged.run (s.withState (s.state, [])))
      (exec y.logged.run (s.withState (s.state, []))) := by
  by_cases hstart : s.cursor.depth = 0 ∨ x.options.relative
  · rw [run_eq_tour h.steady.logged hs hfin hstart,
      run_eq_tour h.symm.steady.logged hs hfin (h.options ▸ hstart)]
    let u : Session (σ × List Call) := s.withState (s.state, [])
    have habreast : Abreast x y s.cursor root [] u u := ⟨⟨rfl, rfl⟩, fun _ => rfl, .nil⟩
    exact h.tourAll (s := u) hs hfin habreast
  · have hrefused {z : Extractor σ ε} (hz : ¬(s.cursor.depth = 0 ∨ z.options.relative)) :
        exec z.logged.run (s.withState (s.state, [])) =
          (.error (.violation (.startDepth s.cursor.depth)), s.withState (s.state, [])) := by
      obtain ⟨hdepth, hrelative⟩ := not_or.mp hz
      have hcond : s.cursor.depth ≠ 0 ∧ (!z.logged.options.relative) = true :=
        ⟨hdepth, Bool.not_eq_true' _ ▸ Bool.eq_false_iff.mpr hrelative⟩
      rw [Extractor.run, exec_bind_ok (exec_look _ _)]
      exact congrArg (exec · _) (if_pos hcond)
    rw [hrefused hstart, hrefused (h.options ▸ hstart)]
    have hfirst : List.Sublist [[]] ([] :: root.preorder) := (List.nil_sublist _).cons_cons []
    refine .failed (Failure.closes_nil _) (Failure.closes_nil _) hfirst rfl ⟨rfl, rfl⟩
      (fun _ => rfl) .nil rfl rfl fun k hk => ?_
    exact absurd hk List.not_mem_nil

end Reordered
end Reordered

/-- The moves that a run makes itself, without those of its callbacks, the latest first. -/
def ownMoves (x : Extractor σ ε) (s : Session σ) : List Move :=
  (exec (x.withCallbacks fun r => r.callback.quiet).run s).2.moves

theorem Reordered.quiet {x y : Extractor σ ε} (h : Reordered x y) :
    Reordered (x.withCallbacks fun r => r.callback.quiet)
      (y.withCallbacks fun r => r.callback.quiet) where
  perm := h.perm.map _
  options := h.options
  answers r hr := by
    obtain ⟨q, hq, rfl⟩ := List.mem_map.mp hr
    obtain ⟨answer, hanswer⟩ := h.answers q hq
    refine ⟨answer, hanswer.steady.quiet, fun s v hs hv => ?_⟩
    obtain ⟨s', hreturns⟩ := hanswer.answers s v hs hv
    exact ⟨{ s' with moves := s.moves }, by rw [exec_quiet, hreturns]⟩

def Sample.greedy : List (Registration Unit Empty) :=
  [⟨⟨[], [⟨.field "a", []⟩, ⟨.wildcard, []⟩]⟩, pure (.int 0)⟩,
    ⟨⟨[], [⟨.field "a", []⟩, ⟨.wildcard, ["unit"]⟩]⟩, pure (.int 7)⟩]

def Sample.forward : Extractor Unit Empty :=
  ⟨Sample.greedy, {}⟩

end Extractor
end TreePaths
