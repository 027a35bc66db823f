import TreePaths.Proofs.Yaml.Filling

/-!
The value of a document is what its root means: making a part for each node that is needed, filling
pieces as their turns come, and telling the value in the end gives the same in whatever order.
-/

namespace TreePaths.Yaml

namespace Site

variable {g : Graph} {r : Reading} {root : NodeId} {rank : NodeId → Nat}
  {work todo : List (NodeId × Nat)} {β : Nat} {s s' s'' : Site} {n : NodeId} {named : Bool}
  {ρ : Role} {scope : Scope} {mk : Scope → NodeId → Build Part} {p : Part}

theorem drawn_of_filled {q : Plan} {fixed : Nat → Prop} {k : Nat} (hk : fixed k)
    (h : q.Filled g r s (s.draft.piece k)) : q.Drawn g r s fixed n (.piece k) := by
  cases q with
  | scalar | annotated => exact h.elim
  | list | pairs | set | map | struct => exact ⟨k, rfl, hk, h⟩

/-- What is neither a scalar nor made empty is a struct or annotated, if anything. -/
theorem planAs_eq (t : Tag) : scalarReader? t = none → emptyPiece? r t = none →
    g.planAs r t n = match r, t with
      | .tree, .map => (g.fieldEntries n).map .struct
      | .tree, .localTag text => (g.contentPlan n).map (.annotated · (annotationParts text))
      | _, _ => none := by
  intro hread hempty
  cases t with
  | null | bool | int | float | binary | timestamp | str => cases hread
  | omap | pairs | set | seq => cases r <;> exact absurd hempty (Option.some_ne_none _)
  | map =>
    cases r with
    | tree => rfl
    | data => cases hempty
  | localTag | merge | value | unknown => cases r <;> rfl

theorem isAnnotated_of_emptyPiece? {t : Tag} {x : Piece} (h : emptyPiece? r t = some x) :
    x.isAnnotated = false := by
  unfold emptyPiece? at h
  split at h
  · cases h
    rfl
  · cases h
    rfl
  · cases h
    rfl
  · cases h
    rfl
  · split at h <;> cases h
    rfl
  · cases h

/-- The piece that is filled first is none of the others. -/
theorem Inv.fixed {k : Nat} (h : Inv g r root rank ((n, k) :: work) todo s) :
    s.Fixed (work ++ todo ++ s.waiting) k := by
  refine ⟨(h.known (n, k) List.mem_cons_self).1, fun e he hek => ?_⟩
  have hnodup := h.nodup
  rw [List.cons_append, List.cons_append, List.map_cons, List.nodup_cons] at hnodup
  exact hnodup.1 (List.mem_map.2 ⟨e, he, hek⟩)

def record (s : Site) (n : NodeId) (p : Part) : Site :=
  { s with made := s.made.setIfInBounds n (some p) }

theorem madeOf_record (hn : n < s.made.size) (m : NodeId) :
    (s.record n p).madeOf m = if m = n then some p else s.madeOf m := by
  simp only [madeOf, record, Array.getD_eq_getD_getElem?, Array.getElem?_setIfInBounds]
  by_cases h : m = n
  · subst h
    rw [if_pos rfl, if_pos rfl, if_pos hn]
    rfl
  · rw [if_neg (Ne.symm h), if_neg h]

/-- A piece that was not there before may have been filled. -/
theorem Grows.trans_new {k : Nat} (h : Grows rank [] β s s') (h' : Grows rank [k] β s' s'')
    (hk : s.draft.size ≤ k) : Grows rank [] β s s'' := by
  have hweak : Grows rank [k] β s s' := h.weaken nofun (Nat.le_refl β)
  refine { hweak.trans h' with piece := fun l hl _ => ?_ }
  rw [h'.piece l (Nat.lt_of_lt_of_le hl h.size) ?_, h.piece l hl nofun]
  intro hlk
  have := List.mem_singleton.1 hlk
  omega

/-- What was fixed before still is. -/
theorem Grows.fixed {opened : List (NodeId × Nat)} {k : Nat} (h : Grows rank [] β s s')
    (hk : s.Fixed (opened ++ s.waiting) k) :
    s'.Fixed (opened ++ s'.waiting) k ∧ s'.draft.piece k = s.draft.piece k := by
  refine ⟨⟨Nat.lt_of_lt_of_le hk.1 h.size, fun e he hek => ?_⟩, h.piece k hk.1 nofun⟩
  obtain ⟨new, hnew, hle⟩ := h.waiting
  rw [hnew] at he
  simp only [List.mem_append] at he
  rcases he with he | he | he
  · exact hk.2 e (List.mem_append_left _ he) hek
  · have := (hle e he).2
    have := hk.1
    omega
  · exact hk.2 e (List.mem_append_right _ he) hek

theorem Grows.record (h : Grows rank [] (rank n) s s') (hnew : s.madeOf n = none)
    (hn : n < s'.made.size) : Grows rank [] (rank n + 1) s (s'.record n p) := by
  refine { h.weaken (fun _ => id) (Nat.le_succ _) with made := ?_, fresh := ?_ }
  · intro m q hm
    rw [madeOf_record hn, if_neg fun hmn => absurd (hmn ▸ hm) (by rw [hnew]; exact nofun)]
    exact h.made m q hm
  · intro m hm
    rw [madeOf_record hn, if_neg fun hmn => absurd hm (by rw [hmn]; exact Nat.not_succ_le_self _)]
    exact h.fresh m (Nat.le_of_succ_le hm)

section InOrder

variable (hg : g.InOrder r root rank)

include hg

/-- A node that is built has the tag of its role, even after merging. -/
theorem tag_eq (h : Inv g r root rank work todo s) (hn : g.Built r root named ρ n)
    (htag : ρ ≠ .item → s.graph.tag n ≠ .value) : s.graph.tag n = ρ.tag (g.tag n) := by
  rcases h.edited.tag n with hsame | ⟨hvalue, hstr, hkey⟩
  · by_cases hvalue : g.tag n = .value
    · cases ρ with
      | item => exact hsame
      | key | name => exact absurd (hsame.trans hvalue) (htag nofun)
    · rw [Role.tag_of_ne hvalue, hsame]
  · rw [hstr, hvalue]
    cases ρ with
    | item => exact absurd hn ((hg.steady.keys n hvalue hkey).1 named)
    | key | name => rfl

/-- A node that is built has got its part. -/
theorem settle_new (done : List (NodeId × Nat)) (h : Inv g r root rank (done ++ work) todo s')
    (hdone : ∀ e ∈ done, e.1 = n) (hgrows : Grows rank [] (rank n) s s')
    (hnew : s.madeOf n = none) (hn : g.Built r root named ρ n)
    (htag : s.graph.tag n = ρ.tag (g.tag n)) (hvalue : s.graph.tag n ≠ .value) {q : Plan}
    (hq : g.plan r (ρ, n) = some q)
    (hdrawn : q.Drawn g r s' (s'.Fixed (work ++ todo ++ s'.waiting)) n p) :
    Inv g r root rank work todo (s'.record n p) ∧
      Grows rank [] (rank n + 1) s (s'.record n p) ∧ (s'.record n p).madeOf n = some p := by
  have hlt : n < s'.made.size := by
    rw [h.size]
    exact hn.lt_size hg.document hg.ranked
  have hold : ∀ q, s'.madeOf n = some q → q = p := by
    rw [hgrows.fresh n (Nat.le_refl _), hnew]
    exact nofun
  have hsame : g.plan r (.key, n) = some q := by
    rw [← plan_eq_of_ne, hq]
    by_cases hitem : ρ = .item
    · rw [hitem] at htag
      exact Or.inl fun h => hvalue (htag.trans h)
    · exact Or.inr hitem
  refine ⟨?_, hgrows.record hnew hlt, by rw [madeOf_record hlt, if_pos rfl]⟩
  exact h.settle done hdone hold (hgrows.tag_ne hvalue) hsame hdrawn rfl rfl rfl
    Array.size_setIfInBounds (madeOf_record hlt)

/-- A collection is made empty, and filled at once or later. -/
theorem makeEmpty_ends (hmk : Makes g r root rank mk (rank n))
    (hscope : Suits rank scope named (rank n)) (hn : g.Built r root named ρ n)
    (htag : s.graph.tag n = ρ.tag (g.tag n)) (hnew : s.madeOf n = none) {x : Piece}
    (hempty : emptyPiece? r (s.graph.tag n) = some x) (h : Inv g r root rank work todo s) :
    Ends (g.meaning r (.item, root) = none) (do
        let k ← addPiece x
        if scope.atOnce then fill mk scope n k
        else modify fun s => { s with waiting := (n, k) :: s.waiting }
        return .piece k) s fun p s' =>
      Inv g r root rank work todo (s'.record n p) ∧
        Grows rank [] (rank n + 1) s (s'.record n p) ∧ (s'.record n p).madeOf n = some p := by
  have hvalue : s.graph.tag n ≠ .value := fun hvalue => by
    rw [hvalue] at hempty
    cases hempty
  have hown : emptyPiece? r (g.tag n) = some x := by
    rw [htag] at hempty
    by_cases hvalue : g.tag n = .value
    · rw [hvalue] at hempty
      cases ρ <;> cases hempty
    · rwa [Role.tag_of_ne hvalue] at hempty
  have hx := isAnnotated_of_emptyPiece? hempty
  have hpiece : (s.draft.add x).piece s.draft.size = x := Draft.piece_add_self
  obtain ⟨h₁, hgrows₁⟩ := h.add x [(n, s.draft.size)] (by simp) (Nat.le_refl 1) fun _ => hx
  have hgrows₁ : Grows rank [] (rank n) s { s with draft := s.draft.add x } :=
    hgrows₁.weaken (fun _ => id) (Nat.zero_le _)
  show Ends _ (if scope.atOnce = true then do
      fill mk scope n s.draft.size
      Pure.pure (Part.piece s.draft.size)
    else do
      modify fun s' => { s' with waiting := (n, s.draft.size) :: s'.waiting }
      Pure.pure (Part.piece s.draft.size)) { s with draft := s.draft.add x } _
  by_cases honce : scope.atOnce = true
  · rw [if_pos honce]
    apply Ends.bind (fill_leads hg hmk hscope hn List.mem_cons_self
      (hown.trans (congrArg some hpiece.symm)) h₁)
    rintro - s₂ ⟨h₂, hgrows₂, q, hq, hfilled⟩
    exact Ends.pure (settle_new hg [(n, s.draft.size)] h₂
      (fun e he => by rw [List.mem_singleton.1 he]) (hgrows₁.trans_new hgrows₂ (Nat.le_refl _))
      hnew hn htag hvalue hq (drawn_of_filled h₂.fixed hfilled))
  · rw [if_neg honce]
    apply Ends.modify_bind
    apply Ends.pure
    have hlt : n < s.made.size := by
      rw [h.size]
      exact hn.lt_size hg.document hg.ranked
    have hnamed : named = false := Bool.eq_false_iff.2 fun hnamed => honce (hscope.1 hnamed)
    refine ⟨?_, ?_, (madeOf_record hlt n).trans (if_pos rfl)⟩
    · exact h₁.wait hnew hvalue ⟨ρ, hnamed ▸ hn⟩ (hown.trans (congrArg some hpiece.symm)) rfl rfl
        rfl Array.size_setIfInBounds (madeOf_record hlt)
    · refine { hgrows₁.record hnew hlt with waiting := ⟨[(n, s.draft.size)], rfl, ?_⟩ }
      intro e he
      rw [List.mem_singleton.1 he]
      exact ⟨Nat.lt_succ_self _, Nat.le_refl _⟩

/-- Structs, and what is annotated, are made at once. -/
theorem makeTree_ends (hmk : Makes g r root rank mk (rank n))
    (hscope : Suits rank scope named (rank n)) (hn : g.Built r root named ρ n)
    (htag : s.graph.tag n = ρ.tag (g.tag n)) (hnew : s.madeOf n = none)
    (hread : scalarReader? (s.graph.tag n) = none) (hempty : emptyPiece? r (s.graph.tag n) = none)
    (h : Inv g r root rank work todo s) :
    Ends (g.meaning r (.item, root) = none) (match r, s.graph.tag n with
      | .tree, .map => makeStruct mk scope n
      | .tree, .localTag text => do
        let content ← makeContent mk scope n
        return .piece (← addPiece (.annotated content (annotationParts text)))
      | _, _ => throw .tag) s fun p s' =>
      Inv g r root rank work todo (s'.record n p) ∧
        Grows rank [] (rank n + 1) s (s'.record n p) ∧ (s'.record n p).madeOf n = some p := by
  have hlost : g.plan r (ρ, n) = none → g.meaning r (.item, root) = none := fun hnone =>
    lost_of_none hg hn (by rw [hnone]; rfl)
  have hplan : g.plan r (ρ, n) = g.planAs r (s.graph.tag n) n := by rw [Graph.plan, htag]
  have hthrow : (∀ q, g.plan r (ρ, n) ≠ some q) → ∀ {Q : Part → Site → Prop},
      Ends (g.meaning r (.item, root) = none) (throw Fault.tag : Build Part) s Q := fun hnone _ =>
    Ends.throw (hlost (Option.eq_none_iff_forall_ne_some.2 hnone))
  have hsettle : ∀ {p s' q}, s.graph.tag n ≠ .value → Inv g r root rank work todo s' →
      Grows rank [] (rank n) s s' → g.plan r (ρ, n) = some q →
      q.Drawn g r s' (s'.Fixed (work ++ todo ++ s'.waiting)) n p →
      Inv g r root rank work todo (s'.record n p) ∧
        Grows rank [] (rank n + 1) s (s'.record n p) ∧ (s'.record n p).madeOf n = some p :=
    fun hvalue h' hgrows hq hdrawn =>
      settle_new hg [] h' (List.forall_mem_nil _) hgrows hnew hn htag hvalue hq hdrawn
  have hplan := hplan.trans (planAs_eq _ hread hempty)
  cases r with
  | data => exact hthrow fun q hq => by cases hplan.symm.trans hq
  | tree =>
    cases ht : s.graph.tag n with
    | map =>
      rw [ht] at hplan
      refine Ends.mono (makeStruct_leads hg hmk hscope hn (by rw [← htag, ht]; rfl) (w := id)
        (fun _ => rfl) (fun _ _ _ => id) hplan h) ?_
      rintro p s' ⟨h', hgrows, es, hes, hdrawn⟩
      exact hsettle (by rw [ht]; rintro ⟨⟩) h' hgrows (by rw [hplan, hes]; rfl) hdrawn
    | localTag text =>
      rw [ht] at hplan
      apply Ends.bind (makeContent_leads hmk hg hscope hn (htag.symm.trans ht) h)
      rintro c s₁ ⟨h₁, hgrows₁, q, hq, hdrawn⟩
      apply Ends.bind (addPiece_leads (.annotated c (annotationParts text)) h₁)
      rintro k s₂ ⟨h₂, hgrows₂, hk, hpiece⟩
      have hdrawn : (Plan.annotated q (annotationParts text)).Drawn g .tree s₂
          (s₂.Fixed (work ++ todo ++ s₂.waiting)) n (.piece k) :=
        ⟨k, c, rfl, hk, hpiece, hdrawn.mono hgrows₂.made fun l hl => hgrows₂.fixed hl⟩
      exact Ends.pure (hsettle (by rw [ht]; rintro ⟨⟩) h₂
        (hgrows₁.trans (hgrows₂.weaken (fun _ => id) (Nat.zero_le _)))
        (by rw [hplan]; exact congrArg (Option.map _) hq) hdrawn)
    | null | bool | int | float | binary | timestamp | str | omap | pairs | set | seq | merge
    | value | unknown =>
      rw [ht] at hplan
      exact hthrow fun q hq => by cases hplan.symm.trans hq

/-- What is made anew for a node shows what its plan asks for, or waits to. -/
theorem makeNew_ends (hmk : Makes g r root rank mk (rank n))
    (hscope : Suits rank scope named (rank n)) (hn : g.Built r root named ρ n)
    (htag : ρ ≠ .item → s.graph.tag n ≠ .value) (hnew : s.madeOf n = none)
    (h : Inv g r root rank work todo s) :
    Ends (g.meaning r (.item, root) = none) (makeNew mk r scope n) s fun p s' =>
      Inv g r root rank work todo (s'.record n p) ∧
        Grows rank [] (rank n + 1) s (s'.record n p) ∧ (s'.record n p).madeOf n = some p := by
  have htag := tag_eq hg h hn htag
  unfold makeNew
  apply Ends.get_bind
  cases hread : scalarReader? (s.graph.tag n) with
  | some read =>
    simp only [hread]
    have hvalue : s.graph.tag n ≠ .value := fun hvalue => by
      rw [hvalue] at hread
      cases hread
    rw [htag] at hread
    refine Ends.mono (makeText_leads hg hn hread htag h) ?_
    rintro p s' ⟨h', hgrows, q, hq, hdrawn⟩
    exact settle_new hg [] h' nofun (hgrows.weaken (fun _ => id) (Nat.zero_le _)) hnew hn
      htag hvalue hq hdrawn
  | none =>
    cases hempty : emptyPiece? r (s.graph.tag n) with
    | some x =>
      simp only [hread, hempty]
      exact makeEmpty_ends hg hmk hscope hn htag hnew hempty h
    | none =>
      simp only [hread, hempty]
      exact makeTree_ends hg hmk hscope hn htag hnew hread hempty h

/-- There are fewer nodes around a node than its rank leaves of the fuel. -/
theorem make_makes {fuel : Nat} (hβ : β ≤ fuel) : Makes g r root rank (make r fuel) β := by
  induction fuel generalizing β with
  | zero =>
    intro _ _ _ _ c _ _ hlt
    omega
  | succ fuel ih =>
    intro work todo named ρ c scope s hlt h hc hscope htag
    unfold make
    apply Ends.get_bind
    -- This is what has been made of the node before.
    cases hmade : s.made.getD c none with
    | some p => exact Leads.pure h hmade
    | none =>
      have haround : scope.around.contains c = false := by
        rw [Bool.eq_false_iff]
        intro hmem
        have := hscope.2 c (List.contains_iff_mem.1 hmem)
        omega
      show Ends _ (if scope.around.contains c = true then _ else _) s _
      rw [haround]
      have hinner : Suits rank { scope with around := c :: scope.around } named (rank c) := by
        refine ⟨hscope.1, fun m hm => ?_⟩
        rcases List.mem_cons.1 hm with rfl | hm
        · exact Nat.le_refl _
        · exact Nat.le_trans (Nat.le_of_lt hlt) (hscope.2 m hm)
      apply Ends.bind (makeNew_ends hg (ih (by omega)) hinner hc htag hmade h)
      rintro p s' ⟨h', hgrows, hp⟩
      apply Ends.modify_bind
      exact Ends.pure ⟨h', hgrows.weaken (fun _ => id) hlt, hp⟩

/-- Filling the pieces whose turn has come makes only nodes of lower ranks wait. -/
theorem fillAll_ends {γ : Nat} (htodo : ∀ e ∈ todo, rank e.1 ≤ γ)
    (h : Inv g r root rank [] todo s) :
    Ends (g.meaning r (.item, root) = none)
      (todo.forM fun (n, k) => fill (make r (g.size + 1)) ⟨[], false⟩ n k) s fun _ s' =>
      Inv g r root rank [] [] s' ∧ (∀ n p, s.madeOf n = some p → s'.madeOf n = some p) ∧
        ∀ e ∈ s'.waiting, e ∈ s.waiting ∨ rank e.1 < γ := by
  induction todo generalizing s with
  | nil => exact Ends.pure ⟨h, fun _ _ => id, fun _ => Or.inl⟩
  | cons e es ih =>
    obtain ⟨n, k⟩ := e
    obtain ⟨hmade, ⟨ρ, hn⟩, hempty⟩ := h.empty (n, k) (List.mem_append_left _ List.mem_cons_self)
    have hmk := make_makes hg (Nat.le_succ_of_le (hg.ranked.le n))
    have houtside : Suits rank ⟨[], false⟩ false (rank n) := ⟨nofun, nofun⟩
    apply Ends.bind (fill_leads hg hmk houtside hn List.mem_cons_self hempty h.start)
    rintro - s₁ ⟨h₁, hgrows, q, hq, hfilled⟩
    have hmade₁ := hgrows.made n _ hmade
    have hsettled : Inv g r root rank [] es s₁ := by
      refine h₁.settle [(n, k)] (fun e he => by rw [List.mem_singleton.1 he])
        (fun p hp => Option.some.inj (hp.symm.trans hmade₁)) (h₁.tag n _ hmade₁)
        ((h.plan_eq hg hn hmade).symm.trans hq) (drawn_of_filled h₁.fixed hfilled) rfl rfl rfl rfl
        fun m => ?_
      split
      · rename_i hmn
        rw [hmn, hmade₁]
      · rfl
    apply Ends.mono (ih (fun e he => htodo e (List.mem_cons_of_mem _ he)) hsettled)
    rintro - s₂ ⟨h₂, hmono, hwaiting⟩
    refine ⟨h₂, fun m p hp => hmono m p (hgrows.made m p hp), fun e he => ?_⟩
    obtain ⟨new, hnew, hlt⟩ := hgrows.waiting
    refine (hwaiting e he).elim (fun he => ?_) Or.inr
    rw [hnew] at he
    refine (List.mem_append.1 he).elim (fun he => Or.inr ?_) Or.inl
    exact Nat.lt_of_lt_of_le (hlt e he).1 (htodo (n, k) List.mem_cons_self)

omit hg in
/-- The turn of all nodes that wait has come. -/
theorem Inv.turn (h : Inv g r root rank [] [] s) :
    Inv g r root rank [] s.waiting.reverse { s with waiting := [] } := by
  have hperm : ([] ++ s.waiting.reverse ++ []).Perm ([] ++ [] ++ s.waiting) := by
    rw [List.append_nil]
    exact s.waiting.reverse_perm
  refine { h with drawn := ?_, known := ?_, nodup := ?_, empty := ?_ }
  · intro n p hp
    rcases h.drawn n p hp with ⟨k, hk, hmem, hrest⟩ | ⟨q, hq, hdrawn⟩
    · exact Or.inl ⟨k, hk, hperm.mem_iff.2 hmem, hrest⟩
    · exact Or.inr ⟨q, hq, hdrawn.mono (fun _ _ => id) fun k hk =>
        ⟨⟨hk.1, fun e he => hk.2 e (hperm.mem_iff.1 he)⟩, rfl⟩⟩
  · exact fun e he => h.known e (hperm.mem_iff.1 he)
  · exact (hperm.map _).nodup_iff.2 h.nodup
  · exact fun e he => h.empty e (hperm.mem_iff.1 he)

/-- The ranks of the nodes that wait sink from round to round, so in the end none waits. -/
theorem finish_ends {rounds : Nat} (hwaiting : ∀ e ∈ s.waiting, rank e.1 < rounds)
    (h : Inv g r root rank [] [] s) :
    Ends (g.meaning r (.item, root) = none) (finish r (g.size + 1) (rounds + 1)) s fun _ s' =>
      Inv g r root rank [] [] s' ∧ s'.waiting = [] ∧
        ∀ n p, s.madeOf n = some p → s'.madeOf n = some p := by
  induction rounds generalizing s with
  | zero =>
    have hnil : s.waiting = [] := List.eq_nil_iff_forall_not_mem.2 fun e he =>
      Nat.not_lt_zero _ (hwaiting e he)
    unfold finish
    apply Ends.get_bind
    rw [hnil]
    exact Ends.pure ⟨h, hnil, fun _ _ => id⟩
  | succ rounds ih =>
    unfold finish
    apply Ends.get_bind
    cases hempty : s.waiting.isEmpty with
    | true => exact Ends.pure ⟨h, List.isEmpty_iff.1 hempty, fun _ _ => id⟩
    | false =>
      apply Ends.set_bind
      apply Ends.bind (fillAll_ends hg (γ := rounds) (fun e he =>
        Nat.le_of_lt_succ (hwaiting e (List.mem_reverse.1 he))) h.turn)
      rintro - s₁ ⟨h₁, hmono, hlt⟩
      apply Ends.mono (ih (fun e he => (hlt e he).resolve_left nofun) h₁)
      rintro - s₂ ⟨h₂, hnil, hmono₂⟩
      exact ⟨h₂, hnil, fun n p hp => hmono₂ n p (hmono n p hp)⟩

omit hg in
/-- Nothing has been made yet. -/
theorem Inv.start_empty :
    Inv g r root rank [] [] ⟨g, .empty, Array.replicate g.size none, []⟩ := by
  have hnone : ∀ n p, (Site.mk g .empty (Array.replicate g.size none) []).madeOf n ≠ some p := by
    intro n p
    simp only [madeOf, Array.getD_eq_getD_getElem?, Array.getElem?_replicate]
    split <;> exact nofun
  exact ⟨.start g rank _ _, Array.size_replicate, fun n p hp => absurd hp (hnone n p),
    fun n p hp => absurd hp (hnone n p), nofun, List.nodup_nil, nofun⟩

end InOrder

end Site

/-- The value that is built for a document is the one that its root means; there is none if it, or
what it is made of, means nothing. -/
theorem build_eq_meaning {g : Graph} {r : Reading} {root : NodeId} {rank : NodeId → Nat}
    (hg : g.InOrder r root rank) : (build r g root).toOption = g.meaning r (.item, root) := by
  let s : Site := ⟨g, .empty, Array.replicate g.size none, []⟩
  have hends : Ends (g.meaning r (.item, root) = none) (buildFrom r root) s fun v _ =>
      g.meaning r (.item, root) = some v := by
    unfold buildFrom
    apply Ends.get_bind
    have hle := Nat.lt_succ_of_le (hg.ranked.le root)
    have houtside : Site.Suits rank ⟨[], false⟩ false (g.size + 1) := ⟨nofun, nofun⟩
    apply Ends.bind (Site.make_makes hg (Nat.le_refl _) [] [] false .item root _ s hle .start_empty
      .root houtside fun hne => absurd rfl hne)
    rintro p s₁ ⟨h₁, hgrows, hp⟩
    obtain ⟨new, hnew, hlt⟩ := hgrows.waiting
    apply Ends.bind (Site.finish_ends hg (fun e he => ?_) h₁)
    · rintro - s₂ ⟨h₂, hnil, hmono⟩
      apply Ends.get_bind
      obtain ⟨v, hv, htells⟩ := h₂.tells hg (Or.inr hnil) .root (hmono _ _ hp)
      exact Ends.pure (by rw [hv, htells.value_eq])
    · rw [hnew, List.append_nil] at he
      exact (hlt e he).1
  unfold Ends at hends
  unfold build
  rw [StateT.run'_eq]
  cases hrun : (buildFrom r root).run s with
  | error e =>
    rw [hrun] at hends
    exact hends.symm
  | ok a =>
    rw [hrun] at hends
    exact hends.symm

end TreePaths.Yaml
