import TreePaths.Proofs.Yaml.Making

/-!
Filling the pieces that are made empty: when a piece is filled, it holds what its node's plan asks
for.
-/

namespace TreePaths.Yaml

theorem Role.tag_of_ne {ρ : Role} {t : Tag} (h : t ≠ .value) : ρ.tag t = t := by
  cases ρ with
  | item => rfl
  | key | name => cases t <;> first | rfl | exact absurd rfl h

theorem Role.tag_or (ρ : Role) (t : Tag) : ρ.tag t = t ∨ t = .value ∧ ρ.tag t = .str := by
  by_cases h : t = .value
  · subst h
    cases ρ with
    | item => exact Or.inl rfl
    | key | name => exact Or.inr ⟨rfl, rfl⟩
  · exact Or.inl (tag_of_ne h)

theorem Role.tag_eq_localTag {ρ : Role} {t : Tag} {text : String} :
    ρ.tag t = .localTag text ↔ t = .localTag text := by
  cases ρ <;> cases t <;> simp [Role.tag]

namespace Plan

/-- A plan for a part that can be compared, or for one that is annotated. -/
def isLoose : Plan → Bool
  | scalar .. | annotated .. => true
  | _ => false

theorem isKey_value {q : Plan} {same : NodeId → NodeId → Bool} {f : Role × NodeId → Option Value}
    (hq : q.isLoose = false) {v : Value} (hv : q.value same f = some v) : v.isKey = false := by
  cases q with
  | scalar | annotated => cases hq
  | list | pairs | set | map | struct =>
    obtain ⟨_, -, rfl⟩ := Option.map_eq_some_iff.1 hv
    simp [Value.isKey]

/-- A piece that holds what such a plan asks for is a collection. -/
theorem Filled.isAnnotated {g : Graph} {r : Reading} {s : Site} {q : Plan} {x : Piece}
    (h : q.Filled g r s x) : q.isLoose = false ∧ x.isAnnotated = false := by
  cases q with
  | scalar | annotated => exact h.elim
  | list | pairs | set | map | struct =>
    obtain ⟨_, rfl, -⟩ := h
    exact ⟨rfl, rfl⟩

end Plan

/-- A part that is no piece can be a key, and is compared as it is. -/
theorem Draft.key_of_isPiece {d : Draft} {p : Part} (hp : p.isPiece = false) :
    d.isCollection p = false ∧ d.isKey p = true ∧ ∀ q, d.sameKey p q = p.same q := by
  cases p with
  | piece => cases hp
  | scalar | nan => exact ⟨rfl, rfl, fun _ => by simp [sameKey]⟩

namespace Graph

variable {g : Graph} {r : Reading} {ρ : Role} {n : NodeId}

/-- Only local tags annotate. -/
theorem isLocal_of_plan {p : Plan} {as : List String}
    (h : g.plan r (ρ, n) = some (.annotated p as)) : (g.tag n).isLocal = true := by
  unfold plan planAs at h
  split at h
  · split at h
    · cases h
    · obtain ⟨text, -, hread⟩ := Option.bind_eq_some_iff.1 h
      obtain ⟨v, -, heq⟩ := Option.map_eq_some_iff.1 hread
      cases heq
  · split at h
    · cases h
    · cases h
    · cases h
    · obtain ⟨es, -, heq⟩ := Option.map_eq_some_iff.1 h
      cases heq
    · cases r with
      | tree | data =>
        obtain ⟨es, -, heq⟩ := Option.map_eq_some_iff.1 h
        cases heq
    · rename_i ht
      rw [Role.tag_eq_localTag.1 ht]
      rfl
    · cases h

theorem planAs_seq : g.planAs r .seq n =
    match g.content n with | .sequence ns => some (.list ns) | _ => none := by
  simp only [planAs, scalarReader?]
  cases g.content n <;> rfl

theorem planAs_pairs {t : Tag} (ht : t = .omap ∨ t = .pairs) : g.planAs r t n =
    match g.content n with | .sequence ns => some (.pairs (ns.map g.single?)) | _ => none := by
  rcases ht with rfl | rfl <;> simp only [planAs, scalarReader?] <;> cases g.content n <;> rfl

theorem planAs_set : g.planAs r .set n = (g.merged n).map .set := rfl

theorem planAs_map : g.planAs .data .map n = (g.merged n).map .map := rfl

end Graph

namespace Site

variable {g : Graph} {r : Reading} {root : NodeId} {rank : NodeId → Nat}
  {work todo : List (NodeId × Nat)} {β : Nat} {s s' : Site} {n : NodeId} {named : Bool} {ρ : Role}
  {scope : Scope} {mk : Scope → NodeId → Build Part}

/-- The tags under which a collection is made empty. -/
theorem emptyPiece?_cases {t : Tag} {p : Piece} (h : emptyPiece? r t = some p) :
    t = .seq ∧ p = .list [] ∨ (t = .omap ∨ t = .pairs) ∧ p = .pairs [] ∨ t = .set ∧ p = .set [] ∨
      r = .data ∧ t = .map ∧ p = .map [] := by
  cases t with
  | seq => exact .inl ⟨rfl, (Option.some.inj h).symm⟩
  | omap => exact .inr (.inl ⟨.inl rfl, (Option.some.inj h).symm⟩)
  | pairs => exact .inr (.inl ⟨.inr rfl, (Option.some.inj h).symm⟩)
  | set => exact .inr (.inr (.inl ⟨rfl, (Option.some.inj h).symm⟩))
  | map =>
    cases r with
    | tree => cases h
    | data => exact .inr (.inr (.inr ⟨rfl, rfl, (Option.some.inj h).symm⟩))
  | null | bool | int | float | binary | timestamp | str | merge | value | localTag | unknown =>
    cases h

/-- What is made empty is a collection. -/
theorem isLoose_of_emptyPiece? {t : Tag} (ht : (emptyPiece? r t).isSome = true) {q : Plan}
    (hq : g.planAs r t n = some q) : q.isLoose = false := by
  obtain ⟨p, hp⟩ := Option.isSome_iff_exists.1 ht
  rcases emptyPiece?_cases hp with ⟨rfl, -⟩ | ⟨ht, -⟩ | ⟨rfl, -⟩ | ⟨rfl, rfl, -⟩
  · rw [Graph.planAs_seq] at hq
    split at hq <;> cases hq
    rfl
  · rw [Graph.planAs_pairs ht] at hq
    split at hq <;> cases hq
    rfl
  · obtain ⟨es, -, rfl⟩ := Option.map_eq_some_iff.1 hq
    rfl
  · obtain ⟨es, -, rfl⟩ := Option.map_eq_some_iff.1 hq
    rfl

section InOrder

variable (hg : g.InOrder r root rank)

include hg

/-- The pairs of a list of pairs are not touched by merging. -/
theorem single_content (h : Inv g r root rank work todo s)
    (hn : g.Merged r root n → ∀ e ∈ g.entries n, g.isMerge e = false) :
    s.graph.content n = g.content n := by
  rcases h.edited.content n (Nat.lt_succ_of_le (hg.ranked.le n)) with hsame | ⟨hmerged, es, hes,
    hcontent, -⟩
  · exact hsame
  · obtain ⟨raw, hraw⟩ := Graph.isMapping_iff.1 (hg.ranked.isMapping_of_merged hes)
    have hnone : raw.filter g.isMerge = [] := by
      rw [List.filter_eq_nil_iff]
      intro e he
      rw [hn hmerged e (by rwa [Graph.entries_of_content hraw])]
      exact Bool.false_ne_true
    obtain ⟨hown, hsources⟩ := Graph.sources_of_none hnone
    rw [hg.ranked.merged_mapping hraw, hown, hsources] at hes
    cases hes
    exact hcontent.trans hraw.symm

theorem singleEntry_leads (h : Inv g r root rank work todo s)
    (hn : g.Merged r root n → ∀ e ∈ g.entries n, g.isMerge e = false)
    (hlost : g.single? n = none → g.meaning r (.item, root) = none) :
    Leads g r root rank work todo [] 0 s (singleEntry n) fun e _ => g.single? n = some e := by
  unfold singleEntry
  apply Ends.get_bind
  rw [single_content hg h hn]
  unfold Graph.single? at hlost ⊢
  cases hc : g.content n with
  | mapping es =>
    rw [hc] at hlost
    cases es with
    | nil => exact Ends.throw (hlost rfl)
    | cons e es =>
      cases es with
      | nil => exact Leads.pure h rfl
      | cons _ _ => exact Ends.throw (hlost rfl)
  | scalar text plain =>
    rw [hc] at hlost
    exact Ends.throw (hlost rfl)
  | sequence ns =>
    rw [hc] at hlost
    exact Ends.throw (hlost rfl)

/-- The pairs are added behind those that are there. -/
theorem fillPairs_leads (hmk : Makes g r root rank mk β) (hscope : Suits rank scope named β)
    {ns : List NodeId} (hns : ∀ m ∈ ns, ∀ e, g.single? m = some e →
      (rank e.1 < β ∧ g.Built r root named .item e.1) ∧
        rank e.2 < β ∧ g.Built r root named .item e.2)
    (hmerged : ∀ m ∈ ns, g.Merged r root m → ∀ e ∈ g.entries m, g.isMerge e = false)
    (hlost : ∀ m ∈ ns, g.single? m = none → g.meaning r (.item, root) = none) {k : Nat}
    (hk : (n, k) ∈ work) {ds : List (Part × Part)} (hpiece : s.draft.piece k = .pairs ds)
    (h : Inv g r root rank work todo s) :
    Leads g r root rank work todo [k] β s (fillPairs mk scope k ns) fun _ s' =>
      ∃ ds', s'.draft.piece k = .pairs (ds ++ ds') ∧
        List.Forall₂ (fun o d => ∃ e, o = some e ∧ s'.Row e d) (ns.map g.single?) ds' := by
  induction ns generalizing s ds with
  | nil => exact Leads.pure h ⟨[], by rw [hpiece, List.append_nil], .nil⟩
  | cons m ms ih =>
    have hsize : ∀ {s' : Site}, Inv g r root rank work todo s' → k < s'.draft.size := fun h' =>
      (h'.known (n, k) (by rw [List.append_assoc]; exact List.mem_append_left _ hk)).1
    unfold fillPairs
    apply Ends.bind ((singleEntry_leads hg h (hmerged m List.mem_cons_self)
      (hlost m List.mem_cons_self)).weaken (fun _ => id) (Nat.zero_le β))
    rintro ⟨x, v⟩ s₁ ⟨h₁, hgrows₁, he⟩
    obtain ⟨⟨hklt, hkbuilt⟩, hvlt, hvbuilt⟩ := hns m List.mem_cons_self _ he
    apply Ends.bind (hmk _ _ _ _ x _ s₁ hklt h₁ hkbuilt hscope fun hne => absurd rfl hne)
    rintro p s₂ ⟨h₂, hgrows₂, hp⟩
    apply Ends.bind (hmk _ _ _ _ v _ s₂ hvlt h₂ hvbuilt hscope fun hne => absurd rfl hne)
    rintro q s₃ ⟨h₃, hgrows₃, hq⟩
    have hgrows : Grows rank [] β s s₃ := (hgrows₁.trans hgrows₂).trans hgrows₃
    have hpiece₃ : s₃.draft.piece k = .pairs ds := (hgrows.piece k (hsize h) nofun).trans hpiece
    obtain ⟨h₄, hgrows₄⟩ := h₃.setPiece hk (x := .pairs (ds ++ [(p, q)])) rfl
    have hadd : s₃.draft.addPair k (p, q) = s₃.draft.setPiece k (.pairs (ds ++ [(p, q)])) := by
      rw [Draft.addPair, hpiece₃]
    apply Ends.modify_bind
    show Ends _ (fillPairs mk scope k ms) { s₃ with draft := s₃.draft.addPair k (p, q) } _
    rw [hadd]
    have hset := (Draft.piece_setPiece (x := .pairs (ds ++ [(p, q)])) (l := k) (hsize h₃)).trans
      (if_pos rfl)
    refine Ends.mono (ih (fun m' hm' => hns m' (List.mem_cons_of_mem m hm'))
      (fun m' hm' => hmerged m' (List.mem_cons_of_mem m hm'))
      (fun m' hm' => hlost m' (List.mem_cons_of_mem m hm')) hset h₄) ?_
    rintro - s₅ ⟨h₅, hgrows₅, ds', hds', hrows⟩
    have hgrows₄ := hgrows₄.weaken (fun _ => id) (Nat.zero_le β)
    have hgrows : Grows rank [k] β s s₃ := hgrows.weaken nofun (Nat.le_refl β)
    refine ⟨h₅, (hgrows.trans hgrows₄).trans hgrows₅, (p, q) :: ds', ?_, ?_⟩
    · rw [hds', List.append_assoc]
      rfl
    · rw [List.map_cons, he]
      refine .cons ⟨(x, v), rfl, ?_, ?_⟩ hrows
      · exact hgrows₅.made _ _ (hgrows₄.made _ _ (hgrows₃.made _ _ hp))
      · exact hgrows₅.made _ _ (hgrows₄.made _ _ hq)

/-- The part of a key that has been made can be compared, or it is a collection. -/
theorem key_of_madeOf (h : Inv g r root rank work todo s) (hlocal : (g.tag n).isLocal = false)
    {p : Part} (hp : s.madeOf n = some p) :
    g.keyPart? r n = some p ∨
      s.draft.isCollection p = true ∧ ∀ k, g.meaning r (.key, n) = some k → k.isKey = false := by
  have hcollection : ∀ {k : Nat}, (∀ q, g.plan r (.key, n) = some q → q.isLoose = false) →
      p = .piece k → (s.draft.piece k).isAnnotated = false →
      s.draft.isCollection p = true ∧
        ∀ k, g.meaning r (.key, n) = some k → k.isKey = false := by
    rintro k hloose rfl hpiece
    refine ⟨by rw [Draft.isCollection_piece, hpiece]; rfl, fun v hv => ?_⟩
    rw [hg.ranked.meaning_eq] at hv
    obtain ⟨q, hq, hv⟩ := Option.bind_eq_some_iff.1 hv
    exact Plan.isKey_value (hloose q hq) hv
  rcases h.drawn n p hp with ⟨k, hk, hmem, -, hempty⟩ | ⟨q, hq, hdrawn⟩
  · have hvalue : g.tag n ≠ .value := fun hvalue => by
      rw [hvalue] at hempty
      cases hempty
    refine Or.inr (hcollection (fun q hq => isLoose_of_emptyPiece? (n := n) (g := g) hempty ?_) hk
      (h.known _ hmem).2)
    rwa [Graph.plan, Role.tag_of_ne hvalue] at hq
  · have hcollection := fun {k : Nat} (hq' : q.isLoose = false) =>
      hcollection (k := k) fun q' hq'' => Option.some.inj (hq''.symm.trans hq) ▸ hq'
    cases q with
    | scalar text v =>
      refine Or.inl ?_
      rw [Graph.keyPart?, hq]
      exact congrArg some hdrawn.1.symm
    | annotated q as =>
      rw [Graph.isLocal_of_plan hq] at hlocal
      cases hlocal
    | list | pairs | set | map | struct =>
      obtain ⟨k, hk, -, hfilled⟩ := hdrawn
      exact Or.inr (hcollection hfilled.isAnnotated.1 hk hfilled.isAnnotated.2)

def KeyRow (g : Graph) (r : Reading) (s : Site) (e : Entry) (d : Part × Part) : Prop :=
  (s.madeOf e.1 = some d.1 ∧ g.keyPart? r e.1 = some d.1) ∧ s.madeOf e.2 = some d.2

omit hg in
theorem KeyRow.row {e : Entry} {d : Part × Part} (h : KeyRow g r s e d) : s.Row e d :=
  ⟨h.1.1, h.2⟩

omit hg in
theorem KeyRow.mono {e : Entry} {d : Part × Part} (h : KeyRow g r s e d)
    (hmade : ∀ n p, s.madeOf n = some p → s'.madeOf n = some p) : KeyRow g r s' e d :=
  ⟨⟨hmade _ _ h.1.1, h.1.2⟩, hmade _ _ h.2⟩

omit hg in
theorem isPiece_of_keyPart? {p : Part} (hp : g.keyPart? r n = some p) : p.isPiece = false := by
  obtain ⟨text, v, -, rfl, -⟩ := Graph.keyPart?_eq_some hp
  unfold scalarPart
  split <;> rfl

omit hg in
theorem keyRows_insertBy {e : Entry} {d : Part × Part} (h : KeyRow g r s e d) {es : List Entry}
    {ds : List (Part × Part)} (hrows : List.Forall₂ (KeyRow g r s) es ds) (draft : Draft) :
    List.Forall₂ (KeyRow g r s) (Value.insertBy (g.sameKey r) e.1 e.2 es)
      (Value.insertBy draft.sameKey d.1 d.2 ds) := by
  refine insertBy_related (K := fun k p => s.madeOf k = some p ∧ g.keyPart? r k = some p)
    (R := fun v p => s.madeOf v = some p) (fun k l p q hk hl => ?_) h.1 h.2 hrows
  rw [(Draft.key_of_isPiece (isPiece_of_keyPart? hk.2)).2.2, Graph.sameKey, hk.2, hl.2]

/-- The entries of a map are made one by one, and put to those that are there. -/
theorem makeEntries_leads (hmk : Makes g r root rank mk β) (hscope : Suits rank scope named β)
    {es : List Entry} (hes : ∀ e ∈ es, (rank e.1 < β ∧ g.Built r root named .key e.1 ∧
      (g.tag e.1).isLocal = false) ∧ rank e.2 < β ∧ g.Built r root named .item e.2)
    (hlost : ∀ e ∈ es, (∀ k, g.meaning r (.key, e.1) = some k → k.isKey = false) →
      g.meaning r (.item, root) = none)
    {done : List Entry} {ds : List (Part × Part)} (hdone : List.Forall₂ (KeyRow g r s) done ds)
    (h : Inv g r root rank work todo s) (htag : ∀ e ∈ es, s.graph.tag e.1 ≠ .value) :
    Leads g r root rank work todo [] β s (makeEntries mk scope ds es) fun ds' s' =>
      (∀ e ∈ es, (∃ d, s'.Row e d) ∧ ∃ p, g.keyPart? r e.1 = some p) ∧
        List.Forall₂ (KeyRow g r s')
          (es.foldl (fun done e => Value.insertBy (g.sameKey r) e.1 e.2 done) done) ds' := by
  induction es generalizing s done ds with
  | nil => exact Leads.pure h ⟨nofun, hdone⟩
  | cons e es ih =>
    obtain ⟨k, v⟩ := e
    obtain ⟨⟨hklt, hkbuilt, hlocal⟩, hvlt, hvbuilt⟩ := hes _ List.mem_cons_self
    unfold makeEntries
    apply Leads.bind (hmk _ _ _ _ k _ s hklt h hkbuilt hscope fun _ => htag _ List.mem_cons_self)
    intro p s₁ h₁ hgrows₁ hp
    apply Ends.get_bind
    rcases key_of_madeOf hg h₁ hlocal hp with hkey | ⟨hcollection, hlostkey⟩
    · rw [(Draft.key_of_isPiece (isPiece_of_keyPart? hkey)).1]
      apply Leads.bind (hmk _ _ _ _ v _ s₁ hvlt h₁ hvbuilt hscope fun hne => absurd rfl hne)
      intro q s₂ h₂ hgrows₂ hq
      apply Ends.get_bind
      show Ends _ (if (!s₂.draft.isKey p) = true then throw Fault.key >>= fun _ =>
          makeEntries mk scope (Value.insertBy s₂.draft.sameKey p q ds) es
        else makeEntries mk scope (Value.insertBy s₂.draft.sameKey p q ds) es) s₂ _
      rw [(Draft.key_of_isPiece (isPiece_of_keyPart? hkey)).2.1]
      have hgrows := hgrows₁.trans hgrows₂
      have hrow : KeyRow g r s₂ (k, v) (p, q) := ⟨⟨hgrows₂.made _ _ hp, hkey⟩, hq⟩
      have hdone' := keyRows_insertBy hrow (hdone.imp fun _ _ hd => hd.mono hgrows.made) s₂.draft
      refine Leads.mono (ih (fun e he => hes e (List.mem_cons_of_mem _ he))
        (fun e he => hlost e (List.mem_cons_of_mem _ he)) hdone' h₂
        fun e he => hgrows.tag_ne (htag e (List.mem_cons_of_mem _ he))) ?_
      rintro ds' s₃ - hgrows₃ ⟨hall, hrows⟩
      refine ⟨fun e he => ?_, hrows⟩
      rcases List.mem_cons.1 he with rfl | he
      · exact ⟨⟨_, hrow.row.mono hgrows₃.made⟩, p, hkey⟩
      · exact hall e he
    · rw [if_pos hcollection]
      exact Ends.throw (hlost _ List.mem_cons_self hlostkey)

theorem items_ends (h : Inv g r root rank work todo s) {L : Prop}
    (hlost : (∀ ns, g.content n ≠ .sequence ns) → L) :
    Ends L (items n) s fun ns s' => s' = s ∧ g.content n = .sequence ns := by
  unfold items
  apply Ends.get_bind
  cases hc : g.content n with
  | sequence ns =>
    rw [content_eq hg h (by rw [Graph.isMapping, hc]), hc]
    exact Ends.pure ⟨rfl, rfl⟩
  | scalar text plain =>
    rw [content_eq hg h (by rw [Graph.isMapping, hc]), hc]
    exact Ends.throw (hlost fun ns hns => by cases hc.symm.trans hns)
  | mapping raw =>
    have hmap : g.isMapping n = true := Graph.isMapping_iff.2 ⟨raw, hc⟩
    obtain ⟨es, hes⟩ := Graph.isMapping_iff.1 ((isMapping_eq hg h).trans hmap)
    rw [hes]
    exact Ends.throw (hlost fun ns hns => by cases hc.symm.trans hns)

theorem mapEntries_leads (hn : g.Built r root named ρ n)
    (hmerges : (ρ.tag (g.tag n)).merges = true)
    (hlost : g.merged n = none → g.meaning r (.item, root) = none)
    (h : Inv g r root rank work todo s) :
    Leads g r root rank work todo [] 0 s (mapEntries n) fun es s' =>
      g.merged n = some es ∧ ∀ e ∈ es, s'.graph.tag e.1 ≠ .value := by
  unfold mapEntries
  apply Ends.get_bind
  show Ends _ (if (!s.graph.isMapping n) = true then throw Fault.tag >>= fun _ => structEntries n
    else structEntries n) s _
  rw [isMapping_eq hg h]
  cases hmap : g.isMapping n with
  | false =>
    refine Ends.throw (hlost ?_)
    cases hes : g.merged n with
    | none => rfl
    | some es => exact absurd (hg.ranked.isMapping_of_merged hes) (by rw [hmap]; exact nofun)
  | true =>
    obtain ⟨raw, hraw⟩ := Graph.isMapping_iff.1 hmap
    have hfields : g.fieldEntries n = g.merged n := by rw [Graph.fieldEntries, hraw]
    rw [← hfields] at hlost ⊢
    exact structEntries_leads hg hn hmerges hlost h

/-- The members of a set or map are made, under keys of their own. -/
theorem fillMembers_leads (hmk : Makes g r root rank mk (rank n))
    (hscope : Suits rank scope named (rank n)) (hn : g.Built r root named ρ n)
    (hmerges : (ρ.tag (g.tag n)).merges = true) {w : List Entry → Plan}
    (huses : ∀ es, (w es).uses = es.flatMap fun e => [(.key, e.1), (.item, e.2)])
    (hvalue : ∀ es same f, Plan.members same f es = none → (w es).value same f = none)
    (hplan : g.plan r (ρ, n) = (g.merged n).map w) {k : Nat} (hk : (n, k) ∈ work)
    {x : List (Part × Part) → Piece} (hx : ∀ ds, (x ds).isAnnotated = false)
    (hfilled : ∀ es ds (s' : Site), s'.Members g r es ds → (w es).Filled g r s' (x ds))
    (h : Inv g r root rank work todo s) :
    Leads g r root rank work todo [k] (rank n) s (do
        let es ← makeEntries mk scope [] (← mapEntries n)
        change (·.setPiece k (x es))) fun _ s' =>
      ∃ q, g.plan r (ρ, n) = some q ∧ q.Filled g r s' (s'.draft.piece k) := by
  have hentries := mapEntries_leads hg hn hmerges
    (fun hnone => lost_of_none hg hn (by rw [hplan, hnone]; rfl)) h
  apply Leads.bind (hentries.weaken nofun (Nat.zero_le _))
  rintro es s₁ h₁ - ⟨hes, htag⟩
  rw [hes, Option.map_some] at hplan
  have huse : ∀ e ∈ es, (.key, e.1) ∈ (w es).uses ∧ (.item, e.2) ∈ (w es).uses := fun e he => by
    rw [huses]
    exact Plan.mem_uses_of_mem he
  have hbuilt : ∀ e ∈ es, (rank e.1 < rank n ∧ g.Built r root named .key e.1 ∧
      (g.tag e.1).isLocal = false) ∧ rank e.2 < rank n ∧ g.Built r root named .item e.2 := by
    intro e he
    have hkey := hn.use hplan (huse e he).1
    have hitem := hn.use hplan (huse e he).2
    rw [decide_eq_false nofun, Bool.or_false] at hkey hitem
    obtain ⟨m, -, hem⟩ := hg.ranked.mem_merged hes he
    exact ⟨⟨rank_lt_of_use hg hplan (huse e he).1, hkey,
      hg.keys m e (Graph.not_isMerge_of_own hem).1⟩, rank_lt_of_use hg hplan (huse e he).2, hitem⟩
  have hlost : ∀ e ∈ es, (∀ k, g.meaning r (.key, e.1) = some k → k.isKey = false) →
      g.meaning r (.item, root) = none := by
    intro e he hkey
    apply lost_of_none hg hn
    rw [hplan]
    apply hvalue
    unfold Plan.members
    rw [mapM_eq_none he]
    · rfl
    · unfold Plan.member
      cases hv : g.meaning r (.key, e.1) with
      | none => rfl
      | some v => rw [Option.bind_some, hkey v hv]; rfl
  have hmade := makeEntries_leads hg hmk hscope hbuilt hlost .nil h₁ htag
  apply Leads.bind (hmade.weaken nofun (Nat.le_refl _))
  rintro ds s₂ h₂ - ⟨hall, hrows⟩
  obtain ⟨h₃, hgrows⟩ := h₂.setPiece hk (hx ds)
  have hlt := (h₂.known (n, k) (by rw [List.append_assoc]; exact List.mem_append_left _ hk)).1
  refine ⟨h₃, hgrows.weaken (fun _ => id) (Nat.zero_le _), w es, hplan, ?_⟩
  rw [(Draft.piece_setPiece hlt).trans (if_pos rfl)]
  exact hfilled es ds _ ⟨hall, hrows.imp fun _ _ => KeyRow.row⟩

theorem fillList_leads (hmk : Makes g r root rank mk (rank n))
    (hscope : Suits rank scope named (rank n)) (hn : g.Built r root named ρ n) {ns : List NodeId}
    (hplan : g.plan r (ρ, n) = some (.list ns)) {k : Nat} (hk : (n, k) ∈ work)
    (h : Inv g r root rank work todo s) :
    Leads g r root rank work todo [k] (rank n) s (do
        let parts ← ns.mapM (mk scope)
        change (·.setPiece k (.list parts))) fun _ s' =>
      (Plan.list ns).Filled g r s' (s'.draft.piece k) := by
  have hitems : ∀ c ∈ ns, rank c < rank n ∧ g.Built r root named .item c := by
    intro c hc
    have huse : (.item, c) ∈ (Plan.list ns).uses := List.mem_map_of_mem hc
    have hbuilt := hn.use hplan huse
    rw [decide_eq_false nofun, Bool.or_false] at hbuilt
    exact ⟨rank_lt_of_use hg hplan huse, hbuilt⟩
  apply Leads.bind ((items_leads hmk hscope ns hitems h).weaken nofun (Nat.le_refl _))
  rintro ps s₁ h₁ - hps
  obtain ⟨h₂, hgrows⟩ := h₁.setPiece hk (x := .list ps) rfl
  have hlt := (h₁.known (n, k) (by rw [List.append_assoc]; exact List.mem_append_left _ hk)).1
  refine ⟨h₂, hgrows.weaken (fun _ => id) (Nat.zero_le _), ps, ?_, hps⟩
  exact (Draft.piece_setPiece hlt).trans (if_pos rfl)

theorem fillAllPairs_leads (hmk : Makes g r root rank mk (rank n))
    (hscope : Suits rank scope named (rank n)) (hn : g.Built r root named ρ n)
    (ht : g.tag n = .omap ∨ g.tag n = .pairs) {ns : List NodeId}
    (hc : g.content n = .sequence ns)
    (hplan : g.plan r (ρ, n) = some (.pairs (ns.map g.single?))) {k : Nat} (hk : (n, k) ∈ work)
    (hpiece : s.draft.piece k = .pairs []) (h : Inv g r root rank work todo s) :
    Leads g r root rank work todo [k] (rank n) s (fillPairs mk scope k ns) fun _ s' =>
      (Plan.pairs (ns.map g.single?)).Filled g r s' (s'.draft.piece k) := by
  have hentries : ∀ m ∈ ns, ∀ e, g.single? m = some e →
      (rank e.1 < rank n ∧ g.Built r root named .item e.1) ∧
        rank e.2 < rank n ∧ g.Built r root named .item e.2 := by
    intro m hm e he
    have hmem : e ∈ (ns.map g.single?).filterMap id :=
      List.mem_filterMap.2 ⟨_, List.mem_map_of_mem hm, he⟩
    have huse := Plan.mem_uses_of_mem (ρ := .item) hmem
    have hkey := hn.use hplan huse.1
    have hitem := hn.use hplan huse.2
    rw [decide_eq_false nofun, Bool.or_false] at hkey hitem
    exact ⟨⟨rank_lt_of_use hg hplan huse.1, hkey⟩, rank_lt_of_use hg hplan huse.2, hitem⟩
  have hlost : ∀ m ∈ ns, g.single? m = none → g.meaning r (.item, root) = none := by
    intro m hm hnone
    apply lost_of_none hg hn
    rw [hplan, Option.bind_some, Plan.value, mapM_eq_none (List.mem_map_of_mem hm)]
    · rfl
    · rw [hnone]
      rfl
  refine Leads.mono (fillPairs_leads hg hmk hscope hentries
    (fun m hm hmerged => hg.steady.pairs n ns named ρ hn ht hc m hm hmerged) hlost hk hpiece h) ?_
  rintro - s' - - ⟨ds, hds, hrows⟩
  exact ⟨ds, hds, hrows⟩

/-- A node whose plan is for the items of a sequence is filled with what they ask for. -/
theorem fillSequence_leads (hn : g.Built r root named ρ n) {f : List NodeId → Plan}
    (hplan : g.plan r (ρ, n) =
      match g.content n with | .sequence ns => some (f ns) | _ => none)
    {k : Nat} {body : List NodeId → Build Unit}
    (hbody : ∀ ns, g.content n = .sequence ns → g.plan r (ρ, n) = some (f ns) →
      Leads g r root rank work todo [k] (rank n) s (body ns) fun _ s' =>
        (f ns).Filled g r s' (s'.draft.piece k))
    (h : Inv g r root rank work todo s) :
    Leads g r root rank work todo [k] (rank n) s (do body (← items n)) fun _ s' =>
      ∃ q, g.plan r (ρ, n) = some q ∧ q.Filled g r s' (s'.draft.piece k) := by
  have hitems : Ends (g.meaning r (.item, root) = none) (items n) s fun ns s' =>
      s' = s ∧ g.content n = .sequence ns := by
    refine items_ends hg h fun hnone => lost_of_none hg hn ?_
    rw [hplan]
    split
    next ns hns => exact absurd hns (hnone ns)
    next => rfl
  apply Ends.bind hitems
  rintro ns _ ⟨rfl, hc⟩
  rw [hc] at hplan
  exact (hbody ns hc hplan).mono fun _ _ _ _ hfilled => ⟨_, hplan, hfilled⟩

/-- A piece that has been made empty for a node is filled with what the node's plan asks for. -/
theorem fill_leads (hmk : Makes g r root rank mk (rank n))
    (hscope : Suits rank scope named (rank n)) (hn : g.Built r root named ρ n) {k : Nat}
    (hk : (n, k) ∈ work) (hempty : emptyPiece? r (g.tag n) = some (s.draft.piece k))
    (h : Inv g r root rank work todo s) :
    Leads g r root rank work todo [k] (rank n) s (fill mk scope n k) fun _ s' =>
      ∃ q, g.plan r (ρ, n) = some q ∧ q.Filled g r s' (s'.draft.piece k) := by
  have htag : ρ.tag (g.tag n) = g.tag n := Role.tag_of_ne fun hvalue => by
    rw [hvalue] at hempty
    cases hempty
  have hplan : g.plan r (ρ, n) = g.planAs r (g.tag n) n := by rw [Graph.plan, htag]
  unfold fill
  apply Ends.get_bind
  rcases emptyPiece?_cases hempty with
    ⟨ht, hpiece⟩ | ⟨ht, hpiece⟩ | ⟨ht, hpiece⟩ | ⟨rfl, ht, hpiece⟩ <;> rw [hpiece]
  · rw [ht, Graph.planAs_seq] at hplan
    exact fillSequence_leads hg hn hplan
      (fun ns _ hlist => fillList_leads hg hmk hscope hn hlist hk h) h
  · rw [Graph.planAs_pairs ht] at hplan
    exact fillSequence_leads hg hn hplan
      (fun ns hc hpairs => fillAllPairs_leads hg hmk hscope hn ht hc hpairs hk hpiece h) h
  · rw [ht, Graph.planAs_set] at hplan
    have hfill := fillMembers_leads hg hmk hscope hn (by rw [htag, ht]; rfl) (fun _ => rfl)
      (fun es same f hnone => by rw [Plan.value, hnone]; rfl) hplan hk
      (x := fun ds => .set (ds.map (·.1))) (fun _ => rfl) (fun es ds s' hds => ⟨ds, rfl, hds⟩) h
    exact hfill
  · rw [ht, Graph.planAs_map] at hplan
    have hfill := fillMembers_leads hg hmk hscope hn (by rw [htag, ht]; rfl) (fun _ => rfl)
      (fun es same f hnone => by rw [Plan.value, hnone]; rfl) hplan hk
      (x := .map) (fun _ => rfl) (fun es ds s' hds => ⟨ds, rfl, hds⟩) h
    exact hfill

end InOrder

end Site

end TreePaths.Yaml
