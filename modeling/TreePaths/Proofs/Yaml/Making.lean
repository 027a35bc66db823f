import Mathlib.Data.List.Find
import TreePaths.Proofs.Yaml.Building

/-!
What is made of a node shows what its plan asks for, whatever has been made before; where that
fails, the document has no value.
-/

namespace TreePaths.Yaml.Site

variable {g : Graph} {r : Reading} {root : NodeId} {rank : NodeId → Nat}
  {work todo : List (NodeId × Nat)} {β : Nat} {s : Site} {n : NodeId} {named : Bool} {ρ : Role}
  {scope : Scope} {mk : Scope → NodeId → Build Part}

/-- What is made for the name of a field is made at once, and the nodes around have a higher rank.
-/
def Suits (rank : NodeId → Nat) (scope : Scope) (named : Bool) (β : Nat) : Prop :=
  (named = true → scope.atOnce = true) ∧ ∀ m ∈ scope.around, β ≤ rank m

/-- What a computation gives comes with a state in which building can go on. -/
def Leads (g : Graph) (r : Reading) (root : NodeId) (rank : NodeId → Nat)
    (work todo : List (NodeId × Nat)) (but : List Nat) (β : Nat) {α : Type} (s : Site)
    (x : Build α) (Q : α → Site → Prop) : Prop :=
  Ends (g.meaning r (.item, root) = none) x s fun a s' =>
    Inv g r root rank work todo s' ∧ Grows rank but β s s' ∧ Q a s'

def Makes (g : Graph) (r : Reading) (root : NodeId) (rank : NodeId → Nat)
    (mk : Scope → NodeId → Build Part) (β : Nat) : Prop :=
  ∀ work todo named ρ c scope s, rank c < β → Inv g r root rank work todo s →
    g.Built r root named ρ c → Suits rank scope named β → (ρ ≠ .item → s.graph.tag c ≠ .value) →
    Leads g r root rank work todo [] β s (mk scope c) fun p s' => s'.madeOf c = some p

theorem edit_ends {L : Prop} {α : Type} {x : Graph.Edit α} {Q : α → Graph → Prop}
    (h : Ends L x s.graph Q) :
    Ends L (edit x) s fun a s' => ∃ h', Q a h' ∧ s' = { s with graph := h' } :=
  Ends.iff_settles.2 (edit_settles (Ends.iff_settles.1 h))

namespace Leads

variable {but : List Nat} {α α' : Type} {x : Build α} {Q : α → Site → Prop}

theorem pure (h : Inv g r root rank work todo s) {a : α} (ha : Q a s) :
    Leads g r root rank work todo but β s (Pure.pure a) Q :=
  Ends.pure ⟨h, Grows.refl rank but β s, ha⟩

theorem bind {f : α → Build α'} {R : α' → Site → Prop}
    (hx : Leads g r root rank work todo but β s x Q)
    (hf : ∀ a s', Inv g r root rank work todo s' → Grows rank but β s s' → Q a s' →
      Leads g r root rank work todo but β s' (f a) R) :
    Leads g r root rank work todo but β s (x >>= f) R :=
  Ends.bind hx fun a s' ⟨h', hgrows, ha⟩ =>
    (hf a s' h' hgrows ha).mono fun _ _ ⟨h'', hgrows', hb⟩ => ⟨h'', hgrows.trans hgrows', hb⟩

theorem mono {Q' : α → Site → Prop} (hx : Leads g r root rank work todo but β s x Q)
    (h : ∀ a s', Inv g r root rank work todo s' → Grows rank but β s s' → Q a s' → Q' a s') :
    Leads g r root rank work todo but β s x Q' :=
  Ends.mono hx fun a s' ⟨h', hgrows, ha⟩ => ⟨h', hgrows, h a s' h' hgrows ha⟩

theorem weaken {but' : List Nat} {γ : Nat} (hx : Leads g r root rank work todo but γ s x Q)
    (hbut : ∀ k ∈ but, k ∈ but') (hγ : γ ≤ β) :
    Leads g r root rank work todo but' β s x Q :=
  Ends.mono hx fun _ _ ⟨h', hgrows, ha⟩ => ⟨h', hgrows.weaken hbut hγ, ha⟩

end Leads

/-- A new piece is none of those that are still to be filled. -/
theorem addPiece_leads (x : Piece) (h : Inv g r root rank work todo s) :
    Leads g r root rank work todo [] 0 s (addPiece x) fun k s' =>
      s'.Fixed (work ++ todo ++ s'.waiting) k ∧ s'.draft.piece k = x := by
  obtain ⟨hinv, hgrows⟩ := h.add x [] nofun (Nat.zero_le 1) (fun hne => absurd rfl hne)
  refine ⟨hinv, hgrows, ⟨?_, fun e he => ?_⟩, Draft.piece_add_self⟩
  · show s.draft.size < (s.draft.add x).size
    rw [Draft.size_add]
    exact Nat.lt_succ_self _
  · exact Nat.ne_of_lt (h.known e he).1

theorem items_leads (hmk : Makes g r root rank mk β) (hscope : Suits rank scope named β)
    (ns : List NodeId) (hns : ∀ c ∈ ns, rank c < β ∧ g.Built r root named .item c)
    (h : Inv g r root rank work todo s) :
    Leads g r root rank work todo [] β s (ns.mapM (mk scope)) fun ps s' =>
      List.Forall₂ (fun n p => s'.madeOf n = some p) ns ps := by
  induction ns generalizing s with
  | nil => exact Leads.pure h .nil
  | cons c cs ih =>
    obtain ⟨hlt, hbuilt⟩ := hns c List.mem_cons_self
    rw [List.mapM_cons]
    apply Leads.bind (hmk _ _ _ _ _ _ _ hlt h hbuilt hscope (fun hne => absurd rfl hne))
    intro p s₁ h₁ hgrows₁ hp
    apply Leads.bind (ih (fun d hd => hns d (List.mem_cons_of_mem c hd)) h₁)
    intro ps s₂ h₂ hgrows₂ hps
    exact Leads.pure h₂ (.cons (hgrows₂.made _ _ hp) hps)

theorem entries_leads (hmk : Makes g r root rank mk β) (hscope : Suits rank scope named β)
    (honce : scope.atOnce = true) (es : List Entry)
    (hes : ∀ e ∈ es, (rank e.1 < β ∧ g.Built r root true .name e.1) ∧
      rank e.2 < β ∧ g.Built r root named .item e.2)
    (h : Inv g r root rank work todo s) (htag : ∀ e ∈ es, s.graph.tag e.1 ≠ .value) :
    Leads g r root rank work todo [] β s
      (es.mapM fun (k, v) => return (← mk scope k, ← mk scope v)) fun ds s' =>
        List.Forall₂ s'.Row es ds := by
  induction es generalizing s with
  | nil => exact Leads.pure h .nil
  | cons e es ih =>
    obtain ⟨⟨hklt, hkbuilt⟩, hvlt, hvbuilt⟩ := hes e List.mem_cons_self
    rw [List.mapM_cons]
    refine Leads.bind (Q := fun d s' => s'.Row e d) ?_ ?_
    · apply Leads.bind (hmk _ _ true .name e.1 scope s hklt h hkbuilt ⟨fun _ => honce, hscope.2⟩
        fun _ => htag e List.mem_cons_self)
      intro k s₁ h₁ _ hk
      apply Leads.bind (hmk _ _ _ _ e.2 scope s₁ hvlt h₁ hvbuilt hscope
        (fun hne => absurd rfl hne))
      intro v s₂ h₂ hgrows hv
      exact Leads.pure h₂ ⟨hgrows.made _ _ hk, hv⟩
    · intro d s₁ h₁ hgrows hd
      apply Leads.bind (ih (fun e' he' => hes e' (List.mem_cons_of_mem e he')) h₁
        fun e' he' => hgrows.tag_ne (htag e' (List.mem_cons_of_mem e he')))
      intro ds s₂ h₂ hgrows₂ hds
      exact Leads.pure h₂ (.cons (hd.mono hgrows₂.made) hds)

/-- The fields get the names that their keys stand for. -/
theorem names_ends {L : Prop} {es : List Entry} {ds : List (Part × Part)}
    (hrows : List.Forall₂ s.Row es ds)
    (htells : ∀ e ∈ es, ∀ p, s.madeOf e.1 = some p →
      ∃ k, g.meaning r (.name, e.1) = some k ∧ s.draft.Tells p k)
    (hlost : ∀ e ∈ es, ∀ k, g.meaning r (.name, e.1) = some k → k.isWritable = false → L) :
    Ends L (ds.mapM fun (k, v) => do
        let name := s.draft.shown k
        if name.isWritable then return (name.label, v) else throw .longName : Build _) s
      fun fs s' => s' = s ∧ List.Forall₂ (s.FieldRow g r) es fs := by
  induction hrows with
  | nil => exact Ends.pure ⟨rfl, .nil⟩
  | @cons e d es ds hrow _ ih =>
    obtain ⟨k, hk, hshown⟩ := htells e List.mem_cons_self d.1 hrow.1
    rw [List.mapM_cons]
    refine Ends.bind (Q := fun f s' => s' = s ∧ s.FieldRow g r e f) ?_ ?_
    · show Ends L (if (s.draft.shown d.1).isWritable = true then
        Pure.pure ((s.draft.shown d.1).label, d.2) else throw .longName) s _
      rw [hshown.shown_eq]
      by_cases hw : k.isWritable = true
      · rw [if_pos hw]
        exact Ends.pure ⟨rfl, ⟨k, hk, hw, rfl⟩, hrow.2⟩
      · rw [if_neg hw]
        exact Ends.throw (hlost e List.mem_cons_self k hk (Bool.eq_false_iff.2 hw))
    · rintro f s' ⟨rfl, hf⟩
      apply Ends.bind (ih (fun e' he' => htells e' (List.mem_cons_of_mem e he'))
        fun e' he' => hlost e' (List.mem_cons_of_mem e he'))
      rintro fs s' ⟨rfl, hfs⟩
      exact Ends.pure ⟨rfl, .cons hf hfs⟩

theorem makeScalar_leads {t : Tag} {read : String → Except Fault Value} {text : String}
    (hread : scalarReader? t = some read) {q : Option Plan}
    (hq : q = Graph.scalarPlan read text) (hlost : q = none → g.meaning r (.item, root) = none)
    (h : Inv g r root rank work todo s) :
    Leads g r root rank work todo [] 0 s (makeScalar read n text) fun p s' =>
      ∃ d, q = some d ∧ d.Drawn g r s' (s'.Fixed (work ++ todo ++ s'.waiting)) n p := by
  subst hq
  unfold makeScalar
  refine Ends.bind (Q := fun v s' => s' = s ∧ read text = .ok v) (Ends.lift ?_ ?_) ?_
  · exact fun v hv => ⟨rfl, hv⟩
  · intro e he
    apply hlost
    rw [Graph.scalarPlan, he]
    rfl
  · rintro v _ ⟨rfl, hv⟩
    refine Leads.pure h ⟨.scalar text v, ?_, rfl, isScalar_of_scalarReader? hread hv⟩
    rw [Graph.scalarPlan, hv]
    rfl

section InOrder

variable (hg : g.InOrder r root rank)

include hg

theorem rank_lt_of_use {q : Plan} (hq : g.plan r (ρ, n) = some q) {σ : Role} {c : NodeId}
    (hu : (σ, c) ∈ q.uses) : rank c < rank n :=
  hg.ranked.lt_of_holds (hg.ranked.uses_plan hq hu).1

/-- The document has no value if a node that is built has no plan or no value. -/
theorem lost_of_none (hn : g.Built r root named ρ n)
    (h : (g.plan r (ρ, n)).bind (Plan.value (g.sameKey r) (g.meaning r)) = none) :
    g.meaning r (.item, root) = none :=
  hn.needed hg.ranked ((hg.ranked.meaning_eq _).trans h)

theorem content_eq (h : Inv g r root rank work todo s) (hmap : g.isMapping n = false) :
    s.graph.content n = g.content n :=
  h.edited.content_eq hg.ranked (Nat.lt_succ_of_le (hg.ranked.le n)) hmap

theorem isMapping_eq (h : Inv g r root rank work todo s) :
    s.graph.isMapping n = g.isMapping n :=
  h.edited.isMapping_eq hg.ranked (Nat.lt_succ_of_le (hg.ranked.le n))

/-- A mapping gets its entries after merging. -/
theorem flatten_leads (hn : g.Built r root named ρ n) (hmerges : (ρ.tag (g.tag n)).merges = true)
    (hmap : g.isMapping n = true) (hlost : g.merged n = none → g.meaning r (.item, root) = none)
    (h : Inv g r root rank work todo s) :
    Leads g r root rank work todo [] 0 s (do
        edit (Graph.flatten n)
        return (← get).graph.entries n) fun es s' =>
      g.merged n = some es ∧ ∀ e ∈ es, s'.graph.tag e.1 ≠ .value := by
  have hflat : g.Merged r root n := ⟨named, ρ, n, hn, hmerges, hmap, .refl⟩
  have hends := Graph.flatten_ends hg.ranked hg.document.child_lt
    (fun _ _ hn hm => Graph.Merged.takesFrom hn hm) h.edited
    (Nat.lt_succ_of_le (hg.ranked.le n)) hflat hmap
  apply Ends.bind (edit_ends (hends.lose hlost))
  rintro _ _ ⟨h', ⟨hedited, hchanges, es, hes, hcontent, hkeys⟩, rfl⟩
  obtain ⟨hinv, hgrows⟩ := h.edit hedited hchanges.tag
  apply Ends.get_bind
  apply Ends.pure
  refine ⟨hinv, hgrows, ?_, ?_⟩
  · exact (Graph.entries_of_content hcontent).symm ▸ hes
  · exact (Graph.entries_of_content hcontent).symm ▸ hkeys

theorem structEntries_leads (hn : g.Built r root named ρ n)
    (hmerges : (ρ.tag (g.tag n)).merges = true)
    (hlost : g.fieldEntries n = none → g.meaning r (.item, root) = none)
    (h : Inv g r root rank work todo s) :
    Leads g r root rank work todo [] 0 s (structEntries n) fun es s' =>
      g.fieldEntries n = some es ∧ ∀ e ∈ es, s'.graph.tag e.1 ≠ .value := by
  unfold structEntries
  apply Ends.get_bind
  unfold Graph.fieldEntries at hlost ⊢
  cases hc : g.content n with
  | mapping raw =>
    have hmap : g.isMapping n = true := Graph.isMapping_iff.2 ⟨raw, hc⟩
    obtain ⟨es, hes⟩ := Graph.isMapping_iff.1 ((isMapping_eq hg h).trans hmap)
    rw [hc] at hlost
    rw [hes]
    exact flatten_leads hg hn hmerges hmap hlost h
  | sequence ns =>
    rw [content_eq hg h (by rw [Graph.isMapping, hc]), hc]
    rw [hc] at hlost
    cases ns with
    | nil => exact Leads.pure h ⟨rfl, List.forall_mem_nil _⟩
    | cons c cs => exact Ends.throw (hlost rfl)
  | scalar text plain =>
    rw [content_eq hg h (by rw [Graph.isMapping, hc]), hc]
    rw [hc] at hlost
    by_cases ht : text.isEmpty = true
    · simp only [if_pos ht]
      exact Leads.pure h ⟨rfl, List.forall_mem_nil _⟩
    · simp only [if_neg ht] at hlost ⊢
      exact Ends.throw (hlost trivial)

/-- A struct gets its fields, under the names that their keys stand for. -/
theorem makeStruct_leads (hmk : Makes g r root rank mk (rank n))
    (hscope : Suits rank scope named (rank n)) (hn : g.Built r root named ρ n)
    (hmerges : (ρ.tag (g.tag n)).merges = true) {w : Plan → Plan}
    (huses : ∀ q, (w q).uses = q.uses)
    (hvalue : ∀ q same f, q.value same f = none → (w q).value same f = none)
    (hplan : g.plan r (ρ, n) = (g.fieldEntries n).map fun es => w (.struct es))
    (h : Inv g r root rank work todo s) :
    Leads g r root rank work todo [] (rank n) s (makeStruct mk scope n) fun p s' =>
      ∃ es, g.fieldEntries n = some es ∧
        (Plan.struct es).Drawn g r s' (s'.Fixed (work ++ todo ++ s'.waiting)) n p := by
  unfold makeStruct
  have hentries := structEntries_leads hg hn hmerges
    (fun hnone => lost_of_none hg hn (by rw [hplan, hnone]; rfl)) h
  apply Leads.bind (hentries.weaken (fun _ => id) (Nat.zero_le _))
  rintro es s₁ h₁ - ⟨hes, htag⟩
  rw [hes, Option.map_some] at hplan
  have huse : ∀ e ∈ es, (.name, e.1) ∈ (w (.struct es)).uses ∧
      (.item, e.2) ∈ (w (.struct es)).uses := fun e he => by
    rw [huses]
    exact Plan.mem_uses_of_mem he
  have hname : ∀ e ∈ es, g.Built r root true .name e.1 := fun e he => by
    have hbuilt := hn.use hplan (huse e he).1
    rwa [decide_eq_true rfl, Bool.or_true] at hbuilt
  have hitem : ∀ e ∈ es, g.Built r root named .item e.2 := fun e he => by
    have hbuilt := hn.use hplan (huse e he).2
    rwa [decide_eq_false (by decide), Bool.or_false] at hbuilt
  have hinner : Suits rank { scope with atOnce := true } named (rank n) :=
    ⟨fun _ => rfl, hscope.2⟩
  apply Leads.bind (entries_leads hmk hinner rfl es (fun e he =>
      ⟨⟨rank_lt_of_use hg hplan (huse e he).1, hname e he⟩,
        rank_lt_of_use hg hplan (huse e he).2, hitem e he⟩) h₁ htag)
  intro ds s₂ h₂ _ hds
  apply Ends.get_bind
  have hlost : ∀ e ∈ es, ∀ k, g.meaning r (.name, e.1) = some k → k.isWritable = false →
      g.meaning r (.item, root) = none := by
    intro e he k hk hwritable
    apply lost_of_none hg hn
    rw [hplan]
    apply hvalue
    unfold Plan.value
    rw [mapM_eq_none he]
    · rfl
    · rw [Plan.field, hk, Option.bind_some, if_neg (by rw [hwritable]; exact Bool.false_ne_true)]
  have hnames := names_ends hds
    (fun e he p hp => h₂.tells hg (Or.inl rfl) (hname e he) hp) hlost
  refine Leads.bind (Q := fun fs s' => s' = s₂ ∧ List.Forall₂ (s₂.FieldRow g r) es fs)
    (hnames.mono ?_) ?_
  · rintro fs _ ⟨rfl, hfs⟩
    exact ⟨h₂, Grows.refl rank [] _ _, rfl, hfs⟩
  · rintro fs _ h₃ - ⟨rfl, hfs⟩
    apply Leads.bind ((addPiece_leads (.struct fs) h₃).weaken (fun _ => id) (Nat.zero_le _))
    rintro k s₄ h₄ hgrows ⟨hk, hpiece⟩
    refine Leads.pure h₄ ⟨es, hes, k, rfl, hk, fs, hpiece, ?_⟩
    exact hfs.imp fun _ _ hf => ⟨hf.1, hgrows.made _ _ hf.2⟩

/-- The texts that are needed are not touched by merging. -/
theorem textWithin_eq (h : Inv g r root rank work todo s) (hn : g.Read r root n) (fuel : Nat) :
    s.graph.textWithin fuel n = g.textWithin fuel n := by
  induction fuel generalizing n with
  | zero => rfl
  | succ fuel ih =>
    unfold Graph.textWithin
    have hkeys : ∀ e ∈ g.entries n, ¬(g.tag e.1 = .value ∧ g.KeyIn (g.Merged r root) e.1) :=
      fun e he ⟨hvalue, hkey⟩ => (hg.steady.keys e.1 hvalue hkey).2 n hn e he rfl
    rcases h.edited.content n (Nat.lt_succ_of_le (hg.ranked.le n)) with hsame | ⟨hmerged, es, hes,
      hcontent, hvalues⟩
    · rw [hsame]
      cases hc : g.content n with
      | scalar text plain => rfl
      | sequence ns => rfl
      | mapping es =>
        have hentries := Graph.entries_of_content hc
        have htags : ∀ e ∈ es, (s.graph.tag e.1 = .value ↔ g.tag e.1 = .value) := by
          intro e he
          rcases h.edited.tag e.1 with htag | ⟨hvalue, -, hkey⟩
          · rw [htag]
          · exact absurd ⟨hvalue, hkey⟩ (hkeys e (hentries ▸ he))
        have hfind : (es.find? fun e => s.graph.tag e.1 = .value) =
            es.find? fun e => g.tag e.1 = .value :=
          List.find?_congr fun e he => by simp only [htags e he]
        simp only [hfind]
        cases hd : es.find? fun e => g.tag e.1 = .value with
        | none => rfl
        | some e => exact ih (hn.value (hentries ▸ hd))
    · obtain ⟨raw, hraw⟩ := Graph.isMapping_iff.1 (hg.ranked.isMapping_of_merged hes)
      have hentries := Graph.entries_of_content hraw
      have hnone : (raw.find? fun e => g.tag e.1 = .value) = none := by
        rw [List.find?_eq_none]
        intro e he hvalue
        refine hkeys e (hentries ▸ he) ⟨of_decide_eq_true hvalue, n, hmerged, e, ?_, rfl⟩
        rwa [hentries]
      have hnone' : (es.find? fun e => s.graph.tag e.1 = .value) = none := by
        rw [List.find?_eq_none]
        exact fun e he hvalue => hvalues e he (of_decide_eq_true hvalue)
      rw [hcontent, hraw]
      simp only [hnone, hnone']

/-- The part made for a text under the tag of a scalar is what the plan asks for. -/
theorem makeText_leads (hn : g.Built r root named ρ n) {read : String → Except Fault Value}
    (hread : scalarReader? (ρ.tag (g.tag n)) = some read)
    (htag : s.graph.tag n = ρ.tag (g.tag n)) (h : Inv g r root rank work todo s) :
    Leads g r root rank work todo [] 0 s (makeText read n) fun p s' =>
      ∃ q, g.plan r (ρ, n) = some q ∧
        q.Drawn g r s' (s'.Fixed (work ++ todo ++ s'.waiting)) n p := by
  have htext : s.graph.text n = g.text n := by
    unfold Graph.text
    rw [h.edited.size]
    exact textWithin_eq hg h (.built hn (by rw [hread]; rfl)) _
  have hplan : g.plan r (ρ, n) = if ρ.tag (g.tag n) = .timestamp && g.isMapping n then none
      else (g.text n).toOption.bind (Graph.scalarPlan read) := by
    unfold Graph.plan Graph.planAs
    simp only [hread]
  have hlost : g.plan r (ρ, n) = none → g.meaning r (.item, root) = none := fun hnone =>
    lost_of_none hg hn (by rw [hnone]; rfl)
  unfold makeText
  apply Ends.get_bind
  refine Ends.bind (Q := fun text s' => s' = s ∧ g.text n = .ok text) (Ends.lift ?_ ?_) ?_
  · exact fun text ht => ⟨rfl, htext.symm.trans ht⟩
  · intro e he
    rw [htext] at he
    apply hlost
    rw [hplan, he]
    exact ite_self _
  · rintro text _ ⟨rfl, ht⟩
    rw [ht] at hplan
    rw [htag, isMapping_eq hg h]
    by_cases hbad : (ρ.tag (g.tag n) = .timestamp && g.isMapping n) = true
    · rw [if_pos hbad] at hplan ⊢
      exact Ends.throw (hlost hplan)
    · rw [if_neg hbad] at hplan ⊢
      exact makeScalar_leads hread hplan hlost h

omit hg in
/-- A sequence under a local tag becomes a list, which has all its items at once. -/
theorem makeList_leads (hmk : Makes g .tree root rank mk (rank n))
    (hg : g.InOrder .tree root rank) (hscope : Suits rank scope named (rank n))
    (hn : g.Built .tree root named ρ n) {ns : List NodeId} {as : List String}
    (hplan : g.plan .tree (ρ, n) = some (.annotated (.list ns) as))
    (h : Inv g .tree root rank work todo s) :
    Leads g .tree root rank work todo [] (rank n) s (do
        let parts ← ns.mapM (mk { scope with atOnce := true })
        return .piece (← addPiece (.list parts))) fun p s' =>
      (Plan.list ns).Drawn g .tree s' (s'.Fixed (work ++ todo ++ s'.waiting)) n p := by
  have huse : ∀ c ∈ ns, (.item, c) ∈ (Plan.annotated (.list ns) as).uses :=
    fun c hc => List.mem_map_of_mem hc
  have hitems : ∀ c ∈ ns, rank c < rank n ∧ g.Built .tree root named .item c := by
    intro c hc
    have hbuilt := hn.use hplan (huse c hc)
    rw [decide_eq_false (by decide), Bool.or_false] at hbuilt
    exact ⟨rank_lt_of_use hg hplan (huse c hc), hbuilt⟩
  have hinner : Suits rank { scope with atOnce := true } named (rank n) :=
    ⟨fun _ => rfl, hscope.2⟩
  apply Leads.bind (items_leads hmk hinner ns hitems h)
  intro ps s₁ h₁ _ hps
  apply Leads.bind ((addPiece_leads (.list ps) h₁).weaken (fun _ => id) (Nat.zero_le _))
  rintro k s₂ h₂ hgrows ⟨hk, hpiece⟩
  refine Leads.pure h₂ ⟨k, rfl, hk, ps, hpiece, ?_⟩
  exact hps.imp fun _ _ hp => hgrows.made _ _ hp

omit hg in
/-- The part made for the content under a local tag is what the plan asks for. -/
theorem makeContent_leads (hmk : Makes g .tree root rank mk (rank n))
    (hg : g.InOrder .tree root rank) (hscope : Suits rank scope named (rank n))
    (hn : g.Built .tree root named ρ n) {text : String}
    (htag : ρ.tag (g.tag n) = .localTag text)
    (h : Inv g .tree root rank work todo s) :
    Leads g .tree root rank work todo [] (rank n) s (makeContent mk scope n) fun p s' =>
      ∃ q, g.contentPlan n = some q ∧
        q.Drawn g .tree s' (s'.Fixed (work ++ todo ++ s'.waiting)) n p := by
  have hplan : g.plan .tree (ρ, n) =
      (g.contentPlan n).map (.annotated · (annotationParts text)) := by
    unfold Graph.plan Graph.planAs
    simp only [htag]
    rfl
  have hlost : g.contentPlan n = none → g.meaning .tree (.item, root) = none := fun hnone =>
    lost_of_none hg hn (by rw [hplan, hnone]; rfl)
  unfold makeContent
  apply Ends.get_bind
  cases hc : g.content n with
  | scalar text' plain =>
    rw [content_eq hg h (by rw [Graph.isMapping, hc]), hc]
    have hcontent : g.contentPlan n =
        (scalarReader? (scalarTag text' plain)).bind (Graph.scalarPlan · text') := by
      rw [Graph.contentPlan, hc]
    cases hread : scalarReader? (scalarTag text' plain) with
    | none =>
      rw [hread] at hcontent
      simp only [hread]
      exact Ends.throw (hlost hcontent)
    | some read =>
      rw [hread] at hcontent
      simp only [hread]
      exact (makeScalar_leads hread hcontent hlost h).weaken (fun _ => id) (Nat.zero_le _)
  | sequence ns =>
    rw [content_eq hg h (by rw [Graph.isMapping, hc]), hc]
    have hcontent : g.contentPlan n = some (.list ns) := by rw [Graph.contentPlan, hc]
    rw [hcontent, Option.map_some] at hplan
    exact (makeList_leads hmk hg hscope hn hplan h).mono fun p s' _ _ hp => ⟨_, hcontent, hp⟩
  | mapping raw =>
    have hmap : g.isMapping n = true := Graph.isMapping_iff.2 ⟨raw, hc⟩
    obtain ⟨es, hes⟩ := Graph.isMapping_iff.1 ((isMapping_eq hg h).trans hmap)
    have hcontent : g.contentPlan n = (g.fieldEntries n).map .struct := by
      rw [Graph.contentPlan, Graph.fieldEntries, hc]
    rw [hcontent, Option.map_map] at hplan
    rw [hes]
    apply Leads.mono (makeStruct_leads hg hmk hscope hn (by rw [htag]; rfl)
      (w := (.annotated · (annotationParts text))) (fun _ => rfl) (fun q same f hq => ?_) hplan h)
    · rintro p s' - - ⟨ds, hds, hdrawn⟩
      exact ⟨.struct ds, by rw [hcontent, hds]; rfl, hdrawn⟩
    · rw [Plan.value, hq]
      rfl

end InOrder

end TreePaths.Yaml.Site
