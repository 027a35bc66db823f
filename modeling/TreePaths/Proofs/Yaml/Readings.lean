import TreePaths.Proofs.Value.Plain
import TreePaths.Proofs.Yaml.Meaning
import TreePaths.Proofs.Yaml.Relating

/-!
Read as a tree and read as data, a document whose keys are texts gives the same plain data.
-/

namespace TreePaths

namespace Value

theorem isCongruence_plain : IsCongruence fun v w => v.plain = w.plain where
  scalar _ _ := rfl
  list h := by
    rw [plain, plain, plainAll_eq, plainAll_eq, Yaml.map_eq_map_of_forall₂ h fun _ _ => id]
  tuple h := by
    rw [plain, plain, plainAll_eq, plainAll_eq, Yaml.map_eq_map_of_forall₂ h fun _ _ => id]
  set _ := rfl
  map h := by
    rw [plain, plain, plainEntries_eq, plainEntries_eq, Yaml.map_eq_map_of_forall₂ h]
    rintro e d ⟨hk, -, hv⟩
    rw [hk, hv]
  struct h := by
    rw [plain, plain, plainFields_eq, plainFields_eq, Yaml.map_eq_map_of_forall₂ h]
    rintro f g ⟨hname, hv⟩
    rw [hname, hv]

end Value

namespace Yaml

/-- The names of fields are compared instead. -/
def Role.compared : Role → Role
  | .name => .key
  | ρ => ρ

theorem Role.tag_compared (ρ : Role) (t : Tag) : ρ.compared.tag t = ρ.tag t := by
  cases ρ <;> cases t <;> rfl

theorem Role.compared_of_ne {ρ : Role} (h : ρ ≠ .name) : ρ.compared = ρ := by
  cases ρ with
  | name => exact absurd rfl h
  | item | key => rfl

namespace Graph

variable {g : Graph} {r : Reading} {root n m k c : NodeId} {named : Bool} {ρ σ : Role}

/-- The key stands for its text. -/
def IsTextKey (g : Graph) (k : NodeId) : Prop :=
  g.tag k = .str ∨ g.tag k = .value

namespace IsTextKey

theorem plan_eq (hk : g.IsTextKey k) (hρ : ρ ≠ .item) :
    g.plan r (ρ, k) = (g.text k).toOption.map fun s => .scalar s (.str s) := by
  have htag : ρ.tag (g.tag k) = .str := by
    rcases hk with hk | hk <;> rw [hk] <;> cases ρ <;> first | rfl | exact absurd rfl hρ
  rw [plan, htag]
  show (g.text k).toOption.bind (scalarPlan fun text => .ok (.str text)) = _
  cases g.text k <;> rfl

theorem keyPart?_eq (hk : g.IsTextKey k) :
    g.keyPart? r k = (g.text k).toOption.map fun s => .scalar (.str s) := by
  rw [keyPart?, hk.plan_eq (ρ := .key) (by decide)]
  cases g.text k <;> rfl

theorem sameKey_eq (hk : g.IsTextKey k) (hn : g.IsTextKey n) {s t : String}
    (hs : (g.text k).toOption = some s) (ht : (g.text n).toOption = some t) :
    g.sameKey r k n = decide (s = t) := by
  rw [sameKey, hk.keyPart?_eq, hn.keyPart?_eq, hs, ht]
  show (Value.str s).sameKey (.str t) = _
  rw [Value.sameKey]
  rfl

variable {rank : NodeId → Nat} (hr : g.Ranked rank)

include hr

theorem meaning_eq (hk : g.IsTextKey k) (hρ : ρ ≠ .item) :
    g.meaning r (ρ, k) = (g.text k).toOption.map .str := by
  rw [hr.meaning_eq, hk.plan_eq hρ]
  cases g.text k <;> rfl

end IsTextKey

theorem lastFields_eq (fs : List (String × Value)) :
    Value.lastFields fs = Plan.distinct (fun n m => n = m) fs := by
  simp only [Value.lastFields, Value.setField_eq_insertBy]
  rfl

section Readings

variable {rank : NodeId → Nat} (hr : g.Ranked rank)
  (hlocal : ∀ n, (g.tag n).isLocal = false)
  (hkeys : ∀ n, ∀ e ∈ g.entries n, g.tag e.1 = .merge ∨ g.IsTextKey e.1)
  (hmaps : ∀ n, g.tag n = .map → g.isMapping n = true)

include hkeys in
theorem isTextKey_of_own {e : Entry} (he : e ∈ g.own (g.entries n)) : g.IsTextKey e.1 := by
  obtain ⟨hmem, hmerge⟩ := not_isMerge_of_own he
  refine (hkeys n e hmem).resolve_left fun hm => ?_
  rw [isMerge, hm] at hmerge
  cases hmerge

include hr hkeys in
theorem Ranked.isTextKey_of_use {p : Plan} (hp : g.plan r (ρ, n) = some p)
    (hu : (σ, c) ∈ p.uses) : σ = .item ∨ g.IsTextKey c := by
  refine (hr.uses_plan hp hu).2.imp_right ?_
  rintro ⟨-, -, m, -, e, he, rfl⟩
  exact isTextKey_of_own hkeys he

theorem planAs_data {t : Tag} (ht : t.isLocal = false) (hmap : t ≠ .map) :
    g.planAs .tree t n = g.planAs .data t n := by
  cases t with
  | map => exact absurd rfl hmap
  | localTag => cases ht
  | seq => exact planAs_seq.trans planAs_seq.symm
  | omap => exact (planAs_pairs (Or.inl rfl)).trans (planAs_pairs (Or.inl rfl)).symm
  | pairs => exact (planAs_pairs (Or.inr rfl)).trans (planAs_pairs (Or.inr rfl)).symm
  | _ => rfl

theorem plan_data (hn : (g.tag n).isLocal = false) (hmap : g.tag n ≠ .map) :
    g.plan .tree (ρ, n) = g.plan .data (ρ, n) := by
  rw [plan, plan]
  rcases ρ.tag_or (g.tag n) with htag | ⟨-, htag⟩
  · rw [htag]
    exact planAs_data hn hmap
  · rw [htag]
    exact planAs_data rfl (by rintro ⟨⟩)

/-- A mapping is a struct if it is read as a tree, and otherwise a map. -/
theorem plan_of_mapping (hn : g.tag n = .map) (hmapping : g.isMapping n = true) :
    g.plan .tree (ρ, n) = (g.merged n).map .struct ∧
      g.plan .data (ρ, n) = (g.merged n).map .map := by
  have htag : ρ.tag (g.tag n) = .map := by rw [hn]; cases ρ <;> rfl
  obtain ⟨es, hes⟩ := isMapping_iff.1 hmapping
  constructor
  · rw [plan, htag]
    show (g.fieldEntries n).map Plan.struct = _
    rw [fieldEntries, hes]
  · rw [plan, htag]
    rfl

/-- The fields of a struct and the members of a map are the same plain data: of equal names the
last field stays, in the first place. -/
theorem plain_struct_eq {es : List Entry} {f f' : Role × NodeId → Option Value}
    {same : NodeId → NodeId → Bool} (hes : ∀ e ∈ es, g.IsTextKey e.1)
    (hf : ∀ e ∈ es, f (.name, e.1) = (g.text e.1).toOption.map .str)
    (hf' : ∀ e ∈ es, f' (.key, e.1) = (g.text e.1).toOption.map .str)
    (hitems : ∀ e ∈ es,
      Option.Rel (fun v w => v.plain = w.plain) (f (.item, e.2)) (f' (.item, e.2))) :
    Option.Rel (fun v w => v.plain = w.plain) ((Plan.struct es).value same f)
      ((Plan.map es).value (g.sameKey r) f') := by
  let K : String → NodeId × Value → Prop := fun name a =>
    a.2 = .str name ∧ g.IsTextKey a.1 ∧ (g.text a.1).toOption = some name
  have hrow : ∀ e ∈ es, Option.Rel (fun x m => K x.1 m.1 ∧ x.2.plain = m.2.plain)
      (Plan.field f e) (Plan.member f' e) := by
    intro e he
    unfold Plan.field Plan.member
    rw [hf e he, hf' e he]
    cases ht : (g.text e.1).toOption with
    | none => exact .none
    | some name =>
      exact rel_map (hitems e he) fun v w hvw => ⟨⟨rfl, hes e he, ht⟩, hvw⟩
  unfold Plan.value Plan.members
  rw [Option.map_map]
  refine rel_map (rel_mapM hrow) fun fs ms hrows => ?_
  have hsame : ∀ a b a' b', K a a' → K b b' → decide (a = b) = g.sameKey r a'.1 b'.1 :=
    fun a b a' b' ha hb => (ha.2.1.sameKey_eq hb.2.1 ha.2.2 hb.2.2).symm
  have hplain : List.Forall₂ (fun x m => K x.1 m.1 ∧ x.2 = m.2.plain)
      (fs.map fun x => (x.1, x.2.plain)) ms := List.forall₂_map_left_iff.2 hrows
  have hkept : List.Forall₂ (fun x m => K x.1 m.1 ∧ x.2 = m.2.plain)
      (Value.lastFields (fs.map fun x => (x.1, x.2.plain)))
      (Plan.distinct (fun a b => g.sameKey r a.1 b.1) ms) := by
    rw [lastFields_eq]
    exact Plan.distinct_related (R := fun v m => v = Value.plain m) hsame hplain
  have hentries : ((Plan.distinct (fun a b => g.sameKey r a.1 b.1) ms).map fun m =>
      (m.1.2, m.2)).map (fun e => (e.1.label, e.2.plain)) =
        Value.lastFields (fs.map fun x => (x.1, x.2.plain)) := by
    rw [List.map_map, ← map_eq_map_of_forall₂ hkept (f := id), List.map_id]
    rintro x m ⟨⟨hname, -⟩, hv⟩
    refine Prod.ext ?_ hv
    show x.1 = m.1.2.label
    rw [hname]
    rfl
  rw [Function.comp_apply, Value.plain, Value.plain, Value.plainFields_eq, Value.plainEntries_eq,
    hentries, Value.ofFields, Value.ofFields, Value.lastFields_lastFields]

section

include hr hlocal hkeys hmaps

/-- What a node means when read as a tree and when read as data is the same plain data. -/
theorem meaning_readings : Option.Rel (fun v w => v.plain = w.plain) (g.meaning .tree (ρ, n))
    (g.meaning .data (ρ, n)) := by
  induction hk : rank n using Nat.strongRecOn generalizing n ρ with
  | _ k ih =>
    have hparts : ∀ {r : Reading} {p : Plan}, g.plan r (ρ, n) = some p → ∀ u ∈ p.uses,
        Option.Rel (fun v w => v.plain = w.plain) (g.meaning .tree u) (g.meaning .data u) :=
      fun hp u hu => ih (rank u.2) (hk ▸ hr.lt_of_holds (hr.uses_plan hp (σ := u.1) hu).1) rfl
    rw [hr.meaning_eq, hr.meaning_eq]
    by_cases hmap : g.tag n = .map
    · obtain ⟨htree, hdata⟩ := plan_of_mapping (ρ := ρ) hmap (hmaps n hmap)
      rw [htree, hdata]
      cases hes : g.merged n with
      | none => exact .none
      | some es =>
        rw [hes, Option.map_some] at hdata
        rw [Option.map_some, Option.map_some, Option.bind_some, Option.bind_some]
        have htext : ∀ e ∈ es, g.IsTextKey e.1 := fun e he => by
          obtain ⟨m, -, hem⟩ := hr.mem_merged hes he
          exact isTextKey_of_own hkeys hem
        exact plain_struct_eq htext (fun e he => (htext e he).meaning_eq hr nofun)
          (fun e he => (htext e he).meaning_eq hr nofun)
          fun e he => hparts hdata _ (Plan.mem_uses_of_mem he).2
    · rw [plan_data (hlocal n) hmap]
      cases hp : g.plan .data (ρ, n) with
      | none =>
        rw [Option.bind_none, Option.bind_none]
        exact .none
      | some p =>
        rw [Option.bind_some, Option.bind_some]
        have huse := fun (u : Role × NodeId) (hu : u ∈ p.uses) =>
          hr.isTextKey_of_use hkeys hp (σ := u.1) hu
        refine Plan.value_related Value.isCongruence_plain (isBare_of_plan (hlocal n) hp)
          (fun k l hk hl => ?_) (fun u hu hne => ?_) (hparts hp)
        · have hk := (huse _ hk).resolve_left nofun
          have hl := (huse _ hl).resolve_left nofun
          rw [sameKey, sameKey, hk.keyPart?_eq, hl.keyPart?_eq, hk.keyPart?_eq, hl.keyPart?_eq]
        · have htext := (huse u hu).resolve_left hne
          exact (htext.meaning_eq hr hne).trans (htext.meaning_eq hr hne).symm

end

/-- Read as data, nothing is a struct or annotated. -/
theorem shape_of_plan {p : Plan} (hp : g.plan .data (ρ, n) = some p) :
    (∀ es, p ≠ .struct es) ∧ ∀ q as, p ≠ .annotated q as := by
  unfold plan planAs at hp
  split at hp
  · split at hp
    · cases hp
    · obtain ⟨text, -, hread⟩ := Option.bind_eq_some_iff.1 hp
      obtain ⟨v, -, rfl⟩ := Option.map_eq_some_iff.1 hread
      exact ⟨nofun, nofun⟩
  · split at hp
    · cases hp
      exact ⟨nofun, nofun⟩
    · cases hp
      exact ⟨nofun, nofun⟩
    · cases hp
      exact ⟨nofun, nofun⟩
    · obtain ⟨es, -, rfl⟩ := Option.map_eq_some_iff.1 hp
      exact ⟨nofun, nofun⟩
    · obtain ⟨es, -, rfl⟩ := Option.map_eq_some_iff.1 hp
      exact ⟨nofun, nofun⟩
    · cases hp
    · cases hp

/-- Read as data, nothing is the name of a field. -/
theorem ne_name_of_plan {p : Plan} (hp : g.plan .data (ρ, n) = some p) (hu : (σ, c) ∈ p.uses) :
    σ ≠ .name := by
  rintro rfl
  cases p with
  | scalar => cases hu
  | list ns =>
    obtain ⟨m, -, heq⟩ := List.mem_map.1 hu
    cases heq
  | pairs | set | map =>
    obtain ⟨e, -, ⟨h, -⟩ | ⟨h, -⟩⟩ := Plan.mem_uses_iff.1 hu <;> cases h
  | annotated q as => exact (shape_of_plan hp).2 q as rfl
  | struct es => exact (shape_of_plan hp).1 es rfl

include hlocal hmaps in
/-- What is made of a node read as a tree is made of the same nodes when it is read as data. -/
theorem plan_data_of_tree {p : Plan} (hp : g.plan .tree (ρ, n) = some p) :
    ∃ q, g.plan .data (ρ.compared, n) = some q ∧
      ∀ σ c, (σ, c) ∈ p.uses → (σ.compared, c) ∈ q.uses := by
  have hrole : g.plan .data (ρ.compared, n) = g.plan .data (ρ, n) := by
    rw [plan, plan, Role.tag_compared]
  by_cases hmap : g.tag n = .map
  · obtain ⟨htree, hdata⟩ := plan_of_mapping (ρ := ρ) hmap (hmaps n hmap)
    rw [htree] at hp
    obtain ⟨es, hes, rfl⟩ := Option.map_eq_some_iff.1 hp
    refine ⟨.map es, by rw [hrole, hdata, hes]; rfl, fun σ c hu => ?_⟩
    obtain ⟨e, he, ⟨rfl, rfl⟩ | ⟨rfl, rfl⟩⟩ := Plan.mem_uses_iff.1 hu
    · exact (Plan.mem_uses_of_mem he).1
    · exact (Plan.mem_uses_of_mem he).2
  · rw [plan_data (hlocal n) hmap] at hp
    refine ⟨p, hrole.trans hp, fun σ c hu => ?_⟩
    rwa [Role.compared_of_ne (ne_name_of_plan hp hu)]

include hlocal hmaps in
theorem Built.data (hn : g.Built .tree root named ρ n) : g.Built .data root false ρ.compared n := by
  induction hn with
  | root => exact .root
  | @use named ρ σ n c p _ hp hu ih =>
    obtain ⟨q, hq, huses⟩ := plan_data_of_tree hlocal hmaps hp
    have hbuilt := ih.use hq (huses σ c hu)
    rwa [decide_eq_false (by cases σ <;> exact nofun), Bool.or_false] at hbuilt

include hlocal hmaps in
theorem Merged.data (hm : g.Merged .tree root m) : g.Merged .data root m := by
  obtain ⟨named, ρ, n, hn, hmerges, hrest⟩ := hm
  exact ⟨false, ρ.compared, n, hn.data hlocal hmaps, by rwa [Role.tag_compared], hrest⟩

include hlocal hmaps in
theorem Read.data (hn : g.Read .tree root n) : g.Read .data root n := by
  induction hn with
  | built hn ht => exact .built (hn.data hlocal hmaps) (by rwa [Role.tag_compared])
  | value _ he ih => exact ih.value he

include hr hkeys in
/-- The names of fields are made of keys that stand for their texts, and of nothing else. -/
theorem Built.isTextKey (hn : g.Built .tree root true ρ n) : ρ ≠ .item ∧ g.IsTextKey n := by
  generalize hnamed : true = named at hn
  induction hn with
  | root => cases hnamed
  | @use named ρ σ n c p hn hp hu ih =>
    by_cases hσ : σ = .name
    · subst hσ
      exact ⟨nofun, (hr.isTextKey_of_use hkeys hp hu).resolve_left nofun⟩
    · rw [decide_eq_false hσ, Bool.or_false] at hnamed
      obtain ⟨hρ, htext⟩ := ih hnamed
      rw [htext.plan_eq hρ] at hp
      obtain ⟨text, -, rfl⟩ := Option.map_eq_some_iff.1 hp
      cases hu

include hr hlocal hkeys hmaps in
theorem Steady.tree (h : g.Steady .data root) : g.Steady .tree root where
  apart n ρ σ hempty hn _ := by
    obtain ⟨-, htag | htag⟩ := hn.isTextKey hr hkeys
    · rw [htag] at hempty
      cases hempty
    · rw [htag] at hempty
      cases hempty
  keys k hk hkey := by
    obtain ⟨m, hm, he⟩ := hkey
    obtain ⟨hitem, hread⟩ := h.keys k hk ⟨m, hm.data hlocal hmaps, he⟩
    exact ⟨fun named hb => hitem false (hb.data hlocal hmaps),
      fun n hn => hread n (hn.data hlocal hmaps)⟩
  pairs n ns named ρ hn ht hc m hm hmerged :=
    h.pairs n ns false ρ.compared (hn.data hlocal hmaps) ht hc m hm (hmerged.data hlocal hmaps)

end Readings

end Graph

/-- Only the tag of texts makes a text of a scalar. -/
theorem eq_str_of_scalarReader? {t : Tag} {read : String → Except Fault Value}
    (ht : scalarReader? t = some read) {text s : String} (hv : read text = .ok (.str s)) :
    t = .str := by
  unfold scalarReader? at ht
  split at ht
  · cases ht
    cases hv
  · cases ht
    unfold buildBool at hv
    split at hv <;> cases hv
  · cases ht
    obtain ⟨sc, -, hv⟩ := bind_eq_ok.mp hv
    obtain ⟨n, -, hv⟩ := bind_eq_ok.mp hv
    cases hv
  · cases ht
    obtain ⟨sc, -, hv⟩ := bind_eq_ok.mp hv
    obtain ⟨x, -, hv⟩ := bind_eq_ok.mp hv
    cases hv
  · cases ht
    unfold buildBytes at hv
    split at hv
    · split at hv <;> cases hv
    · cases hv
  · cases ht
    unfold buildTimestamp at hv
    split at hv
    · cases hv
    · split at hv
      · split at hv <;> cases hv
      · split at hv <;> cases hv
  · rfl
  · cases ht

namespace Draft

variable {d : Draft}

theorem piece_value_ne_str (x : Piece) (f : Nat → Value) (s : String) : x.value f ≠ .str s := by
  cases x <;> exact nofun

/-- A piece is no text. -/
theorem value_piece_ne_str (k : Nat) (s : String) : d.value (.piece k) ≠ .str s := by
  have hwithin : ∀ fuel known, (∀ k s, d.knownPiece known k ≠ .str s) →
      d.valueWithin (.piece k) fuel known ≠ .str s := by
    intro fuel
    induction fuel with
    | zero => exact fun known hknown => hknown k s
    | succ fuel ih =>
      intro known hknown
      unfold valueWithin
      dsimp only
      split
      · exact hknown k s
      · refine ih _ fun l t => ?_
        rw [knownPiece, deepen, Array.getD_eq_getD_getElem?, Array.getElem?_map]
        cases d.pieces[l]? with
        | none => rintro ⟨⟩
        | some x => exact piece_value_ne_str x _ t
  exact hwithin _ _ fun _ _ h => by cases h

end Draft

theorem Ends.trivial {σ α : Type} {x : StateT σ (Except Fault) α} {s : σ} :
    Ends True x s fun _ _ => True := by
  unfold Ends
  split <;> exact True.intro

section Texts

open Site

variable {r : Reading} {g : Graph} {k : NodeId}

/-- The part is a text only if the node has the tag of texts. -/
def IsTextOnly (g : Graph) (k : NodeId) (p : Part) : Prop :=
  ∀ d t, Draft.value d p = .str t → g.tag k = .str

theorem isTextOnly_piece (l : Nat) : IsTextOnly g k (.piece l) :=
  fun d t ht => absurd ht (d.value_piece_ne_str l t)

theorem addPiece_ends_str (x : Piece) (s : Site) :
    Ends True (return .piece (← addPiece x)) s fun p _ => IsTextOnly g k p :=
  Ends.bind Ends.trivial fun l _ _ => Ends.pure (isTextOnly_piece l)

theorem makeScalar_ends_str {read : String → Except Fault Value}
    (hread : scalarReader? (g.tag k) = some read) (text : String) (s : Site) :
    Ends True (makeScalar read k text) s fun p _ => IsTextOnly g k p := by
  unfold makeScalar
  refine Ends.bind (Q := fun v _ => read text = .ok v)
    (Ends.lift (fun _ => id) fun _ _ => True.intro) ?_
  intro v s₂ hv
  refine Ends.pure fun d t ht => ?_
  have htells : d.Tells (scalarPart k text v) v :=
    Draft.tells_scalarPart (isScalar_of_scalarReader? hread hv)
  rw [htells.value_eq] at ht
  exact eq_str_of_scalarReader? hread (ht ▸ hv)

theorem makeText_ends_str {read : String → Except Fault Value}
    (hread : scalarReader? (g.tag k) = some read) (s : Site) :
    Ends True (makeText read k) s fun p _ => IsTextOnly g k p := by
  unfold makeText
  apply Ends.get_bind
  apply Ends.bind Ends.trivial
  rintro text s₁ -
  show Ends _ (if _ then throw Fault.timestampMapping >>= fun _ => makeScalar read k text
    else makeScalar read k text) s₁ _
  split
  · exact Ends.throw True.intro
  · exact makeScalar_ends_str hread text s₁

theorem makeStruct_ends_str (mk : Scope → NodeId → Build Part) (scope : Scope) (s : Site) :
    Ends True (makeStruct mk scope k) s fun p _ => IsTextOnly g k p := by
  unfold makeStruct
  apply Ends.bind Ends.trivial
  rintro es s₁ -
  apply Ends.bind Ends.trivial
  rintro ds s₂ -
  apply Ends.get_bind
  apply Ends.bind Ends.trivial
  rintro fs s₃ -
  exact addPiece_ends_str _ _

/-- A new part is a piece, or it is read under the tag of its node. -/
theorem makeNew_ends_str {mk : Scope → NodeId → Build Part} {s : Site} {scope : Scope}
    (hk : s.graph.tag k = g.tag k) :
    Ends True (makeNew mk r scope k) s fun p _ => IsTextOnly g k p := by
  unfold makeNew
  apply Ends.get_bind
  rw [hk]
  cases hread : scalarReader? (g.tag k) with
  | some read =>
    simp only [hread]
    exact makeText_ends_str hread s
  | none =>
    cases hempty : emptyPiece? r (g.tag k) with
    | some x =>
      simp only [hread, hempty]
      apply Ends.bind Ends.trivial
      rintro l s₁ -
      split
      · exact Ends.bind Ends.trivial fun _ _ _ => Ends.pure (isTextOnly_piece l)
      · exact Ends.bind Ends.trivial fun _ _ _ => Ends.pure (isTextOnly_piece l)
    | none =>
      simp only [hread, hempty]
      split
      · exact makeStruct_ends_str mk scope s
      · apply Ends.bind Ends.trivial
        rintro c s₁ -
        exact addPiece_ends_str _ _
      · exact Ends.throw True.intro

/-- Only a node with the tag of texts is built to be a text. -/
theorem eq_str_of_build {t : String} (h : build r g k = .ok (.str t)) : g.tag k = .str := by
  let s : Site := ⟨g, .empty, Array.replicate g.size none, []⟩
  have hmake : Ends True (make r (g.size + 1) ⟨[], false⟩ k) s fun p _ => IsTextOnly g k p := by
    unfold make
    apply Ends.get_bind
    have hnone : s.made.getD k none = none := by
      simp only [s, Array.getD_eq_getD_getElem?, Array.getElem?_replicate]
      split <;> rfl
    rw [hnone]
    show Ends _ (makeNew (make r g.size) r ⟨[k], false⟩ k >>= fun p => do
      modify fun s => { s with made := s.made.setIfInBounds k (some p) }
      return p) s _
    apply Ends.bind (makeNew_ends_str rfl)
    intro p s₁ hp
    exact Ends.modify_bind (Ends.pure hp)
  have hends : Ends True (buildFrom r k) s fun v _ => v = .str t → g.tag k = .str := by
    unfold buildFrom
    apply Ends.get_bind
    apply Ends.bind hmake
    intro p s₁ hp
    apply Ends.bind Ends.trivial
    rintro - s₂ -
    apply Ends.get_bind
    exact Ends.pure (hp _ t)
  unfold Ends at hends
  unfold build at h
  rw [StateT.run'_eq] at h
  cases hrun : (buildFrom r k).run s with
  | error e =>
    rw [hrun] at h
    cases h
  | ok a =>
    rw [hrun] at hends h
    exact hends (Except.ok.inj h)

end Texts

namespace Graph

/-- A document without local tags whose keys are texts, or merge keys. -/
structure IsTextual (g : Graph) (root : NodeId) : Prop where
  document : g.IsDocument root
  untagged : ∀ n, (g.tag n).isLocal = false
  keys : ∀ n, ∀ e ∈ g.entries n, g.tag e.1 = .merge ∨ g.tag e.1 = .value ∨
    ∃ s, build .data g e.1 = .ok (.str s)
  maps : ∀ n, g.tag n = .map → g.isMapping n = true

theorem isTextual_of_ranks {g : Graph} {root : NodeId} (rank : NodeId → Nat) (texts : List NodeId)
    (htexts : ∀ k ∈ texts, ∃ s, build .data g k = .ok (.str s)) (hroot : root < g.size)
    (h : ∀ n < g.size, (∀ c ∈ g.children n, c < g.size ∧ rank c < rank n) ∧
      (g.tag n).isLocal = false ∧ (g.tag n = .map → g.isMapping n = true) ∧
      ∀ e ∈ g.entries n, g.tag e.1 = .merge ∨ g.tag e.1 = .value ∨ e.1 ∈ texts) :
    g.IsTextual root where
  document := isDocument_of_ranks rank hroot fun n hn => (h n hn).1
  untagged n := by
    rcases Nat.lt_or_ge n g.size with hn | hn
    · exact (h n hn).2.1
    · rw [tag_of_size_le hn]
      rfl
  keys n e he := ((h n (lt_size_of_mem_entries he)).2.2.2 e he).imp_right
    (Or.imp_right (htexts e.1))
  maps n hmap := by
    rcases Nat.lt_or_ge n g.size with hn | hn
    · exact (h n hn).2.2.1 hmap
    · rw [tag_of_size_le hn] at hmap
      cases hmap

end Graph

/-- A steady document whose keys are texts is the same plain data, if any, read as a tree and read
as data: repeated and merged keys have the same value, and stand in the same place. -/
theorem readings_agree {g : Graph} {root : NodeId} (hg : g.IsTextual root)
    (hsteady : g.Steady .data root) :
    (build .tree g root).toOption.map Value.plain =
      (build .data g root).toOption.map Value.plain := by
  obtain ⟨hdocument, hlocal, hkeys, hmaps⟩ := hg
  obtain ⟨rank, hr⟩ := hdocument.exists_ranked
  have htext : ∀ n, ∀ e ∈ g.entries n, g.tag e.1 = .merge ∨ g.IsTextKey e.1 := fun n e he =>
    (hkeys n e he).imp_right fun h => h.elim Or.inr fun ⟨_, hs⟩ => Or.inl (eq_str_of_build hs)
  have hkey : ∀ n, ∀ e ∈ g.entries n, (g.tag e.1).isLocal = false := fun _ e _ => hlocal e.1
  rw [build_eq_meaning ⟨hdocument, hr, hsteady.tree hr hlocal htext hmaps, hkey⟩,
    build_eq_meaning ⟨hdocument, hr, hsteady, hkey⟩]
  have hrel := Graph.meaning_readings hr hlocal htext hmaps (n := root) (ρ := .item)
  exact rel_eq (rel_map hrel fun _ _ => id)

namespace Graph

/-- The document `{<<: {a: 1, b: 2}, a: 3, a: 4}`. -/
def repeatedKey : Graph :=
  ⟨#[⟨.map, .mapping [(1, 2), (3, 4), (5, 6)]⟩, ⟨.merge, .scalar "<<" true⟩,
    ⟨.map, .mapping [(7, 8), (9, 10)]⟩, ⟨.str, .scalar "a" true⟩, ⟨.int, .scalar "3" true⟩,
    ⟨.str, .scalar "a" true⟩, ⟨.int, .scalar "4" true⟩, ⟨.str, .scalar "a" true⟩,
    ⟨.int, .scalar "1" true⟩, ⟨.str, .scalar "b" true⟩, ⟨.int, .scalar "2" true⟩]⟩

/-- The document `{a: [{&e =: 1}, *e]}`. -/
def keyAsItem : Graph :=
  ⟨#[⟨.map, .mapping [(1, 2)]⟩, ⟨.str, .scalar "a" true⟩, ⟨.seq, .sequence [3, 4]⟩,
    ⟨.map, .mapping [(4, 5)]⟩, ⟨.value, .scalar "=" true⟩, ⟨.int, .scalar "1" true⟩]⟩

/-- The document `{a: [[&m {<<: {x: 1}}]], b: !!omap [*m]}`. -/
def pairElsewhere : Graph :=
  ⟨#[⟨.map, .mapping [(1, 2), (3, 4)]⟩, ⟨.str, .scalar "a" true⟩, ⟨.seq, .sequence [5]⟩,
    ⟨.str, .scalar "b" true⟩, ⟨.omap, .sequence [6]⟩, ⟨.seq, .sequence [6]⟩,
    ⟨.map, .mapping [(7, 8)]⟩, ⟨.merge, .scalar "<<" true⟩, ⟨.map, .mapping [(9, 10)]⟩,
    ⟨.str, .scalar "x" true⟩, ⟨.int, .scalar "1" true⟩]⟩

end Graph

open Yaml.Graph

theorem readings_agree_repeatedKey :
    repeatedKey.IsTextual 0 ∧ repeatedKey.Steady .data 0 ∧
      (build .tree repeatedKey 0).toOption.map Value.plain =
        some (.map [(.str "a", .int 4), (.str "b", .int 2)]) := by
  have hg : repeatedKey.IsTextual 0 := by
    refine isTextual_of_ranks (fun n => [2, 0, 1].getD n 0) [3, 5, 7, 9] ?_ (by decide) (by decide)
    simp only [List.forall_mem_cons, List.not_mem_nil, false_implies, implies_true, and_true]
    exact ⟨⟨"a", rfl⟩, ⟨"a", rfl⟩, ⟨"a", rfl⟩, ⟨"b", rfl⟩⟩
  obtain ⟨rank, hr⟩ := hg.document.exists_ranked
  have hsteady : repeatedKey.Steady .data 0 := hr.steady (by decide) (by decide)
  have hdata : (build .data repeatedKey 0).toOption.map Value.plain =
      some (.map [(.str "a", .int 4), (.str "b", .int 2)]) := by
    with_unfolding_all rfl
  exact ⟨hg, hsteady, (readings_agree hg hsteady).trans hdata⟩

/-- Structs are made at once, and maps in their turn. So a key `=` is met as an item before it has
become a text, and a pair before it is merged, if the document is read as data. -/
theorem readings_agree_needs_steady :
    (keyAsItem.IsTextual 0 ∧ (build .data keyAsItem 0).toOption.isSome = false ∧
      (build .tree keyAsItem 0).toOption =
        some (.struct [("a", .list [.struct [("=", .int 1)], .str "="])])) ∧
    (pairElsewhere.IsTextual 0 ∧ (build .data pairElsewhere 0).toOption.isSome = false ∧
      (build .tree pairElsewhere 0).toOption =
        some (.struct [("a", .list [.list [.struct [("x", .int 1)]]]),
          ("b", .list [.tuple [.str "x", .int 1]])])) := by
  have hitem : (build .tree keyAsItem 0).toOption =
      some (.struct [("a", .list [.struct [("=", .int 1)], .str "="])]) := by
    with_unfolding_all rfl
  have hpair : (build .tree pairElsewhere 0).toOption =
      some (.struct [("a", .list [.list [.struct [("x", .int 1)]]]),
        ("b", .list [.tuple [.str "x", .int 1]])]) := by
    with_unfolding_all rfl
  refine ⟨⟨?_, rfl, hitem⟩, ⟨?_, rfl, hpair⟩⟩
  · refine isTextual_of_ranks (fun n => [3, 0, 2, 1].getD n 0) [1] ?_ (by decide) (by decide)
    simp only [List.forall_mem_cons, List.not_mem_nil, false_implies, implies_true, and_true]
    exact ⟨"a", rfl⟩
  · refine isTextual_of_ranks (fun n => [5, 0, 4, 0, 3, 3, 2, 0, 1].getD n 0) [1, 3, 9] ?_
      (by decide) (by decide)
    simp only [List.forall_mem_cons, List.not_mem_nil, false_implies, implies_true, and_true]
    exact ⟨⟨"a", rfl⟩, ⟨"b", rfl⟩, ⟨"x", rfl⟩⟩

end Yaml

end TreePaths
