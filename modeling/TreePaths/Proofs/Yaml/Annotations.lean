import TreePaths.Proofs.Yaml.Meaning
import TreePaths.Proofs.Yaml.Relating

/-!
Local tags add annotations to a document and change nothing else.
-/

namespace TreePaths

namespace Value

mutual

/-- The value without the annotations of all that it holds. -/
def unannotated : Value → Value
  | annotated v _ => unannotated v
  | list xs => list (unannotatedAll xs)
  | tuple xs => tuple (unannotatedAll xs)
  | set xs => set (unannotatedAll xs)
  | map es => map (unannotatedEntries es)
  | struct fs => struct (unannotatedFields fs)
  | v => v

def unannotatedAll : List Value → List Value
  | [] => []
  | v :: vs => unannotated v :: unannotatedAll vs

def unannotatedEntries : List (Value × Value) → List (Value × Value)
  | [] => []
  | (k, v) :: es => (unannotated k, unannotated v) :: unannotatedEntries es

def unannotatedFields : List (String × Value) → List (String × Value)
  | [] => []
  | (name, v) :: fs => (name, unannotated v) :: unannotatedFields fs

end

theorem unannotatedAll_eq {xs ys : List Value}
    (h : List.Forall₂ (fun v w => v.unannotated = w) xs ys) : unannotatedAll xs = ys := by
  induction h with
  | nil => rfl
  | cons hv _ ih => rw [unannotatedAll, hv, ih]

theorem isCongruence_unannotated : IsCongruence fun v w => v.unannotated = w where
  scalar v hv := by
    cases v with
    | list | tuple | struct | map | set | annotated | endless => exact absurd hv nofun
    | null | bool | int | float | str | bytes | date | moment => rfl
  list h := congrArg list (unannotatedAll_eq h)
  tuple h := congrArg tuple (unannotatedAll_eq h)
  set h := congrArg set (unannotatedAll_eq (List.forall₂_same.2 h))
  map h := by
    refine congrArg map ?_
    induction h with
    | nil => rfl
    | @cons e d es ds he _ ih =>
      obtain ⟨k, v⟩ := e
      obtain ⟨hk, hself, hv⟩ := he
      rw [unannotatedEntries, ih, hself, hv]
      exact congrArg (· :: ds) (Prod.ext hk rfl)
  struct h := by
    refine congrArg struct ?_
    induction h with
    | nil => rfl
    | @cons f g fs gs hf _ ih =>
      obtain ⟨name, v⟩ := f
      rw [unannotatedFields, ih, hf.2]
      exact congrArg (· :: gs) (Prod.ext hf.1 rfl)

inductive In (w : Value) : Value → Prop where
  | self : In w w
  | list {xs : List Value} {v : Value} (hv : v ∈ xs) (h : In w v) : In w (list xs)
  | tuple {xs : List Value} {v : Value} (hv : v ∈ xs) (h : In w v) : In w (tuple xs)
  | set {xs : List Value} {v : Value} (hv : v ∈ xs) (h : In w v) : In w (set xs)
  | key {es : List (Value × Value)} {e : Value × Value} (he : e ∈ es) (h : In w e.1) : In w (map es)
  | entry {es : List (Value × Value)} {e : Value × Value} (he : e ∈ es) (h : In w e.2) :
    In w (map es)
  | field {fs : List (String × Value)} {f : String × Value} (hf : f ∈ fs) (h : In w f.2) :
    In w (struct fs)
  | annotated {v : Value} {as : List String} (h : In w v) : In w (annotated v as)

end Value

namespace Yaml

theorem exists_of_mapM {α β : Type} {l : List α} {f : α → Option β} {ys : List β}
    (h : l.mapM f = some ys) {y : β} (hy : y ∈ ys) : ∃ x ∈ l, f x = some y := by
  have hmem : some y ∈ l.map f := mapM_eq_some.1 h ▸ List.mem_map_of_mem hy
  exact List.mem_map.1 hmem

/-- The members of a map are made of its entries. -/
theorem Plan.exists_of_members {same : NodeId → NodeId → Bool}
    {f : Role × NodeId → Option Value} {es : List Entry} {ms : List ((NodeId × Value) × Value)}
    (h : members same f es = some ms) {m : (NodeId × Value) × Value} (hm : m ∈ ms) :
    (∃ e ∈ es, f (.key, e.1) = some m.1.2) ∧ ∃ e ∈ es, f (.item, e.2) = some m.2 := by
  obtain ⟨all, hall, rfl⟩ := Option.map_eq_some_iff.1 h
  have hmember : ∀ a ∈ all, ∃ e ∈ es, f (.key, e.1) = some a.1.2 ∧ f (.item, e.2) = some a.2 := by
    intro a ha
    obtain ⟨e, he, hea⟩ := exists_of_mapM hall ha
    obtain ⟨k, hk, hv⟩ := Option.bind_eq_some_iff.1 hea
    split at hv
    · obtain ⟨v, hw, rfl⟩ := Option.map_eq_some_iff.1 hv
      exact ⟨e, he, hk, hw⟩
    · cases hv
  obtain ⟨⟨a, ha, hak⟩, ⟨b, hb, hbv⟩⟩ := mem_distinct hm
  obtain ⟨e, he, hk, -⟩ := hmember a ha
  obtain ⟨d, hd, -, hv⟩ := hmember b hb
  exact ⟨⟨e, he, hak ▸ hk⟩, d, hd, hbv ▸ hv⟩

theorem Tag.exists_of_isLocal {t : Tag} (h : t.isLocal = true) : ∃ text, t = .localTag text := by
  cases t with
  | localTag text => exact ⟨text, rfl⟩
  | _ => cases h

theorem scalarTag_cases (text : String) (plain : Bool) :
    (scalarTag text plain).isLocal = false ∧ scalarTag text plain ≠ .map ∧
      Site.emptyPiece? .tree (scalarTag text plain) = none := by
  unfold scalarTag implicitTag
  dsimp only
  repeat' split
  all_goals exact ⟨rfl, nofun, rfl⟩

def Node.untagged (x : Node) : Node :=
  match x.tag, x.content with
  | .localTag _, .scalar text plain => ⟨scalarTag text plain, x.content⟩
  | .localTag _, .sequence _ => ⟨.seq, x.content⟩
  | .localTag _, .mapping _ => ⟨.map, x.content⟩
  | _, _ => x

namespace Graph

/-- The document without local tags: a node that has one gets the tag that it has if none is given.
-/
def untagged (g : Graph) : Graph :=
  ⟨g.nodes.map Node.untagged⟩

variable {g : Graph} {r : Reading} {root n m k c : NodeId} {named : Bool} {ρ σ : Role}

theorem not_isLocal_of_inKey
    (hkeys : ∀ n < g.size, ∀ e ∈ g.entries n, g.children e.1 = [] ∧ (g.tag e.1).isLocal = false)
    (k : NodeId) (hk : g.InKey k) : (g.tag k).isLocal = false := by
  obtain ⟨n, e, he, rfl⟩ := hk.eq_key fun n hn e he => (hkeys n hn e he).1
  exact (hkeys n (lt_size_of_mem_entries he) e he).2

section Untagged

@[simp] theorem size_untagged : g.untagged.size = g.size :=
  Array.size_map

theorem node_untagged (n : NodeId) : g.untagged.node n = (g.node n).untagged := by
  rw [node, node, untagged, Array.getD_eq_getD_getElem?, Array.getD_eq_getD_getElem?,
    Array.getElem?_map]
  cases g.nodes[n]? <;> rfl

@[simp] theorem content_untagged (n : NodeId) : g.untagged.content n = g.content n := by
  rw [content, node_untagged, content, Node.untagged]
  split <;> rfl

@[simp] theorem entries_untagged (n : NodeId) : g.untagged.entries n = g.entries n := by
  simp only [entries, content_untagged]

@[simp] theorem isMapping_untagged (n : NodeId) : g.untagged.isMapping n = g.isMapping n := by
  simp only [isMapping, content_untagged]

@[simp] theorem children_untagged (n : NodeId) : g.untagged.children n = g.children n := by
  simp only [children, content_untagged]

theorem tag_untagged (hn : (g.tag n).isLocal = false) : g.untagged.tag n = g.tag n := by
  unfold tag at hn ⊢
  rw [node_untagged, Node.untagged]
  split <;> first | rfl | (rename_i ht _; rw [ht] at hn; cases hn)

theorem tag_untagged_of_local {text : String} (hn : g.tag n = .localTag text) :
    g.untagged.tag n = match g.content n with
      | .scalar text plain => scalarTag text plain
      | .sequence _ => .seq
      | .mapping _ => .map := by
  unfold tag at hn ⊢
  unfold content
  rw [node_untagged, Node.untagged, hn]
  cases (g.node n).content <;> rfl

theorem IsDocument.untagged (h : g.IsDocument root) : g.untagged.IsDocument root := by
  obtain ⟨hroot, hchild, hrank⟩ := h
  constructor
  · rwa [size_untagged]
  · simpa only [size_untagged, children_untagged] using hchild
  · simpa only [children_untagged] using hrank

theorem Ranked.untagged {rank : NodeId → Nat} (h : g.Ranked rank) : g.untagged.Ranked rank := by
  obtain ⟨hlt, hle⟩ := h
  constructor
  · simpa only [children_untagged] using hlt
  · simpa only [size_untagged] using hle

theorem single?_untagged (n : NodeId) : g.untagged.single? n = g.single? n := by
  simp only [single?, content_untagged]

variable (hkeys : ∀ k, g.InKey k → (g.tag k).isLocal = false)

include hkeys

theorem tag_key_untagged {e : Entry} (he : e ∈ g.entries n) : g.untagged.tag e.1 = g.tag e.1 :=
  tag_untagged (hkeys _ (inKey_of_mem he))

theorem filter_isMerge_untagged (n : NodeId) :
    (g.entries n).filter g.untagged.isMerge = (g.entries n).filter g.isMerge ∧
      g.untagged.own (g.entries n) = g.own (g.entries n) := by
  have hsame : ∀ e ∈ g.entries n, g.untagged.isMerge e = g.isMerge e := fun e he => by
    rw [isMerge, isMerge, tag_key_untagged hkeys he]
  refine ⟨List.filter_congr hsame, List.filter_congr fun e he => ?_⟩
  rw [hsame e he]

theorem sources_untagged (n : NodeId) :
    g.untagged.sources (g.entries n) = g.sources (g.entries n) := by
  rw [sources, sources, (filter_isMerge_untagged hkeys n).1]
  simp only [sourcesOf, content_untagged]

/-- Local tags have no bearing on merging. -/
theorem merged_untagged : g.untagged.merged = g.merged := by
  have hstep : g.untagged.mergedStep = g.mergedStep := by
    funext f n
    unfold mergedStep
    rw [content_untagged]
    cases hc : g.content n with
    | scalar text plain => rfl
    | sequence ns => rfl
    | mapping es =>
      have hsources := sources_untagged hkeys n
      have hown := (filter_isMerge_untagged hkeys n).2
      rw [entries_of_content hc] at hsources hown
      simp only [hsources, hown]
  rw [merged, merged, hstep, size_untagged]

/-- Local tags have no bearing on the text of a node. -/
theorem text_untagged (n : NodeId) : g.untagged.text n = g.text n := by
  rw [text, text, size_untagged]
  generalize g.size + 1 = fuel
  induction fuel generalizing n with
  | zero => rfl
  | succ fuel ih =>
    unfold textWithin
    rw [content_untagged]
    cases hc : g.content n with
    | scalar text plain => rfl
    | sequence ns => rfl
    | mapping es =>
      have hfind : (es.find? fun e => g.untagged.tag e.1 = .value) =
          es.find? fun e => g.tag e.1 = .value := by
        refine List.find?_congr fun e he => ?_
        rw [tag_key_untagged hkeys (n := n) (by rwa [entries_of_content hc])]
      simp only [hfind]
      cases es.find? fun e => g.tag e.1 = .value with
      | none => rfl
      | some e => exact ih e.2

theorem planAs_untagged (t : Tag) (n : NodeId) : g.untagged.planAs r t n = g.planAs r t n := by
  have hsingle : g.untagged.single? = g.single? := funext single?_untagged
  simp only [planAs, fieldEntries, contentPlan, isMapping_untagged, content_untagged,
    text_untagged hkeys, merged_untagged hkeys, hsingle]

theorem plan_untagged (hn : (g.tag n).isLocal = false) :
    g.untagged.plan r (ρ, n) = g.plan r (ρ, n) := by
  rw [plan, plan, tag_untagged hn, planAs_untagged hkeys]

/-- What is made of a node without its local tag is what is annotated otherwise. -/
theorem plan_untagged_of_local {text : String} (hn : g.tag n = .localTag text) :
    g.untagged.plan .tree (.item, n) = g.contentPlan n := by
  rw [plan, planAs_untagged hkeys, tag_untagged_of_local hn]
  unfold contentPlan
  cases hc : g.content n with
  | sequence ns => exact planAs_seq.trans (by rw [hc])
  | mapping es =>
    show (g.fieldEntries n).map Plan.struct = _
    rw [fieldEntries, hc]
  | scalar text plain =>
    show g.planAs .tree (scalarTag text plain) n =
      (scalarReader? (scalarTag text plain)).bind (scalarPlan · text)
    obtain ⟨hlocal, hmap, hempty⟩ := scalarTag_cases text plain
    cases hread : scalarReader? (scalarTag text plain) with
    | some read =>
      have htext : g.text n = .ok text := by rw [Graph.text, textWithin, hc]
      have hmapping : g.isMapping n = false := by rw [isMapping, hc]
      unfold planAs
      simp only [hread, hmapping, htext, Bool.and_false]
      rfl
    | none =>
      rw [Site.planAs_eq _ hread hempty, Option.bind_none]
      cases ht : scalarTag text plain with
      | map => exact absurd ht hmap
      | localTag => rw [ht] at hlocal; cases hlocal
      | _ => rfl

omit hkeys in
theorem plan_of_local {text : String} (hn : g.tag n = .localTag text) :
    g.plan .tree (ρ, n) = (g.contentPlan n).map (.annotated · (annotationParts text)) := by
  rw [plan, Role.tag_eq_localTag.2 hn]
  rfl

variable {rank : NodeId → Nat} (hr : g.Ranked rank)

theorem sameKey_untagged (hn : g.InKey n) (hm : g.InKey m) :
    g.sameKey r n m = g.untagged.sameKey r n m := by
  have hpart : ∀ {k}, g.InKey k → g.untagged.keyPart? r k = g.keyPart? r k := fun hk => by
    rw [keyPart?, keyPart?, plan_untagged hkeys (hkeys _ hk)]
  rw [sameKey, sameKey, hpart hn, hpart hm]

theorem value_untagged {R : Value → Value → Prop} (hR : Value.IsCongruence R) {p : Plan}
    (hbare : p.isBare = true)
    (huses : ∀ u ∈ p.uses, u.1 = .item ∨ g.InKey u.2)
    (hsame : ∀ u ∈ p.uses, g.InKey u.2 → g.meaning r u = g.untagged.meaning r u)
    (hparts : ∀ u ∈ p.uses, Option.Rel R (g.meaning r u) (g.untagged.meaning r u)) :
    Option.Rel R (p.value (g.sameKey r) (g.meaning r))
      (p.value (g.untagged.sameKey r) (g.untagged.meaning r)) := by
  refine Plan.value_related hR hbare (fun k l hk hl => ?_) (fun u hu hne => ?_) hparts
  · exact sameKey_untagged hkeys ((huses _ hk).resolve_left nofun) ((huses _ hl).resolve_left nofun)
  · exact hsame u hu ((huses u hu).resolve_left hne)

include hr

/-- Keys mean the same without local tags. -/
theorem meaning_key_untagged (hn : g.InKey n) :
    g.meaning r (ρ, n) = g.untagged.meaning r (ρ, n) := by
  induction hk : rank n using Nat.strongRecOn generalizing n ρ with
  | _ k ih =>
    have hlocal := hkeys n hn
    rw [hr.meaning_eq, hr.untagged.meaning_eq, plan_untagged hkeys hlocal]
    cases hp : g.plan r (ρ, n) with
    | none => rw [Option.bind_none, Option.bind_none]
    | some p =>
      rw [Option.bind_some, Option.bind_some]
      have huse := fun (u : Role × NodeId) (hu : u ∈ p.uses) => hr.inKey_of_use hp (σ := u.1) hu
      have hsame : ∀ u ∈ p.uses, g.meaning r u = g.untagged.meaning r u := fun u hu =>
        ih (rank u.2) (hk ▸ hr.lt_of_holds (huse u hu).1) (hn.holds (huse u hu).1) rfl
      have hrel := value_untagged hkeys Value.isCongruence_eq
        (isBare_of_plan hlocal hp) (fun u hu => (huse u hu).2) (fun u hu _ => hsame u hu)
        fun u hu => by rw [hsame u hu]; exact rel_refl _
      exact rel_eq hrel

/-- Nodes mean the same without local tags, but for the annotations. -/
theorem meaning_untagged (hn : ρ = .item ∨ g.InKey n) :
    Option.Rel (fun v w => v.unannotated = w) (g.meaning .tree (ρ, n))
      (g.untagged.meaning .tree (ρ, n)) := by
  induction hk : rank n using Nat.strongRecOn generalizing n ρ with
  | _ k ih =>
    have hstep : ∀ p : Plan, p.isBare = true →
        (∀ u ∈ p.uses, g.Holds n u.2 ∧ (u.1 = .item ∨ g.InKey u.2)) →
        Option.Rel (fun v w => v.unannotated = w)
          (p.value (g.sameKey .tree) (g.meaning .tree))
          (p.value (g.untagged.sameKey .tree) (g.untagged.meaning .tree)) := by
      intro p hbare huse
      refine value_untagged hkeys Value.isCongruence_unannotated hbare
        (fun u hu => (huse u hu).2) (fun u hu hkey => meaning_key_untagged hkeys hr hkey)
        fun u hu => ?_
      exact ih (rank u.2) (hk ▸ hr.lt_of_holds (huse u hu).1) (huse u hu).2 rfl
    have huse : ∀ {p}, g.plan .tree (ρ, n) = some p →
        ∀ u ∈ p.uses, g.Holds n u.2 ∧ (u.1 = .item ∨ g.InKey u.2) :=
      fun hp u hu => hr.inKey_of_use hp (σ := u.1) hu
    rw [hr.meaning_eq, hr.untagged.meaning_eq]
    cases hlocal : (g.tag n).isLocal with
    | false =>
      rw [plan_untagged hkeys hlocal]
      cases hp : g.plan .tree (ρ, n) with
      | none =>
        rw [Option.bind_none, Option.bind_none]
        exact .none
      | some p =>
        rw [Option.bind_some, Option.bind_some]
        exact hstep p (isBare_of_plan hlocal hp) (huse hp)
    | true =>
      obtain ⟨text, ht⟩ := Tag.exists_of_isLocal hlocal
      obtain rfl : ρ = .item := hn.resolve_right fun hkey =>
        absurd hlocal (by rw [hkeys n hkey]; exact nofun)
      have hplan := plan_of_local (ρ := .item) ht
      rw [plan_untagged_of_local hkeys ht, hplan]
      cases hq : g.contentPlan n with
      | none => exact .none
      | some q =>
        rw [hq, Option.map_some] at hplan
        rw [Option.map_some, Option.bind_some, Option.bind_some, Plan.value]
        have hrel := hstep q (isBare_of_contentPlan hq) fun u hu => huse hplan u hu
        exact rel_map_left hrel fun _ _ => id

end Untagged

section Annotated

variable {same : NodeId → NodeId → Bool} {f : Role × NodeId → Option Value} {es : List Entry}
  {c : Value} {as : List String}

theorem exists_of_pair {o : Option Entry} {v : Value} (hv : Plan.pair f o = some v)
    (hin : (Value.annotated c as).In v) :
    ∃ e, o = some e ∧ ((∃ w, f (.item, e.1) = some w ∧ (Value.annotated c as).In w) ∨
      ∃ w, f (.item, e.2) = some w ∧ (Value.annotated c as).In w) := by
  obtain ⟨e, rfl, he⟩ := Option.bind_eq_some_iff.1 hv
  obtain ⟨a, ha, he⟩ := Option.bind_eq_some_iff.1 he
  obtain ⟨b, hb, rfl⟩ := Option.map_eq_some_iff.1 he
  cases hin with
  | tuple hw hin =>
    rcases List.mem_cons.1 hw with rfl | hw
    · exact ⟨e, rfl, .inl ⟨_, ha, hin⟩⟩
    · cases List.mem_singleton.1 hw
      exact ⟨e, rfl, .inr ⟨_, hb, hin⟩⟩

theorem eq_some_of_field {e : Entry} {d : String × Value} (h : Plan.field f e = some d) :
    f (.item, e.2) = some d.2 := by
  obtain ⟨k, -, hd⟩ := Option.bind_eq_some_iff.1 h
  split at hd
  · obtain ⟨v, hv, rfl⟩ := Option.map_eq_some_iff.1 hd
    exact hv
  · cases hd

/-- An annotated value in what a plan makes stands in one of the parts, if the plan does not
annotate. -/
theorem exists_of_in {p : Plan} (hbare : p.isBare = true) {v : Value} (hv : p.value same f = some v)
    (hin : (Value.annotated c as).In v) :
    ∃ u ∈ p.uses, ∃ w, f u = some w ∧ (Value.annotated c as).In w := by
  cases p with
  | scalar text x =>
    cases hv
    cases hin with
    | self | list | tuple | set | key | entry | field | annotated => cases hbare
  | annotated q as => cases hbare
  | list ns =>
    obtain ⟨vs, hvs, rfl⟩ := Option.map_eq_some_iff.1 hv
    cases hin with
    | list hw hin =>
      obtain ⟨n, hn, hnw⟩ := exists_of_mapM hvs hw
      exact ⟨_, List.mem_map_of_mem hn, _, hnw, hin⟩
  | pairs es =>
    obtain ⟨vs, hvs, rfl⟩ := Option.map_eq_some_iff.1 hv
    cases hin with
    | list hw hin =>
      obtain ⟨o, ho, how⟩ := exists_of_mapM hvs hw
      obtain ⟨e, rfl, hpart⟩ := exists_of_pair how hin
      have hmem : e ∈ es.filterMap id := List.mem_filterMap.2 ⟨_, ho, rfl⟩
      have huse := Plan.mem_uses_of_mem (ρ := .item) hmem
      exact hpart.elim (fun h => ⟨_, huse.1, h⟩) fun h => ⟨_, huse.2, h⟩
  | set es =>
    obtain ⟨ms, hms, rfl⟩ := Option.map_eq_some_iff.1 hv
    cases hin with
    | set hw hin =>
      obtain ⟨m, hm, rfl⟩ := List.mem_map.1 ((Value.arranged_perm _).mem_iff.1 hw)
      obtain ⟨⟨e, he, hk⟩, -⟩ := Plan.exists_of_members hms hm
      exact ⟨_, (Plan.mem_uses_of_mem he).1, _, hk, hin⟩
  | map es =>
    obtain ⟨ms, hms, rfl⟩ := Option.map_eq_some_iff.1 hv
    cases hin with
    | key hw hin =>
      obtain ⟨m, hm, rfl⟩ := List.mem_map.1 hw
      obtain ⟨⟨e, he, hk⟩, -⟩ := Plan.exists_of_members hms hm
      exact ⟨_, (Plan.mem_uses_of_mem he).1, _, hk, hin⟩
    | entry hw hin =>
      obtain ⟨m, hm, rfl⟩ := List.mem_map.1 hw
      obtain ⟨-, e, he, hv⟩ := Plan.exists_of_members hms hm
      exact ⟨_, (Plan.mem_uses_of_mem he).2, _, hv, hin⟩
  | struct es =>
    obtain ⟨vs, hvs, rfl⟩ := Option.map_eq_some_iff.1 hv
    cases hin with
    | field hw hin =>
      obtain ⟨e, he, hew⟩ := exists_of_mapM hvs hw
      exact ⟨_, (Plan.mem_uses_of_mem he).2, _, eq_some_of_field hew, hin⟩

end Annotated

section Built

variable {rank : NodeId → Nat} (hr : g.Ranked rank)

include hr

variable (hkeys : ∀ k, g.InKey k → (g.tag k).isLocal = false)

include hkeys

/-- Each annotated value in that of a node is the value of a node with a local tag. -/
theorem exists_of_annotated_in {c : Value} {as : List String} (hn : g.Built .tree root named ρ n)
    {v : Value} (hv : g.meaning .tree (ρ, n) = some v) (hin : (Value.annotated c as).In v) :
    ∃ m text, g.Built .tree root false .item m ∧ g.tag m = .localTag text ∧
      as = annotationParts text ∧ g.meaning .tree (.item, m) = some (.annotated c as) := by
  induction hk : rank n using Nat.strongRecOn generalizing n ρ named v with
  | _ k ih =>
    have hparts : ∀ {p : Plan}, g.plan .tree (ρ, n) = some p →
        (∃ u ∈ p.uses, ∃ w, g.meaning .tree u = some w ∧ (Value.annotated c as).In w) →
        ∃ m text, g.Built .tree root false .item m ∧ g.tag m = .localTag text ∧
          as = annotationParts text ∧ g.meaning .tree (.item, m) = some (.annotated c as) := by
      rintro p hp ⟨u, hu, w, hw, hin⟩
      exact ih (rank u.2) (hk ▸ hr.lt_of_holds (hr.uses_plan hp (σ := u.1) hu).1)
        (hn.use hp (σ := u.1) hu) hw hin rfl
    have hmeaning := hv
    rw [hr.meaning_eq] at hv
    obtain ⟨p, hp, hv⟩ := Option.bind_eq_some_iff.1 hv
    cases hlocal : (g.tag n).isLocal with
    | false => exact hparts hp (exists_of_in (isBare_of_plan hlocal hp) hv hin)
    | true =>
      obtain ⟨text, ht⟩ := Tag.exists_of_isLocal hlocal
      have hplan := plan_of_local (ρ := ρ) ht
      rw [hp] at hplan
      obtain ⟨q, hq, rfl⟩ := Option.map_eq_some_iff.1 hplan.symm
      obtain ⟨w, hw, rfl⟩ := Option.map_eq_some_iff.1 hv
      cases hin with
      | self =>
        have hout : ¬(named = true ∨ ρ ≠ .item) := fun h =>
          absurd (hkeys n (hn.inKey hr h)) (by rw [hlocal]; exact nofun)
        rw [not_or, not_ne_iff, Bool.not_eq_true] at hout
        obtain ⟨rfl, rfl⟩ := hout
        exact ⟨n, text, hn, ht, rfl, hmeaning⟩
      | annotated hin =>
        obtain ⟨u, hu, hpart⟩ := exists_of_in (isBare_of_contentPlan hq) hw hin
        exact hparts hp ⟨u, hu, hpart⟩

theorem Built.of_untagged (hn : g.untagged.Built .tree root named ρ n) :
    g.Built .tree root named ρ n := by
  induction hn with
  | root => exact .root
  | @use named ρ σ n c p _ hp hu ih =>
    cases hlocal : (g.tag n).isLocal with
    | false => exact ih.use ((plan_untagged hkeys hlocal).symm.trans hp) hu
    | true =>
      obtain ⟨text, ht⟩ := Tag.exists_of_isLocal hlocal
      obtain rfl : ρ = .item := by
        by_contra hρ
        rw [hkeys n (ih.inKey hr (Or.inr hρ))] at hlocal
        cases hlocal
      rw [plan_untagged_of_local hkeys ht] at hp
      have hplan := plan_of_local (ρ := .item) ht
      rw [hp] at hplan
      exact ih.use hplan hu

theorem Merged.of_untagged (hm : g.untagged.Merged .tree root m) : g.Merged .tree root m := by
  obtain ⟨named, ρ, n, hn, hmerges, hmap, htakes⟩ := hm
  rw [isMapping_untagged] at hmap
  refine ⟨named, ρ, n, hn.of_untagged hr hkeys, ?_, hmap, ?_⟩
  · cases hlocal : (g.tag n).isLocal with
    | false => rwa [tag_untagged hlocal] at hmerges
    | true =>
      obtain ⟨text, ht⟩ := Tag.exists_of_isLocal hlocal
      rw [Role.tag_eq_localTag.2 ht]
      rfl
  · refine Relation.ReflTransGen.mono (fun a b hab => ?_) _ _ htakes
    obtain ⟨es, hes, hb⟩ := hab
    rw [content_untagged] at hes
    refine ⟨es, hes, ?_⟩
    have hsources := sources_untagged hkeys a
    rw [entries_of_content hes] at hsources
    rwa [hsources] at hb

theorem Read.of_untagged (hn : g.untagged.Read .tree root n) :
    g.Read .tree root n ∨ g.isMapping n = false := by
  induction hn with
  | @built named ρ n hn ht =>
    have hbuilt := hn.of_untagged hr hkeys
    cases hlocal : (g.tag n).isLocal with
    | false =>
      rw [tag_untagged hlocal] at ht
      exact Or.inl (.built hbuilt ht)
    | true =>
      obtain ⟨text, htext⟩ := Tag.exists_of_isLocal hlocal
      refine Or.inr ?_
      rw [tag_untagged_of_local htext] at ht
      unfold isMapping
      cases hc : g.content n with
      | scalar => rfl
      | sequence => rfl
      | mapping es =>
        rw [hc] at ht
        cases ρ <;> cases ht
  | @value n e _ he ih =>
    have hmem : e ∈ g.entries n := by
      rw [← entries_untagged]
      exact List.mem_of_find?_eq_some he
    refine Or.inl (.value (ih.resolve_right ?_) ?_)
    · rw [isMapping_iff.2 ⟨_, mapping_of_mem_entries hmem⟩]
      exact nofun
    · rw [← he, entries_untagged]
      exact (List.find?_congr fun e he => by rw [tag_key_untagged hkeys he]).symm

/-- Without local tags the order of building matters no more than with them. -/
theorem Steady.untagged (h : g.Steady .tree root) : g.untagged.Steady .tree root where
  apart n ρ σ hempty hn hn' := by
    have hbuilt := hn.of_untagged hr hkeys
    rw [tag_untagged (hkeys n (hbuilt.inKey hr (Or.inl rfl)))] at hempty
    exact h.apart n ρ σ hempty hbuilt (hn'.of_untagged hr hkeys)
  keys k hk hkey := by
    obtain ⟨m, hm, e, he, rfl⟩ := hkey
    rw [entries_untagged] at he
    rw [tag_key_untagged hkeys he] at hk
    obtain ⟨hitem, hread⟩ := h.keys e.1 hk ⟨m, hm.of_untagged hr hkeys, e, he, rfl⟩
    refine ⟨fun named hb => hitem named (hb.of_untagged hr hkeys), fun n hn d hd => ?_⟩
    rw [entries_untagged] at hd
    refine hread n ((hn.of_untagged hr hkeys).resolve_right ?_) d hd
    rw [isMapping_iff.2 ⟨_, mapping_of_mem_entries hd⟩]
    exact nofun
  pairs n ns named ρ hn ht hc m hm hmerged e he := by
    rw [content_untagged] at hc
    rw [entries_untagged] at he
    rw [isMerge, tag_key_untagged hkeys he, ← isMerge]
    refine h.pairs n ns named ρ (hn.of_untagged hr hkeys) ?_ hc m hm (hmerged.of_untagged hr hkeys)
      e he
    cases hlocal : (g.tag n).isLocal with
    | false => rwa [tag_untagged hlocal] at ht
    | true =>
      obtain ⟨text, htext⟩ := Tag.exists_of_isLocal hlocal
      rw [tag_untagged_of_local htext, hc] at ht
      exact absurd ht (by simp)

end Built

end Graph

/-- Local tags that stand in no key add annotations to a steady document and change nothing else:
without them there is the same value without annotations, if any. Each annotated value is that of
a node with a local tag, under the parts of the tag. -/
theorem build_untagged {g : Graph} {root : NodeId} (hdocument : g.IsDocument root)
    (hkeys : ∀ k, g.InKey k → (g.tag k).isLocal = false) (hsteady : g.Steady .tree root) :
    (build .tree g root).toOption.map Value.unannotated =
        (build .tree g.untagged root).toOption ∧
      ∀ v, build .tree g root = .ok v → ∀ c as, (Value.annotated c as).In v →
        ∃ n text, (n = root ∨ g.Holds root n) ∧ g.tag n = .localTag text ∧
          as = annotationParts text ∧ build .tree g n = .ok (.annotated c as) := by
  obtain ⟨rank, hr⟩ := hdocument.exists_ranked
  have hkey : ∀ n, ∀ e ∈ g.entries n, (g.tag e.1).isLocal = false := fun n e he =>
    hkeys _ (Graph.inKey_of_mem he)
  have hbuild : ∀ n, g.IsDocument n → g.Steady .tree n →
      (build .tree g n).toOption = g.meaning .tree (.item, n) := fun n hn hs =>
    build_eq_meaning ⟨hn, hr, hs, hkey⟩
  constructor
  · have huntagged : (build .tree g.untagged root).toOption =
        g.untagged.meaning .tree (.item, root) := by
      refine build_eq_meaning ⟨hdocument.untagged, hr.untagged, hsteady.untagged hr hkeys, ?_⟩
      intro n e he
      rw [Graph.entries_untagged] at he
      rw [Graph.tag_key_untagged hkeys he]
      exact hkey n e he
    rw [hbuild root hdocument hsteady, huntagged]
    have hrel := Graph.meaning_untagged hkeys hr (n := root) (Or.inl (rfl : Role.item = .item))
    exact rel_eq (rel_map_left hrel fun _ _ => id)
  · intro v hv c as hin
    have hmeaning : g.meaning .tree (.item, root) = some v := by
      rw [← hbuild root hdocument hsteady, hv]
      rfl
    obtain ⟨n, text, hn, ht, has, hvalue⟩ :=
      Graph.exists_of_annotated_in hr hkeys .root hmeaning hin
    refine ⟨n, text, hn.holds hr, ht, has, ?_⟩
    have hpart : g.IsDocument n := ⟨hn.lt_size hdocument hr, hdocument.child_lt, hdocument.acyclic⟩
    rw [← hbuild n hpart (hsteady.of_built hn)] at hvalue
    cases hb : build .tree g n with
    | error e =>
      rw [hb] at hvalue
      cases hvalue
    | ok w =>
      rw [hb] at hvalue
      cases hvalue
      rfl

namespace Graph

/-- The document `a: !x [b, !y::z 'c']`. -/
def taggedList : Graph :=
  ⟨#[⟨.map, .mapping [(1, 2)]⟩, ⟨.str, .scalar "a" true⟩, ⟨.localTag "x", .sequence [3, 4]⟩,
    ⟨.str, .scalar "b" true⟩, ⟨.localTag "y::z", .scalar "c" false⟩]⟩

/-- The document `!x [&a [[]], {*a : []}]`. -/
def listKey : Graph :=
  ⟨#[⟨.localTag "x", .sequence [1, 3]⟩, ⟨.seq, .sequence [2]⟩, ⟨.seq, .sequence []⟩,
    ⟨.map, .mapping [(1, 4)]⟩, ⟨.seq, .sequence []⟩]⟩

/-- The document `!x [[&e =], {*e : 1}]`. -/
def sharedKey : Graph :=
  ⟨#[⟨.localTag "x", .sequence [1, 3]⟩, ⟨.seq, .sequence [2]⟩, ⟨.value, .scalar "=" true⟩,
    ⟨.map, .mapping [(2, 4)]⟩, ⟨.int, .scalar "1" true⟩]⟩

/-- The document `!x [!!omap [&m {<<: {a: 1}}], *m]`. -/
def mergedPair : Graph :=
  ⟨#[⟨.localTag "x", .sequence [1, 2]⟩, ⟨.omap, .sequence [2]⟩, ⟨.map, .mapping [(3, 4)]⟩,
    ⟨.merge, .scalar "<<" true⟩, ⟨.map, .mapping [(5, 6)]⟩, ⟨.str, .scalar "a" true⟩,
    ⟨.int, .scalar "1" true⟩]⟩

end Graph

open Yaml.Graph

theorem build_untagged_taggedList :
    taggedList.IsDocument 0 ∧
      (∀ k, taggedList.InKey k → (taggedList.tag k).isLocal = false) ∧
      taggedList.Steady .tree 0 ∧
      (build .tree taggedList.untagged 0).toOption =
        some (.struct [("a", .list [.str "b", .str "c"])]) ∧
      ∃ n text, (n = 0 ∨ taggedList.Holds 0 n) ∧ taggedList.tag n = .localTag text ∧
        ["y", "z"] = annotationParts text ∧
        build .tree taggedList n = .ok (.annotated (.str "c") ["y", "z"]) := by
  have hdocument : taggedList.IsDocument 0 :=
    isDocument_of_ranks (fun n => 5 - n) (by decide) (by decide)
  have hkeys := not_isLocal_of_inKey (g := taggedList) (by decide)
  obtain ⟨rank, hr⟩ := hdocument.exists_ranked
  have hsteady : taggedList.Steady .tree 0 := hr.steady (by decide) (by decide)
  obtain ⟨hbuild, hannotated⟩ := build_untagged hdocument hkeys hsteady
  have hread : build .tree taggedList 0 = .ok (.struct [("a", .annotated (.list [.str "b",
      .annotated (.str "c") ["y", "z"]]) ["x"])]) := by
    with_unfolding_all rfl
  refine ⟨hdocument, hkeys, hsteady, hbuild.symm.trans (by rw [hread]; rfl), ?_⟩
  refine hannotated _ hread (.str "c") ["y", "z"] ?_
  exact .field List.mem_cons_self
    (.annotated (.list (List.mem_cons_of_mem _ List.mem_cons_self) .self))

/-- Within what is tagged, parts are made at once, and otherwise in their turn. So a list that is a
key has another name, a key `=` is met before it has become a text, and a pair before it is merged.
-/
theorem build_untagged_needs_steady :
    (listKey.IsDocument 0 ∧ (∀ k, listKey.InKey k → (listKey.tag k).isLocal = false) ∧
      (build .tree listKey 0).toOption.map Value.unannotated ≠
        (build .tree listKey.untagged 0).toOption) ∧
    (sharedKey.IsDocument 0 ∧ (∀ k, sharedKey.InKey k → (sharedKey.tag k).isLocal = false) ∧
      (build .tree sharedKey 0).toOption.isSome = false ∧
      (build .tree sharedKey.untagged 0).toOption =
        some (.list [.list [.str "="], .struct [("=", .int 1)]])) ∧
    (mergedPair.IsDocument 0 ∧ (∀ k, mergedPair.InKey k → (mergedPair.tag k).isLocal = false) ∧
      (build .tree mergedPair 0).toOption.isSome = false ∧
      (build .tree mergedPair.untagged 0).toOption =
        some (.list [.list [.tuple [.str "a", .int 1]], .struct [("a", .int 1)]])) := by
  have hshared : (build .tree sharedKey.untagged 0).toOption =
      some (.list [.list [.str "="], .struct [("=", .int 1)]]) := by
    with_unfolding_all rfl
  have hmerged : (build .tree mergedPair.untagged 0).toOption =
      some (.list [.list [.tuple [.str "a", .int 1]], .struct [("a", .int 1)]]) := by
    with_unfolding_all rfl
  refine ⟨⟨?_, ?_, ?_⟩, ⟨?_, ?_, rfl, hshared⟩, ⟨?_, ?_, rfl, hmerged⟩⟩
  · exact isDocument_of_ranks (fun n => [3, 1, 0, 2, 0].getD n 0) (by decide) (by decide)
  · intro k hk
    obtain ⟨n, hn⟩ := hk.mem_children
    have hall : ∀ n < listKey.size, ∀ c ∈ listKey.children n, (listKey.tag c).isLocal = false := by
      decide
    exact hall n (lt_size_of_mem_children hn) k hn
  · intro h
    let names : Value → List Position := fun v => v.children.flatMap fun e => e.2.children.map (·.1)
    have hnames : ((build .tree listKey 0).toOption.map Value.unannotated).map names =
        some [.index 0, .name "[[]]"] := by decide +kernel
    rw [h] at hnames
    have huntagged : (build .tree listKey.untagged 0).toOption.map names =
        some [.index 0, .name "[]"] := by decide +kernel
    rw [huntagged] at hnames
    exact absurd hnames (by decide)
  · exact isDocument_of_ranks (fun n => [2, 1, 0, 1, 0].getD n 0) (by decide) (by decide)
  · exact not_isLocal_of_inKey (by decide)
  · exact isDocument_of_ranks (fun n => [4, 3, 2, 0, 1, 0, 0].getD n 0) (by decide) (by decide)
  · exact not_isLocal_of_inKey (by decide)

end Yaml

end TreePaths
