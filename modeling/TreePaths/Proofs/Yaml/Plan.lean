import TreePaths.Proofs.Yaml.Merging
import TreePaths.Yaml.Load

/-!
What a document means, without the order in which its nodes are built: what is made of each node in
terms of others, and from it the value of each node.
-/

namespace TreePaths.Yaml

/-- How a node stands in what it is a part of: as a key that is compared, as the name of a field, or
otherwise. -/
inductive Role where
  | item
  | key
  | name
  deriving DecidableEq

/-- A key `=` is a text. -/
def Role.tag : Role → Tag → Tag
  | .item, t => t
  | _, .value => .str
  | _, t => t

inductive Plan where
  | scalar (text : String) (v : Value)
  | list (items : List NodeId)
  /-- Of what is no pair there is no entry. -/
  | pairs (entries : List (Option Entry))
  | set (entries : List Entry)
  | map (entries : List Entry)
  | struct (entries : List Entry)
  | annotated (content : Plan) (annotations : List String)

def Tag.merges : Tag → Bool
  | .set | .map | .localTag _ => true
  | _ => false

namespace Plan

def uses : Plan → List (Role × NodeId)
  | scalar .. => []
  | list ns => ns.map fun n => (.item, n)
  | pairs es => (es.filterMap id).flatMap fun e => [(.item, e.1), (.item, e.2)]
  | set es | map es => es.flatMap fun e => [(.key, e.1), (.item, e.2)]
  | struct es => es.flatMap fun e => [(.name, e.1), (.item, e.2)]
  | annotated p _ => p.uses

def pair (f : Role × NodeId → Option Value) (o : Option Entry) : Option Value :=
  o.bind fun e => (f (.item, e.1)).bind fun k => (f (.item, e.2)).map fun v => .tuple [k, v]

def member (f : Role × NodeId → Option Value) (e : Entry) :
    Option ((NodeId × Value) × Value) :=
  (f (.key, e.1)).bind fun k =>
    if k.isKey then (f (.item, e.2)).map fun v => ((e.1, k), v) else none

def field (f : Role × NodeId → Option Value) (e : Entry) : Option (String × Value) :=
  (f (.name, e.1)).bind fun k =>
    if k.isWritable then (f (.item, e.2)).map fun v => (k.label, v) else none

/-- The entries of a map, each under a key of its own. -/
def distinct {κ α : Type} (same : κ → κ → Bool) (es : List (κ × α)) : List (κ × α) :=
  es.foldl (fun done e => Value.insertBy same e.1 e.2 done) []

/-- The members of a map, given which keys are the same. -/
def members (same : NodeId → NodeId → Bool) (f : Role × NodeId → Option Value) (es : List Entry) :
    Option (List ((NodeId × Value) × Value)) :=
  (es.mapM (member f)).map (distinct fun a b => same a.1 b.1)

def value (same : NodeId → NodeId → Bool) (f : Role × NodeId → Option Value) :
    Plan → Option Value
  | scalar _ v => some v
  | list ns => (ns.mapM fun n => f (.item, n)).map .list
  | pairs es => (es.mapM (pair f)).map .list
  | set es => (members same f es).map fun ms => .set (Value.arranged (ms.map (·.1.2)))
  | map es => (members same f es).map fun ms => .map (ms.map fun m => (m.1.2, m.2))
  | struct es => (es.mapM (field f)).map .struct
  | annotated p as => (p.value same f).map (.annotated · as)

variable {same : NodeId → NodeId → Bool} {f f' : Role × NodeId → Option Value} {p : Plan}

theorem mem_uses_of_mem {ρ : Role} {es : List Entry} {e : Entry} (he : e ∈ es) :
    (ρ, e.1) ∈ es.flatMap (fun e => [(ρ, e.1), (.item, e.2)]) ∧
      (.item, e.2) ∈ es.flatMap (fun e => [(ρ, e.1), (.item, e.2)]) :=
  ⟨List.mem_flatMap.2 ⟨e, he, by simp⟩, List.mem_flatMap.2 ⟨e, he, by simp⟩⟩

theorem mem_uses_iff {ρ σ : Role} {c : NodeId} {es : List Entry} :
    (σ, c) ∈ es.flatMap (fun e => [(ρ, e.1), (.item, e.2)]) ↔
      ∃ e ∈ es, σ = ρ ∧ c = e.1 ∨ σ = .item ∧ c = e.2 := by
  simp only [List.mem_flatMap, List.mem_cons, List.not_mem_nil, or_false, Prod.mk.injEq]

/-- The value of a plan depends on nothing but the nodes that it uses. -/
theorem value_congr (h : ∀ u ∈ p.uses, f u = f' u) : p.value same f = p.value same f' := by
  have hfields : ∀ {ρ : Role} {es : List Entry},
      (∀ u ∈ es.flatMap fun e => [(ρ, e.1), (.item, e.2)], f u = f' u) →
        ∀ e ∈ es, f (ρ, e.1) = f' (ρ, e.1) ∧ f (.item, e.2) = f' (.item, e.2) :=
    fun h e he => ⟨h _ (mem_uses_of_mem he).1, h _ (mem_uses_of_mem he).2⟩
  have hmembers : ∀ {es : List Entry},
      (∀ u ∈ es.flatMap fun e => [(.key, e.1), (.item, e.2)], f u = f' u) →
        members same f es = members same f' es := by
    intro es hes
    unfold members
    rw [mapM_congr fun e he => ?_]
    unfold member
    rw [(hfields hes e he).1, (hfields hes e he).2]
  induction p with
  | scalar text v => rfl
  | list ns =>
    unfold value
    rw [mapM_congr fun n hn => h _ (List.mem_map_of_mem hn)]
  | pairs es =>
    unfold value
    rw [mapM_congr fun o ho => ?_]
    cases o with
    | none => rfl
    | some e =>
      have he : e ∈ es.filterMap id := List.mem_filterMap.2 ⟨_, ho, rfl⟩
      unfold pair
      rw [Option.bind_some, Option.bind_some, (hfields h e he).1, (hfields h e he).2]
  | set es =>
    unfold value
    rw [hmembers h]
  | map es =>
    unfold value
    rw [hmembers h]
  | struct es =>
    unfold value
    rw [mapM_congr fun e he => ?_]
    unfold field
    rw [(hfields h e he).1, (hfields h e he).2]
  | annotated p as ih =>
    unfold value
    rw [ih h]

section Lacking

variable {σ : Role} {c : NodeId} {es : List Entry}

/-- Nothing is made of an entry if the key or the value that is needed for it is missing. -/
theorem entry_eq_none {α : Type} {ρ : Role} {e : Entry} {ok : Value → Bool}
    {make : Value → Value → α} (h : f (σ, c) = none)
    (hc : σ = ρ ∧ c = e.1 ∨ σ = .item ∧ c = e.2) :
    ((f (ρ, e.1)).bind fun k => if ok k then (f (.item, e.2)).map (make k) else none) = none := by
  rcases hc with ⟨rfl, rfl⟩ | ⟨rfl, rfl⟩
  · rw [h, Option.bind_none]
  · rw [h]
    cases f (ρ, e.1) with
    | none => rfl
    | some k => exact ite_self _

theorem pair_eq_none {e : Entry} (h : f (σ, c) = none)
    (hc : σ = .item ∧ c = e.1 ∨ σ = .item ∧ c = e.2) : pair f (some e) = none := by
  rw [pair, Option.bind_some]
  rcases hc with ⟨rfl, rfl⟩ | ⟨rfl, rfl⟩
  · rw [h, Option.bind_none]
  · rw [h]
    cases f (.item, e.1) <;> rfl

theorem mapM_entries_eq_none {α : Type} {ρ : Role} {make : Entry → Option α}
    (hu : (σ, c) ∈ es.flatMap fun e => [(ρ, e.1), (.item, e.2)])
    (hmake : ∀ e, σ = ρ ∧ c = e.1 ∨ σ = .item ∧ c = e.2 → make e = none) :
    es.mapM make = none := by
  obtain ⟨e, he, hc⟩ := mem_uses_iff.1 hu
  exact mapM_eq_none he (hmake e hc)

theorem members_eq_none (h : f (σ, c) = none)
    (hu : (σ, c) ∈ es.flatMap fun e => [(.key, e.1), (.item, e.2)]) :
    members same f es = none := by
  have hnone : es.mapM (member f) = none := mapM_entries_eq_none hu fun _ => entry_eq_none h
  rw [members, hnone, Option.map_none]

end Lacking

/-- There is no value without those of all nodes that are needed. -/
theorem value_eq_none {u : Role × NodeId} (hu : u ∈ p.uses) (h : f u = none) :
    p.value same f = none := by
  obtain ⟨σ, c⟩ := u
  induction p with
  | scalar text v => cases hu
  | list ns =>
    obtain ⟨n, hn, heq⟩ := List.mem_map.1 hu
    rw [value, mapM_eq_none hn (by rwa [heq]), Option.map_none]
  | pairs es =>
    obtain ⟨e, he, hc⟩ := mem_uses_iff.1 hu
    obtain ⟨_, ho, rfl⟩ := List.mem_filterMap.1 he
    rw [value, mapM_eq_none ho (pair_eq_none h hc), Option.map_none]
  | set es => rw [value, members_eq_none h hu, Option.map_none]
  | map es => rw [value, members_eq_none h hu, Option.map_none]
  | struct es =>
    have hnone : es.mapM (field f) = none := mapM_entries_eq_none hu fun _ => entry_eq_none h
    rw [value, hnone, Option.map_none]
  | annotated p as ih => rw [value, ih hu, Option.map_none]

end Plan

namespace Graph

def scalarPlan (read : String → Except Fault Value) (text : String) : Option Plan :=
  (read text).toOption.map (Plan.scalar text)

def single? (g : Graph) (n : NodeId) : Option Entry :=
  match g.content n with
  | .mapping [e] => some e
  | _ => none

/-- The entries of a struct: those of a mapping, or none where there is nothing. -/
def fieldEntries (g : Graph) (n : NodeId) : Option (List Entry) :=
  match g.content n with
  | .mapping _ => g.merged n
  | .sequence [] => some []
  | .sequence _ => none
  | .scalar text _ => if text.isEmpty then some [] else none

def contentPlan (g : Graph) (n : NodeId) : Option Plan :=
  match g.content n with
  | .scalar text plain => (scalarReader? (scalarTag text plain)).bind (scalarPlan · text)
  | .sequence ns => some (.list ns)
  | .mapping _ => (g.merged n).map .struct

def planAs (g : Graph) (r : Reading) (t : Tag) (n : NodeId) : Option Plan :=
  match scalarReader? t with
  | some read =>
    if t = .timestamp && g.isMapping n then none
    else (g.text n).toOption.bind (scalarPlan read)
  | none =>
    match t, g.content n with
    | .seq, .sequence ns => some (.list ns)
    | .omap, .sequence ns | .pairs, .sequence ns => some (.pairs (ns.map g.single?))
    | .set, _ => (g.merged n).map .set
    | .map, _ =>
      match r with
      | .tree => (g.fieldEntries n).map .struct
      | .data => (g.merged n).map .map
    | .localTag text, _ =>
      match r with
      | .tree => (g.contentPlan n).map (.annotated · (annotationParts text))
      | .data => none
    | _, _ => none

def plan (g : Graph) (r : Reading) (u : Role × NodeId) : Option Plan :=
  g.planAs r (u.1.tag (g.tag u.2)) u.2

/-- What a key is compared by: its part, if it is a scalar. -/
def keyPart? (g : Graph) (r : Reading) (k : NodeId) : Option Part :=
  match g.plan r (.key, k) with
  | some (.scalar text v) => some (Site.scalarPart k text v)
  | _ => none

def sameKey (g : Graph) (r : Reading) (k l : NodeId) : Bool :=
  match g.keyPart? r k, g.keyPart? r l with
  | some p, some q => p.same q
  | _, _ => false

def meaningStep (g : Graph) (r : Reading) (f : Role × NodeId → Option Value)
    (u : Role × NodeId) : Option Value :=
  (g.plan r u).bind (Plan.value (g.sameKey r) f)

/-- The value of a node in its role; none if it, or what it is made of, cannot be built. -/
def meaning (g : Graph) (r : Reading) : Role × NodeId → Option Value :=
  unfolded (g.meaningStep r) (g.size + 1)

abbrev Holds (g : Graph) : NodeId → NodeId → Prop :=
  Relation.TransGen fun n c => c ∈ g.children n

/-- The mapping gets the other's entries, or it is the other. -/
abbrev TakesAll (g : Graph) : NodeId → NodeId → Prop :=
  Relation.ReflTransGen g.TakesFrom

variable {g : Graph} {r : Reading} {n m c : NodeId}

theorem holds_of_takesFrom (h : g.TakesFrom n m) : g.Holds n m := by
  obtain ⟨es, hn, hm⟩ := h
  obtain ⟨e, he, hme⟩ := List.mem_flatMap.1 hm
  have hvalue := (mem_children_of_mapping hn (List.mem_filter.1 he).1).2
  unfold sourcesOf at hme
  cases hv : g.content e.2 with
  | sequence ns =>
    rw [hv] at hme
    exact .tail (.single hvalue) (mem_children_of_sequence hv (List.mem_reverse.1 hme))
  | scalar text plain =>
    rw [hv] at hme
    exact List.mem_singleton.1 hme ▸ .single hvalue
  | mapping ds =>
    rw [hv] at hme
    exact List.mem_singleton.1 hme ▸ .single hvalue

theorem mapping_of_mem_entries {e : Entry} (he : e ∈ g.entries n) :
    g.content n = .mapping (g.entries n) := by
  unfold entries at he ⊢
  cases hn : g.content n with
  | mapping es => rfl
  | scalar text plain =>
    rw [hn] at he
    cases he
  | sequence ns =>
    rw [hn] at he
    cases he

theorem holds_of_takesAll (h : g.TakesAll n m) {e : Entry} (he : e ∈ g.entries m) :
    g.Holds n e.1 ∧ g.Holds n e.2 := by
  have hmem := mem_children_of_mapping (mapping_of_mem_entries he) he
  induction h using Relation.ReflTransGen.head_induction_on with
  | refl => exact ⟨.single hmem.1, .single hmem.2⟩
  | head hstep _ ih =>
    have hhold := holds_of_takesFrom hstep
    exact ⟨hhold.trans ih.1, hhold.trans ih.2⟩

/-- Where a key comes from: a mapping that is merged, or that is built itself. -/
def KeyOf (g : Graph) (n k : NodeId) : Prop :=
  ∃ m, g.TakesAll n m ∧ ∃ e ∈ g.own (g.entries m), e.1 = k

theorem holds_single {ns : List NodeId} (hn : g.content n = .sequence ns) {e : Entry}
    (he : e ∈ (ns.map g.single?).filterMap id) : g.Holds n e.1 ∧ g.Holds n e.2 := by
  obtain ⟨_, ho, rfl⟩ := List.mem_filterMap.1 he
  obtain ⟨m, hm, hme⟩ := List.mem_map.1 ho
  have hchild := mem_children_of_sequence hn hm
  unfold single? at hme
  split at hme
  · rename_i d hd
    cases hme
    have := mem_children_of_mapping hd List.mem_cons_self
    exact ⟨.tail (.single hchild) this.1, .tail (.single hchild) this.2⟩
  · cases hme

section Uses

variable {rank : NodeId → Nat} (hr : g.Ranked rank)

include hr

theorem Ranked.uses_merged {ρ : Role} {es : List Entry} (hes : g.merged n = some es) {σ : Role}
    (hu : (σ, c) ∈ es.flatMap fun e => [(ρ, e.1), (.item, e.2)]) :
    g.Holds n c ∧ (σ = .item ∨ σ = ρ ∧ g.isMapping n = true ∧ g.KeyOf n c) := by
  obtain ⟨e, he, hc⟩ := Plan.mem_uses_iff.1 hu
  obtain ⟨m, hm, hem⟩ := hr.mem_merged hes he
  have hholds := holds_of_takesAll hm (not_isMerge_of_own hem).1
  rcases hc with ⟨rfl, rfl⟩ | ⟨rfl, rfl⟩
  · exact ⟨hholds.1, Or.inr ⟨rfl, hr.isMapping_of_merged hes, m, hm, e, hem, rfl⟩⟩
  · exact ⟨hholds.2, Or.inl rfl⟩

theorem Ranked.uses_map (ρ : Role) {f : List Entry → Plan}
    (hf : ∀ es, (f es).uses = es.flatMap fun e => [(ρ, e.1), (.item, e.2)]) {p : Plan}
    (hp : (g.merged n).map f = some p) {σ : Role} (hu : (σ, c) ∈ p.uses) :
    g.Holds n c ∧ (σ = .item ∨ g.isMapping n = true ∧ g.KeyOf n c) := by
  obtain ⟨es, hes, rfl⟩ := Option.map_eq_some_iff.1 hp
  obtain ⟨hholds, hkey⟩ := hr.uses_merged hes (hf es ▸ hu)
  exact ⟨hholds, hkey.imp_right And.right⟩

theorem Ranked.uses_contentPlan {p : Plan} (hp : g.contentPlan n = some p) {σ : Role}
    (hu : (σ, c) ∈ p.uses) :
    g.Holds n c ∧ (σ = .item ∨ g.isMapping n = true ∧ g.KeyOf n c) := by
  unfold contentPlan at hp
  split at hp
  · obtain ⟨read, -, hread⟩ := Option.bind_eq_some_iff.1 hp
    obtain ⟨v, -, rfl⟩ := Option.map_eq_some_iff.1 hread
    cases hu
  · rename_i ns hn
    cases hp
    obtain ⟨m, hm, heq⟩ := List.mem_map.1 hu
    cases heq
    exact ⟨.single (mem_children_of_sequence hn hm), Or.inl rfl⟩
  · exact hr.uses_map .name (fun _ => rfl) hp hu

theorem Ranked.uses_fieldEntries {p : Plan} (hp : (g.fieldEntries n).map .struct = some p)
    {σ : Role} (hu : (σ, c) ∈ p.uses) :
    g.Holds n c ∧ (σ = .item ∨ g.isMapping n = true ∧ g.KeyOf n c) := by
  unfold fieldEntries at hp
  split at hp
  · exact hr.uses_map .name (fun _ => rfl) hp hu
  · cases hp
    cases hu
  · cases hp
  · split at hp
    · cases hp
      cases hu
    · cases hp

/-- What a node is made of is in it, and keys are those of mappings that are merged into it. -/
theorem Ranked.uses_plan {ρ σ : Role} {p : Plan} (hp : g.plan r (ρ, n) = some p)
    (hu : (σ, c) ∈ p.uses) :
    g.Holds n c ∧
      (σ = .item ∨ (ρ.tag (g.tag n)).merges = true ∧ g.isMapping n = true ∧ g.KeyOf n c) := by
  unfold plan planAs at hp
  simp only at hp
  generalize ρ.tag (g.tag n) = t at hp ⊢
  have hpairs : ∀ {ns : List NodeId}, g.content n = .sequence ns →
      some (Plan.pairs (ns.map g.single?)) = some p → g.Holds n c ∧ σ = .item := by
    intro ns hn hpairs
    cases hpairs
    obtain ⟨e, he, ⟨rfl, rfl⟩ | ⟨rfl, rfl⟩⟩ := Plan.mem_uses_iff.1 hu
    · exact ⟨(holds_single hn he).1, rfl⟩
    · exact ⟨(holds_single hn he).2, rfl⟩
  split at hp
  · split at hp
    · cases hp
    · obtain ⟨text, -, hread⟩ := Option.bind_eq_some_iff.1 hp
      obtain ⟨v, -, rfl⟩ := Option.map_eq_some_iff.1 hread
      cases hu
  · split at hp
    · rename_i ns hn _
      cases hp
      obtain ⟨m, hm, heq⟩ := List.mem_map.1 hu
      cases heq
      exact ⟨.single (mem_children_of_sequence hn hm), Or.inl rfl⟩
    · rename_i hn _
      exact (hpairs hn hp).imp_right Or.inl
    · rename_i hn _
      exact (hpairs hn hp).imp_right Or.inl
    · exact (hr.uses_map .key (fun _ => rfl) hp hu).imp_right (Or.imp_right (And.intro rfl))
    · cases r with
      | tree => exact (hr.uses_fieldEntries hp hu).imp_right (Or.imp_right (And.intro rfl))
      | data =>
        exact (hr.uses_map .key (fun _ => rfl) hp hu).imp_right (Or.imp_right (And.intro rfl))
    · cases r with
      | tree =>
        obtain ⟨q, hq, rfl⟩ := Option.map_eq_some_iff.1 hp
        exact (hr.uses_contentPlan hq hu).imp_right (Or.imp_right (And.intro rfl))
      | data => cases hp
    · cases hp

theorem Ranked.lt_of_holds (h : g.Holds n c) : rank c < rank n := by
  induction h with
  | single h => exact hr.lt _ _ h
  | tail _ h ih => exact Nat.lt_trans (hr.lt _ _ h) ih

theorem Ranked.meaning_eq (u : Role × NodeId) :
    g.meaning r u = (g.plan r u).bind (Plan.value (g.sameKey r) (g.meaning r)) := by
  have hfalls : Falls (fun u : Role × NodeId => rank u.2) (g.meaningStep r) := by
    intro f f' u hf
    unfold meaningStep
    cases hp : g.plan r u with
    | none => rfl
    | some p =>
      exact Plan.value_congr fun w hw => hf w (hr.lt_of_holds (hr.uses_plan hp hw).1)
  exact hfalls.unfolded_eq (i := u) (Nat.lt_succ_of_le (hr.le u.2))

end Uses

end Graph

end TreePaths.Yaml
