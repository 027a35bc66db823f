import TreePaths.Proofs.Yaml.Plan

/-!
The nodes that are built for a document, and the mappings that are merged on the way. A document is
steady if it does not matter to any node in which order this happens.
-/

namespace TreePaths.Yaml.Graph

variable {g : Graph} {r : Reading} {root n m k c : NodeId} {named : Bool} {ρ σ : Role}

def InKey (g : Graph) (k : NodeId) : Prop :=
  ∃ n, ∃ e ∈ g.entries n, k = e.1 ∨ g.Holds e.1 k

theorem inKey_of_mem {e : Entry} (he : e ∈ g.entries n) : g.InKey e.1 :=
  ⟨n, e, he, Or.inl rfl⟩

theorem InKey.holds (hk : g.InKey k) (hc : g.Holds k c) : g.InKey c := by
  obtain ⟨n, e, he, rfl | hk⟩ := hk
  · exact ⟨n, e, he, Or.inr hc⟩
  · exact ⟨n, e, he, Or.inr (hk.trans hc)⟩

theorem lt_size_of_mem_entries {e : Entry} (he : e ∈ g.entries n) : n < g.size :=
  lt_size_of_content (mapping_of_mem_entries he)

theorem InKey.mem_children (hk : g.InKey k) : ∃ n, k ∈ g.children n := by
  obtain ⟨n, e, he, rfl | hk⟩ := hk
  · exact ⟨n, (mem_children_of_mapping (mapping_of_mem_entries he) he).1⟩
  · obtain ⟨m, -, hm⟩ := Relation.TransGen.tail'_iff.1 hk
    exact ⟨m, hm⟩

/-- Nothing stands in keys that are scalars. -/
theorem InKey.eq_key (hk : g.InKey k)
    (hkeys : ∀ n < g.size, ∀ e ∈ g.entries n, g.children e.1 = []) :
    ∃ n, ∃ e ∈ g.entries n, k = e.1 := by
  obtain ⟨n, e, he, hk | hk⟩ := hk
  · exact ⟨n, e, he, hk⟩
  · obtain ⟨c, hc, -⟩ := Relation.TransGen.head'_iff.1 hk
    rw [hkeys n (lt_size_of_mem_entries he) e he] at hc
    cases hc

theorem Ranked.inKey_of_use {rank : NodeId → Nat} (hr : g.Ranked rank) {p : Plan}
    (hp : g.plan r (ρ, n) = some p) (hu : (σ, c) ∈ p.uses) :
    g.Holds n c ∧ (σ = .item ∨ g.InKey c) := by
  refine (hr.uses_plan hp hu).imp_right (Or.imp_right ?_)
  rintro ⟨-, -, m, -, e, he, rfl⟩
  exact inKey_of_mem (not_isMerge_of_own he).1

/-- The nodes that are built for a document, each in its role; `named` are those that the name of a
field is made of. -/
inductive Built (g : Graph) (r : Reading) (root : NodeId) : Bool → Role → NodeId → Prop where
  | root : Built g r root false .item root
  | use {named : Bool} {ρ σ : Role} {n c : NodeId} {p : Plan} (h : Built g r root named ρ n)
      (hp : g.plan r (ρ, n) = some p) (hu : (σ, c) ∈ p.uses) :
      Built g r root (named || σ = .name) σ c

/-- The mappings that are built, and those from which they take entries. -/
def Merged (g : Graph) (r : Reading) (root m : NodeId) : Prop :=
  ∃ named ρ n, Built g r root named ρ n ∧ (ρ.tag (g.tag n)).merges = true ∧
    g.isMapping n = true ∧ g.TakesAll n m

inductive Read (g : Graph) (r : Reading) (root : NodeId) : NodeId → Prop where
  | built {named : Bool} {ρ : Role} {n : NodeId} (h : Built g r root named ρ n)
      (ht : (scalarReader? (ρ.tag (g.tag n))).isSome = true) : Read g r root n
  | value {n : NodeId} {e : Entry} (h : Read g r root n)
      (he : (g.entries n).find? (fun e => g.tag e.1 = .value) = some e) : Read g r root e.2

structure Steady (g : Graph) (r : Reading) (root : NodeId) : Prop where
  /-- A collection that the name of a field is made of stands in such names only. -/
  apart : ∀ n ρ σ, (Site.emptyPiece? r (g.tag n)).isSome = true → Built g r root true ρ n →
    ¬Built g r root false σ n
  /-- A key `=` of a mapping that is merged is nothing else than such a key. -/
  keys : ∀ k, g.tag k = .value → g.KeyIn (g.Merged r root) k →
    (∀ named, ¬Built g r root named .item k) ∧
      ∀ n, g.Read r root n → ∀ e ∈ g.entries n, e.1 ≠ k
  /-- The pairs of a list of pairs that are merged elsewhere have no merge keys. -/
  pairs : ∀ n ns named ρ, Built g r root named ρ n → g.tag n = .omap ∨ g.tag n = .pairs →
    g.content n = .sequence ns → ∀ m ∈ ns, g.Merged r root m →
      ∀ e ∈ g.entries m, g.isMerge e = false

theorem Merged.takesFrom (h : g.Merged r root n) (hm : g.TakesFrom n m) :
    g.Merged r root m := by
  obtain ⟨named, ρ, k, hk, ht, hmap, htakes⟩ := h
  exact ⟨named, ρ, k, hk, ht, hmap, htakes.tail hm⟩

namespace Built

variable {p : Plan} {rank : NodeId → Nat}

theorem holds (hr : g.Ranked rank) (h : Built g r root named ρ n) :
    n = root ∨ g.Holds root n := by
  induction h with
  | root => exact Or.inl rfl
  | use _ hp hu ih =>
    have hc := (hr.uses_plan hp hu).1
    rcases ih with rfl | h
    · exact Or.inr hc
    · exact Or.inr (h.trans hc)

theorem lt_size (hg : g.IsDocument root) (hr : g.Ranked rank) (h : Built g r root named ρ n) :
    n < g.size := by
  rcases h.holds hr with rfl | h
  · exact hg.root_lt
  · cases h with
    | single h => exact hg.child_lt _ _ h
    | tail _ h => exact hg.child_lt _ _ h

/-- Without a value of a node that is built there is none of the document. -/
theorem needed (hr : g.Ranked rank) (h : Built g r root named ρ n)
    (hnone : g.meaning r (ρ, n) = none) : g.meaning r (.item, root) = none := by
  induction h with
  | root => exact hnone
  | use _ hp hu ih =>
    apply ih
    rw [hr.meaning_eq, hp]
    exact Plan.value_eq_none hu hnone

/-- What is built as a key, or in the name of a field, stands in a key. -/
theorem inKey (hr : g.Ranked rank) (hn : g.Built r root named ρ n)
    (h : named = true ∨ ρ ≠ .item) : g.InKey n := by
  induction hn with
  | root => simp at h
  | @use named ρ σ n c p _ hp hu ih =>
    obtain ⟨hholds, hkey⟩ := hr.inKey_of_use hp hu
    by_cases hσ : σ = .item
    · subst hσ
      rw [decide_eq_false nofun, Bool.or_false] at h
      exact (ih (Or.inl (h.resolve_right fun hne => hne rfl))).holds hholds
    · exact hkey.resolve_left hσ

/-- What is built for a part of a document, as a document of its own, is built for the document. -/
theorem trans (hn : g.Built r root false .item n) (hc : g.Built r n named ρ c) :
    g.Built r root named ρ c := by
  induction hc with
  | root => exact hn
  | use _ hp hu ih => exact ih.use hp hu

end Built

theorem Merged.trans (hn : g.Built r root false .item n) (hm : g.Merged r n m) :
    g.Merged r root m := by
  obtain ⟨named, ρ, k, hk, hrest⟩ := hm
  exact ⟨named, ρ, k, hn.trans hk, hrest⟩

theorem Read.trans (hn : g.Built r root false .item n) (hm : g.Read r n m) : g.Read r root m := by
  induction hm with
  | built hm ht => exact .built (hn.trans hm) ht
  | value _ he ih => exact ih.value he

/-- The parts of a steady document are steady. -/
theorem Steady.of_built (h : g.Steady r root) (hn : g.Built r root false .item n) :
    g.Steady r n where
  apart m ρ σ hempty hm hm' := h.apart m ρ σ hempty (hn.trans hm) (hn.trans hm')
  keys k hk hkey := by
    obtain ⟨m, hm, he⟩ := hkey
    obtain ⟨hitem, hread⟩ := h.keys k hk ⟨m, hm.trans hn, he⟩
    exact ⟨fun named hb => hitem named (hn.trans hb), fun m hm => hread m (hm.trans hn)⟩
  pairs m ns named ρ hm ht hc c hcns hmerged :=
    h.pairs m ns named ρ (hn.trans hm) ht hc c hcns (hmerged.trans hn)

/-- A document is steady if its keys are scalars other than `=` and no list of pairs is in it. -/
theorem Ranked.steady {rank : NodeId → Nat} (hr : g.Ranked rank)
    (hkeys : ∀ n < g.size, ∀ e ∈ g.entries n, g.children e.1 = [] ∧
      Site.emptyPiece? r (g.tag e.1) = none ∧ g.tag e.1 ≠ .value)
    (hpairs : ∀ n < g.size, g.tag n ≠ .omap ∧ g.tag n ≠ .pairs) : g.Steady r root where
  apart n ρ σ hempty hn _ := by
    obtain ⟨m, e, he, rfl⟩ := (hn.inKey hr (Or.inl rfl)).eq_key fun m hm e he => (hkeys m hm e he).1
    rw [(hkeys m (lt_size_of_mem_entries he) e he).2.1] at hempty
    cases hempty
  keys k hk hkey := by
    obtain ⟨m, -, e, he, rfl⟩ := hkey
    exact absurd hk (hkeys m (lt_size_of_mem_entries he) e he).2.2
  pairs n ns named ρ _ ht hc m hm := by
    have hlt := lt_size_of_mem_children (mem_children_of_sequence hc hm)
    rcases ht with ht | ht
    · exact absurd ht (hpairs n hlt).1
    · exact absurd ht (hpairs n hlt).2

end TreePaths.Yaml.Graph
