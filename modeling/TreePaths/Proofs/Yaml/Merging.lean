import Mathlib.Data.List.TakeDrop
import Mathlib.Data.List.TakeWhile
import Mathlib.Logic.Relation
import TreePaths.Proofs.Yaml.Nodes
import TreePaths.Proofs.Yaml.Outcome
import TreePaths.Yaml.Merge

/-!
Merge keys: what the entries of a mapping are after merging is told by the document as it was
composed, in whatever order its mappings are changed.
-/

namespace TreePaths.Yaml.Graph

variable {g h h' : Graph} {n m : NodeId}

section Edits

theorem lt_size_of_content {es : List Entry} (hn : g.content n = .mapping es) : n < g.size := by
  rcases Nat.lt_or_ge n g.size with h | h
  · exact h
  · rw [content, node, Array.getD_eq_getD_getElem?, Array.getElem?_eq_none h] at hn
    cases hn

@[simp] theorem size_setNode (x : Node) : (g.setNode n x).size = g.size :=
  Array.size_setIfInBounds

theorem node_setNode (x : Node) (hn : n < g.size) :
    (g.setNode n x).node m = if m = n then x else g.node m := by
  have hn : n < g.nodes.size := hn
  simp only [node, setNode, Array.getD_eq_getD_getElem?, Array.getElem?_setIfInBounds]
  by_cases h : m = n
  · subst h
    rw [if_pos rfl, if_pos rfl, if_pos hn]
    rfl
  · rw [if_neg (Ne.symm h), if_neg h]

@[simp] theorem size_setEntries (es : List Entry) : (g.setEntries n es).size = g.size :=
  size_setNode _

theorem content_setEntries (es : List Entry) (hn : n < g.size) :
    (g.setEntries n es).content m = if m = n then .mapping es else g.content m := by
  rw [content, setEntries, node_setNode _ hn]
  by_cases h : m = n <;> simp [h, content]

@[simp] theorem tag_setEntries (es : List Entry) (hn : n < g.size) :
    (g.setEntries n es).tag m = g.tag m := by
  rw [tag, setEntries, node_setNode _ hn]
  by_cases h : m = n <;> simp [h, tag]

theorem node_setNode_of_le (x : Node) (hn : g.size ≤ n) : (g.setNode n x).node m = g.node m := by
  have hn : g.nodes.size ≤ n := hn
  simp only [node, setNode, Array.getD_eq_getD_getElem?, Array.getElem?_setIfInBounds]
  by_cases h : n = m
  · subst h
    rw [if_pos rfl, if_neg (Nat.not_lt.2 hn), Array.getElem?_eq_none hn]
  · rw [if_neg h]

@[simp] theorem content_setTag (t : Tag) : (g.setTag n t).content m = g.content m := by
  rw [content, setTag]
  rcases Nat.lt_or_ge n g.size with hn | hn
  · rw [node_setNode _ hn]
    by_cases h : m = n <;> simp [h, content]
  · rw [node_setNode_of_le _ hn, content]

theorem tag_setTag (t : Tag) : (g.setTag n t).tag m = g.tag m ∨ m = n ∧ (g.setTag n t).tag m = t := by
  rw [tag, setTag]
  rcases Nat.lt_or_ge n g.size with hn | hn
  · rw [node_setNode _ hn]
    by_cases h : m = n <;> simp [h, tag]
  · exact Or.inl (by rw [node_setNode_of_le _ hn, tag])

theorem tag_setTag_self (t : Tag) (hn : n < g.size) : (g.setTag n t).tag n = t := by
  rw [tag, setTag, node_setNode _ hn, if_pos rfl]

theorem setTags_spec (es : List Entry) (g : Graph) :
    let h := es.foldl (fun h e => h.setTag e.1 .str) g
    h.size = g.size ∧ (∀ m, h.content m = g.content m) ∧
      (∀ m, h.tag m = g.tag m ∨ (∃ e ∈ es, e.1 = m) ∧ h.tag m = .str) ∧
      ∀ e ∈ es, e.1 < g.size → h.tag e.1 = .str := by
  induction es generalizing g with
  | nil => exact ⟨rfl, fun _ => rfl, fun _ => Or.inl rfl, nofun⟩
  | cons e es ih =>
    obtain ⟨hsize, hcontent, htag, hkeys⟩ := ih (g.setTag e.1 .str)
    refine ⟨hsize.trans (size_setNode _), fun m => (hcontent m).trans (content_setTag _), ?_, ?_⟩
    · intro m
      rcases htag m with hm | ⟨⟨d, hd, rfl⟩, hm⟩
      · rcases tag_setTag (g := g) (n := e.1) (m := m) .str with hold | ⟨hme, hstr⟩
        · exact Or.inl (hm.trans hold)
        · exact Or.inr ⟨⟨e, List.mem_cons_self, hme.symm⟩, hm.trans hstr⟩
      · exact Or.inr ⟨⟨d, List.mem_cons_of_mem e hd, rfl⟩, hm⟩
    · intro d hd hlt
      cases hd with
      | head =>
        rcases htag e.1 with hm | ⟨-, hm⟩
        · exact hm.trans (tag_setTag_self _ hlt)
        · exact hm
      | tail _ hd => exact hkeys d hd (by rwa [setTag, size_setNode])

/-- The keys `=` of a mapping, and nothing else, become texts. -/
theorem nameValueKeys_spec (g : Graph) (n : NodeId) :
    (g.nameValueKeys n).size = g.size ∧ (∀ m, (g.nameValueKeys n).content m = g.content m) ∧
      (∀ m, (g.nameValueKeys n).tag m = g.tag m ∨ g.tag m = .value ∧
        (∃ e ∈ g.entries n, e.1 = m) ∧ (g.nameValueKeys n).tag m = .str) ∧
      ∀ e ∈ g.entries n, e.1 < g.size → (g.nameValueKeys n).tag e.1 ≠ .value := by
  obtain ⟨hsize, hcontent, htag, hkeys⟩ :=
    setTags_spec ((g.entries n).filter fun e => g.tag e.1 = .value) g
  refine ⟨hsize, hcontent, ?_, ?_⟩
  · intro m
    rcases htag m with hm | ⟨⟨e, he, rfl⟩, hm⟩
    · exact Or.inl hm
    · have he := List.mem_filter.1 he
      exact Or.inr ⟨of_decide_eq_true he.2, ⟨e, he.1, rfl⟩, hm⟩
  · intro e he hlt hvalue
    by_cases hold : g.tag e.1 = .value
    · have hstr := hkeys e (List.mem_filter.2 ⟨he, decide_eq_true hold⟩) hlt
      exact absurd (hstr.symm.trans hvalue) nofun
    · rcases htag e.1 with hm | ⟨-, hm⟩
      · exact hold (hm.symm.trans hvalue)
      · exact absurd (hm.symm.trans hvalue) nofun

end Edits

section Static

def isMerge (g : Graph) (e : Entry) : Bool :=
  g.tag e.1 = .merge

/-- The entries that a mapping does not take from others. -/
def own (g : Graph) (es : List Entry) : List Entry :=
  es.filter (!g.isMerge ·)

/-- The mappings that the value of a merge key stands for, in the order of what is taken. -/
def sourcesOf (g : Graph) (v : NodeId) : List NodeId :=
  match g.content v with
  | .sequence ns => ns.reverse
  | _ => [v]

def sources (g : Graph) (es : List Entry) : List NodeId :=
  (es.filter g.isMerge).flatMap fun e => g.sourcesOf e.2

/-- The entries of a mapping, given those of the mappings it takes from. -/
def mergedStep (g : Graph) (f : NodeId → Option (List Entry)) (n : NodeId) :
    Option (List Entry) :=
  match g.content n with
  | .mapping es => ((g.sources es).mapM f).map (·.flatten ++ g.own es)
  | _ => none

/-- The entries of a mapping after merging; none if it takes from what is no mapping. -/
def merged (g : Graph) : NodeId → Option (List Entry) :=
  unfolded g.mergedStep (g.size + 1)

def TakesFrom (g : Graph) (n m : NodeId) : Prop :=
  ∃ es, g.content n = .mapping es ∧ m ∈ g.sources es

theorem isMapping_iff : g.isMapping n = true ↔ ∃ es, g.content n = .mapping es := by
  unfold isMapping
  cases g.content n <;> simp

theorem entries_of_content {es : List Entry} (hn : g.content n = .mapping es) :
    g.entries n = es := by
  rw [entries, hn]

variable {rank : NodeId → Nat} (hr : g.Ranked rank)

include hr

theorem Ranked.entry_lt {es : List Entry} (hn : g.content n = .mapping es) {e : Entry}
    (he : e ∈ es) : rank e.1 < rank n ∧ rank e.2 < rank n :=
  have hmem := mem_children_of_mapping hn he
  ⟨hr.lt n _ hmem.1, hr.lt n _ hmem.2⟩

theorem Ranked.sourcesOf_le {v : NodeId} (hm : m ∈ g.sourcesOf v) : rank m ≤ rank v := by
  unfold sourcesOf at hm
  cases hv : g.content v with
  | sequence ns =>
    rw [hv] at hm
    exact Nat.le_of_lt (hr.lt v m (mem_children_of_sequence hv (List.mem_reverse.1 hm)))
  | scalar text plain =>
    rw [hv] at hm
    exact Nat.le_of_eq (by rw [List.mem_singleton.1 hm])
  | mapping es =>
    rw [hv] at hm
    exact Nat.le_of_eq (by rw [List.mem_singleton.1 hm])

theorem Ranked.source_lt (h : g.TakesFrom n m) : rank m < rank n := by
  obtain ⟨es, hn, hm⟩ := h
  obtain ⟨e, he, hme⟩ := List.mem_flatMap.1 hm
  have hle := hr.sourcesOf_le hme
  have hlt := (hr.entry_lt hn (List.mem_filter.1 he).1).2
  omega

/-- Merging is one step from the mappings that entries are taken from, since these have lower ranks.
-/
theorem Ranked.merged_eq (n : NodeId) : g.merged n = g.mergedStep g.merged n := by
  have hfalls : Falls rank g.mergedStep := by
    intro f f' n hf
    unfold mergedStep
    cases hn : g.content n with
    | mapping es =>
      have hsame : (g.sources es).mapM f = (g.sources es).mapM f' :=
        mapM_congr fun m hm => hf m (hr.source_lt ⟨es, hn, hm⟩)
      simp only [hsame]
    | scalar text plain => rfl
    | sequence ns => rfl
  exact hfalls.unfolded_eq (Nat.lt_succ_of_le (hr.le n))

theorem Ranked.merged_mapping {es : List Entry} (hn : g.content n = .mapping es) :
    g.merged n = ((g.sources es).mapM g.merged).map (·.flatten ++ g.own es) := by
  rw [hr.merged_eq, mergedStep, hn]

theorem Ranked.isMapping_of_merged {es : List Entry} (hn : g.merged n = some es) :
    g.isMapping n = true := by
  rw [hr.merged_eq, mergedStep] at hn
  unfold isMapping
  cases hc : g.content n with
  | mapping es => rfl
  | scalar text plain => rw [hc] at hn; cases hn
  | sequence ns => rw [hc] at hn; cases hn

/-- Each entry after merging is an entry of the mapping itself or of one it takes from. -/
theorem Ranked.mem_merged {es : List Entry} (hn : g.merged n = some es) {e : Entry} (he : e ∈ es) :
    ∃ m, Relation.ReflTransGen g.TakesFrom n m ∧ e ∈ g.own (g.entries m) := by
  induction hk : rank n using Nat.strongRecOn generalizing n es with
  | _ k ih =>
    obtain ⟨raw, hraw⟩ := isMapping_iff.1 (hr.isMapping_of_merged hn)
    rw [hr.merged_mapping hraw] at hn
    obtain ⟨taken, htaken, rfl⟩ := Option.map_eq_some_iff.1 hn
    rcases List.mem_append.1 he with he | he
    · obtain ⟨ds, hds, hed⟩ := List.mem_flatten.1 he
      have hmem : some ds ∈ (g.sources raw).map g.merged :=
        mapM_eq_some.1 htaken ▸ List.mem_map_of_mem hds
      obtain ⟨v, hv, hvds⟩ := List.mem_map.1 hmem
      have htakes : g.TakesFrom n v := ⟨raw, hraw, hv⟩
      obtain ⟨m, hvm, hem⟩ := ih (rank v) (hk ▸ hr.source_lt htakes) hvds hed rfl
      exact ⟨m, Relation.ReflTransGen.head htakes hvm, hem⟩
    · exact ⟨n, Relation.ReflTransGen.refl, by rwa [entries_of_content hraw]⟩

end Static

section Dynamic

def HoldsMerge (g : Graph) (n : NodeId) : Prop :=
  ∃ e ∈ g.entries n, g.isMerge e = true

/-- The mapping has its entries after merging, and its keys `=` have become texts. -/
def IsFlat (g h : Graph) (n : NodeId) : Prop :=
  ∃ es, g.merged n = some es ∧ h.content n = .mapping es ∧ ∀ e ∈ es, h.tag e.1 ≠ .value

def KeyIn (g : Graph) (flat : NodeId → Prop) (k : NodeId) : Prop :=
  ∃ n, flat n ∧ ∃ e ∈ g.entries n, e.1 = k

/-- What can have become of a document by merging in the mappings of a set, as far as nodes of a
rank below `β` are concerned. -/
structure Edited (g : Graph) (rank : NodeId → Nat) (flat : NodeId → Prop) (β : Nat) (h : Graph) :
    Prop where
  size : h.size = g.size
  tag : ∀ n, h.tag n = g.tag n ∨ g.tag n = .value ∧ h.tag n = .str ∧ g.KeyIn flat n
  content : ∀ n, rank n < β → h.content n = g.content n ∨ flat n ∧ g.IsFlat h n

/-- What can change from one state of a document to a later one, but for the content of nodes that
are `kept`. -/
structure Changes (kept : NodeId → Prop) (h h' : Graph) : Prop where
  content : ∀ n, kept n → h'.content n = h.content n
  tag : ∀ n, h.tag n ≠ .value → h'.tag n = h.tag n
  fewer : ∀ n, h'.HoldsMerge n → h.HoldsMerge n

namespace Changes

variable {kept kept' : NodeId → Prop} {h'' : Graph}

theorem refl (kept : NodeId → Prop) (h : Graph) : Changes kept h h :=
  ⟨fun _ _ => rfl, fun _ _ => rfl, fun _ => id⟩

theorem trans (hh : Changes kept h h') (hh' : Changes kept h' h'') : Changes kept h h'' where
  content n hn := (hh'.content n hn).trans (hh.content n hn)
  tag n hn := (hh'.tag n (by rwa [hh.tag n hn])).trans (hh.tag n hn)
  fewer n hn := hh.fewer n (hh'.fewer n hn)

theorem weaken (hh : Changes kept h h') (hkept : ∀ n, kept' n → kept n) : Changes kept' h h' :=
  ⟨fun n hn => hh.content n (hkept n hn), hh.tag, hh.fewer⟩

theorem tag_ne (hh : Changes kept h h') (hn : h.tag n ≠ .value) : h'.tag n ≠ .value := by
  rwa [hh.tag n hn]

theorem isFlat (hh : Changes kept h h') (hn : kept n) (hflat : g.IsFlat h n) : g.IsFlat h' n := by
  obtain ⟨es, hes, hcontent, hkeys⟩ := hflat
  exact ⟨es, hes, (hh.content n hn).trans hcontent, fun e he => hh.tag_ne (hkeys e he)⟩

end Changes

namespace Edited

variable {rank : NodeId → Nat} {flat : NodeId → Prop} {β γ : Nat}

theorem start (g : Graph) (rank : NodeId → Nat) (flat : NodeId → Prop) (β : Nat) :
    g.Edited rank flat β g :=
  ⟨rfl, fun _ => Or.inl rfl, fun _ _ => Or.inl rfl⟩

theorem weaken (hh : g.Edited rank flat β h) (hγ : γ ≤ β) : g.Edited rank flat γ h :=
  ⟨hh.size, hh.tag, fun n hn => hh.content n (by omega)⟩

theorem isMerge_eq (hh : g.Edited rank flat β h) : h.isMerge = g.isMerge := by
  funext e
  unfold isMerge
  rcases hh.tag e.1 with he | ⟨hvalue, hstr, -⟩
  · rw [he]
  · rw [hvalue, hstr]
    rfl

variable (hr : g.Ranked rank)

include hr

theorem isMapping_eq (hh : g.Edited rank flat β h) (hn : rank n < β) :
    h.isMapping n = g.isMapping n := by
  rcases hh.content n hn with hsame | ⟨-, es, hes, hcontent, -⟩
  · rw [isMapping, hsame]
    rfl
  · rw [hr.isMapping_of_merged hes, isMapping, hcontent]

/-- What is no mapping stays as it is. -/
theorem content_eq (hh : g.Edited rank flat β h) (hn : rank n < β) (hmap : g.isMapping n = false) :
    h.content n = g.content n := by
  rcases hh.content n hn with hsame | ⟨-, es, hes, -⟩
  · exact hsame
  · exact absurd ((hr.isMapping_of_merged hes).symm.trans hmap) nofun

end Edited

section Runs

variable {rank : NodeId → Nat} {flat : NodeId → Prop} {holds : NodeId → Bool} {β : Nat}
  {fl : NodeId → Edit Unit} {L : Prop}

/-- Mappings of the set that are of a rank below `β` are flattened, unless they take from what is no
mapping. Merge keys stand only where `holds`. -/
def Flattens (g : Graph) (rank : NodeId → Nat) (flat : NodeId → Prop) (holds : NodeId → Bool)
    (fl : NodeId → Edit Unit) (β : Nat) : Prop :=
  ∀ v h γ, rank v < β → rank v < γ → flat v → g.isMapping v = true → g.Edited rank flat γ h →
    (∀ m, h.HoldsMerge m → holds m = true) →
    Ends (g.merged v = none) (fl v) h fun _ h' =>
      g.Edited rank flat γ h' ∧ Changes (rank v < rank ·) h h' ∧ g.IsFlat h' v

/-- The entries taken so far are those of the mappings they are taken from, in their order. -/
def Taken (g h : Graph) (ms : List NodeId) (es : List Entry) : Prop :=
  (∃ taken, ms.mapM g.merged = some taken ∧ es = taken.flatten) ∧ ∀ e ∈ es, h.tag e.1 ≠ .value

theorem Taken.append {ms ms' : List NodeId} {es es' : List Entry} {kept : NodeId → Prop}
    (hes : g.Taken h ms es) (hhh' : Changes kept h h') (hes' : g.Taken h' ms' es') :
    g.Taken h' (ms ++ ms') (es ++ es') := by
  obtain ⟨⟨taken, htaken, rfl⟩, hkeys⟩ := hes
  obtain ⟨⟨taken', htaken', rfl⟩, hkeys'⟩ := hes'
  refine ⟨⟨taken ++ taken', ?_, List.flatten_append.symm⟩, ?_⟩
  · rw [mapM_eq_some, List.map_append, List.map_append, mapM_eq_some.1 htaken,
      mapM_eq_some.1 htaken']
  · intro e he
    rcases List.mem_append.1 he with he | he
    · exact hhh'.tag_ne (hkeys e he)
    · exact hkeys' e he

/-- Taking over flattens mappings and takes their entries, those of the last mapping first. -/
theorem takeOver_ends (hr : g.Ranked rank) (hfl : g.Flattens rank flat holds fl β)
    (ns : List NodeId) (hns : ∀ v ∈ ns, rank v < β ∧ flat v)
    (hlost : ∀ v ∈ ns, g.merged v = none → L) {h : Graph} (hh : g.Edited rank flat β h)
    (hholds : ∀ m, h.HoldsMerge m → holds m = true) :
    Ends L (takeOver fl ns) h fun es h' =>
      g.Edited rank flat β h' ∧ Changes (β ≤ rank ·) h h' ∧ g.Taken h' ns.reverse es := by
  induction ns generalizing h with
  | nil => exact Ends.pure ⟨hh, Changes.refl _ h, ⟨[], rfl, rfl⟩, nofun⟩
  | cons v vs ih =>
    obtain ⟨hv, hflat⟩ := hns v List.mem_cons_self
    have hmap := hh.isMapping_eq hr hv
    unfold takeOver
    apply Ends.get_bind
    cases hg : g.isMapping v with
    | false =>
      rw [hmap, hg]
      apply Ends.throw
      apply hlost v List.mem_cons_self
      cases hm : g.merged v with
      | none => rfl
      | some es => exact absurd ((hr.isMapping_of_merged hm).symm.trans hg) nofun
    | true =>
      rw [hmap, hg]
      show Ends L (fl v >>= fun _ => get >>= fun t =>
        takeOver fl vs >>= fun es => pure (es ++ t.entries v)) h _
      apply Ends.bind ((hfl v h β hv hv hflat hg hh hholds).lose (hlost v List.mem_cons_self))
      rintro - h₁ ⟨hh₁, hc₁, es, hes, hcontent, hkeys⟩
      apply Ends.get_bind
      rw [entries_of_content hcontent]
      apply Ends.bind (ih (fun w hw => hns w (List.mem_cons_of_mem v hw))
        (fun w hw => hlost w (List.mem_cons_of_mem v hw)) hh₁
        fun m hm => hholds m (hc₁.fewer m hm))
      rintro ds h₂ ⟨hh₂, hc₂, hds⟩
      apply Ends.pure
      have hc₁ : Changes (β ≤ rank ·) h h₁ := hc₁.weaken fun m hm => by omega
      refine ⟨hh₂, hc₁.trans hc₂, ?_⟩
      rw [List.reverse_cons]
      refine hds.append (Changes.refl (β ≤ rank ·) h₂) ⟨⟨[es], ?_, by simp⟩, ?_⟩
      · rw [mapM_eq_some, List.map_singleton, hes]
        rfl
      · exact fun e he => hc₂.tag_ne (hkeys e he)

theorem contribution_ends (hr : g.Ranked rank) (hfl : g.Flattens rank flat holds fl β)
    {v : NodeId} (hv : rank v < β) (hns : ∀ m ∈ g.sourcesOf v, flat m)
    (hlost : ∀ m ∈ g.sourcesOf v, g.merged m = none → L) (hh : g.Edited rank flat β h)
    (hholds : ∀ m, h.HoldsMerge m → holds m = true) :
    Ends L (contribution fl v) h fun es h' =>
      g.Edited rank flat β h' ∧ Changes (β ≤ rank ·) h h' ∧ g.Taken h' (g.sourcesOf v) es := by
  have hends := takeOver_ends (L := L) hr hfl (g.sourcesOf v).reverse
    (fun m hm => ⟨Nat.lt_of_le_of_lt (hr.sourcesOf_le (List.mem_reverse.1 hm)) hv,
      hns m (List.mem_reverse.1 hm)⟩)
    (fun m hm => hlost m (List.mem_reverse.1 hm)) hh hholds
  rw [List.reverse_reverse] at hends
  unfold contribution
  apply Ends.get_bind
  cases hg : g.content v with
  | sequence ns =>
    have hsources : (g.sourcesOf v).reverse = ns := by simp [sourcesOf, hg]
    rw [(hh.content_eq hr hv (by rw [isMapping, hg])).trans hg]
    rwa [hsources] at hends
  | scalar text plain =>
    have hsources : (g.sourcesOf v).reverse = [v] := by simp [sourcesOf, hg]
    rw [(hh.content_eq hr hv (by rw [isMapping, hg])).trans hg]
    rwa [hsources] at hends
  | mapping raw =>
    have hsources : (g.sourcesOf v).reverse = [v] := by simp [sourcesOf, hg]
    obtain ⟨es, hes⟩ := isMapping_iff.1 ((hh.isMapping_eq hr hv).trans (isMapping_iff.2 ⟨raw, hg⟩))
    rw [hes]
    rwa [hsources] at hends

/-- The first merge key of a mapping is taken away, if there is one. -/
theorem takeMerge_settles {P : Fault → Prop} {Q : Option NodeId → Graph → Prop}
    (hnone : (h.entries n).filter h.isMerge = [] → Q none h)
    (hsome : ∀ front e back, h.entries n = front ++ e :: back → front.filter h.isMerge = [] →
      h.isMerge e = true → Q (some e.2) (h.setEntries n (front ++ back))) :
    Settles P (takeMerge n) h Q := by
  have hsame : (fun e : Entry => decide (h.tag e.1 ≠ .merge)) = fun e => !h.isMerge e := by
    funext e
    rw [isMerge, decide_not]
  have hfront : ((h.entries n).takeWhile fun e => !h.isMerge e).filter h.isMerge = [] := by
    rw [List.filter_eq_nil_iff]
    intro e he
    simpa using List.mem_takeWhile_imp he
  unfold takeMerge
  apply Settles.get_bind
  rw [hsame, List.span_eq_takeWhile_dropWhile]
  have hsplit := List.takeWhile_append_dropWhile (p := fun e => !h.isMerge e) (l := h.entries n)
  have hhead := List.head?_dropWhile_not (fun e => !h.isMerge e) (h.entries n)
  cases hback : (h.entries n).dropWhile fun e => !h.isMerge e with
  | nil =>
    rw [hback, List.append_nil] at hsplit
    exact Settles.pure (hnone (hsplit ▸ hfront))
  | cons e back =>
    rw [hback] at hsplit hhead
    obtain ⟨k, v⟩ := e
    apply Settles.set_bind
    exact Settles.pure (hsome _ (k, v) back hsplit.symm hfront (by simpa using hhead))

theorem takeMerge_ends (hh : g.Edited rank flat β h) {es : List Entry}
    (hn : h.content n = .mapping es) {Q : Option NodeId → Graph → Prop}
    (hnone : es.filter g.isMerge = [] → Q none h)
    (hsome : ∀ front e back, es = front ++ e :: back → front.filter g.isMerge = [] →
      g.isMerge e = true → Q (some e.2) (h.setEntries n (front ++ back))) :
    Ends L (takeMerge n) h Q := by
  apply Ends.iff_settles.2
  apply takeMerge_settles
  · rwa [entries_of_content hn, hh.isMerge_eq]
  · rwa [entries_of_content hn, hh.isMerge_eq]

theorem changes_setEntries {es es' : List Entry} (hn : h.content n = .mapping es)
    (hes : ∀ e ∈ es', e ∈ es) : Changes (· ≠ n) h (h.setEntries n es') := by
  have hlt := lt_size_of_content hn
  constructor
  · intro m hm
    rw [content_setEntries _ hlt, if_neg hm]
  · intro m _
    exact tag_setEntries _ hlt
  · rintro m ⟨e, he, hmerge⟩
    have hmerge : h.isMerge e = true := by rwa [isMerge, tag_setEntries _ hlt] at hmerge
    refine ⟨e, ?_, hmerge⟩
    by_cases hm : m = n
    · subst hm
      rw [entries_of_content hn]
      rw [entries, content_setEntries _ hlt, if_pos rfl] at he
      exact hes e he
    · rwa [entries, content_setEntries _ hlt, if_neg hm] at he

theorem Edited.setEntries (hh : g.Edited rank flat β h) (hn : n < h.size) (hβ : β ≤ rank n)
    (es : List Entry) : g.Edited rank flat β (h.setEntries n es) where
  size := (size_setEntries es).trans hh.size
  tag m := by
    rw [tag_setEntries _ hn]
    exact hh.tag m
  content m hm := by
    have hne : m ≠ n := fun h => by subst h; omega
    rw [content_setEntries _ hn, if_neg hne]
    refine (hh.content m hm).imp_right fun ⟨hflat, ds, hds, hcontent, hkeys⟩ =>
      ⟨hflat, ds, hds, ?_, ?_⟩
    · rwa [content_setEntries _ hn, if_neg hne]
    · intro e he
      rw [tag_setEntries _ hn]
      exact hkeys e he

theorem sources_of_none {es : List Entry} (hes : es.filter g.isMerge = []) :
    g.own es = es ∧ g.sources es = [] := by
  constructor
  · rw [own, List.filter_eq_self]
    intro e he
    simpa using List.filter_eq_nil_iff.1 hes e he
  · rw [sources, hes]
    rfl

/-- The mappings that entries are taken from may be flattened, and must be. -/
def Open (g : Graph) (flat : NodeId → Prop) (L : Prop) (v : NodeId) : Prop :=
  ∀ m ∈ g.sourcesOf v, flat m ∧ (g.merged m = none → L)

theorem contributions_none (hh : g.Edited rank flat β h) {es : List Entry}
    (hn : h.content n = .mapping es) (hes : es.filter g.isMerge = []) (count : Nat) :
    Ends L (contributions fl n count) h fun ds h' => ds = [] ∧ h' = h := by
  cases count with
  | zero => exact Ends.pure ⟨rfl, rfl⟩
  | succ count =>
    unfold contributions
    apply Ends.bind (Q := fun v h' => v = none ∧ h' = h)
    · apply takeMerge_ends hh hn
      · exact fun _ => ⟨rfl, rfl⟩
      · rintro front e back rfl - he
        have hmem := List.filter_eq_nil_iff.1 hes e (List.mem_append_right _ List.mem_cons_self)
        exact absurd he hmem
    · rintro v h' ⟨rfl, rfl⟩
      exact Ends.pure ⟨rfl, rfl⟩

/-- From a mapping without merge keys nothing is taken. -/
theorem contributions_of_none (hh : g.Edited rank flat β h) {es : List Entry}
    (hn : h.content n = .mapping es) (hes : es.filter g.isMerge = []) (count : Nat) :
    Ends L (contributions fl n count) h fun ds h' =>
      g.Edited rank flat β h' ∧ Changes (fun m => β ≤ rank m ∧ m ≠ n) h h' ∧
        h'.content n = .mapping (g.own es) ∧ g.Taken h' (g.sources es) ds := by
  obtain ⟨hown, hsources⟩ := sources_of_none hes
  refine (contributions_none hh hn hes count).mono ?_
  rintro ds h' ⟨rfl, rfl⟩
  exact ⟨hh, Changes.refl _ h', by rw [hown, hn], hsources ▸ ⟨⟨[], rfl, rfl⟩, nofun⟩⟩

/-- The first merge key is taken away if there is one. -/
theorem takeMerge_first (hh : g.Edited rank flat β h) {es : List Entry}
    (hn : h.content n = .mapping es) (hes : es.filter g.isMerge ≠ []) :
    Ends L (takeMerge n) h fun v h' => ∃ front e back, v = some e.2 ∧ es = front ++ e :: back ∧
      front.filter g.isMerge = [] ∧ g.isMerge e = true ∧ h' = h.setEntries n (front ++ back) := by
  apply takeMerge_ends hh hn
  · exact fun hnone => absurd hnone hes
  · exact fun front e back hes hfront he => ⟨front, e, back, rfl, hes, hfront, he, rfl⟩

section First

variable {front back : List Entry} {e : Entry}

theorem filter_isMerge_first (hfront : front.filter g.isMerge = []) (he : g.isMerge e = true) :
    (front ++ e :: back).filter g.isMerge = e :: (front ++ back).filter g.isMerge := by
  rw [List.filter_append, List.filter_append, hfront, List.filter_cons_of_pos he]
  rfl

theorem sources_first (hfront : front.filter g.isMerge = []) (he : g.isMerge e = true) :
    g.sources (front ++ e :: back) = g.sourcesOf e.2 ++ g.sources (front ++ back) := by
  rw [sources, filter_isMerge_first hfront he, List.flatMap_cons]
  rfl

theorem own_first (he : g.isMerge e = true) :
    g.own (front ++ e :: back) = g.own (front ++ back) := by
  rw [own, own, List.filter_append, List.filter_append, List.filter_cons_of_neg]
  simpa using he

end First

/-- All merge keys are removed, and what is taken for them are the entries of their sources. -/
theorem contributions_ends (hr : g.Ranked rank) (hfl : g.Flattens rank flat holds fl β)
    (hβ : β ≤ rank n) (count : Nat) {es : List Entry}
    (hcount : (es.filter g.isMerge).length ≤ count)
    (hopen : ∀ e ∈ es, g.isMerge e = true → rank e.2 < β ∧ g.Open flat L e.2) {h : Graph}
    (hn : h.content n = .mapping es) (hh : g.Edited rank flat β h)
    (hholds : ∀ m, h.HoldsMerge m → holds m = true) :
    Ends L (contributions fl n count) h fun ds h' =>
      g.Edited rank flat β h' ∧ Changes (fun m => β ≤ rank m ∧ m ≠ n) h h' ∧
        h'.content n = .mapping (g.own es) ∧ g.Taken h' (g.sources es) ds := by
  induction count generalizing es h with
  | zero => exact contributions_of_none hh hn (List.length_eq_zero_iff.1 (Nat.le_zero.1 hcount)) 0
  | succ count ih =>
    by_cases hes : es.filter g.isMerge = []
    · exact contributions_of_none hh hn hes (count + 1)
    unfold contributions
    apply Ends.bind (takeMerge_first hh hn hes)
    rintro v h₁ ⟨front, e, back, rfl, rfl, hfront, he, rfl⟩
    have hlt := lt_size_of_content hn
    have hsub := ((List.sublist_cons_self e back).append_left front).subset
    have hc₁ := changes_setEntries (n := n) hn fun d hd => hsub hd
    obtain ⟨hv, hsourcesOf⟩ := hopen e (List.mem_append_right _ List.mem_cons_self) he
    apply Ends.bind (contribution_ends hr hfl hv (fun m hm => (hsourcesOf m hm).1)
      (fun m hm => (hsourcesOf m hm).2) (hh.setEntries hlt hβ _)
      fun m hm => hholds m (hc₁.fewer m hm))
    rintro ds h₂ ⟨hh₂, hc₂, hds⟩
    have hn₂ : h₂.content n = .mapping (front ++ back) := by
      rw [hc₂.content n hβ, content_setEntries _ hlt, if_pos rfl]
    rw [filter_isMerge_first hfront he, List.length_cons] at hcount
    apply Ends.bind (ih (by omega) (fun d hd => hopen d (hsub hd)) hn₂ hh₂
      fun m hm => hholds m (hc₁.fewer m (hc₂.fewer m hm)))
    rintro ds' h₃ ⟨hh₃, hc₃, hn₃, hds'⟩
    rw [own_first he, sources_first hfront he]
    refine Ends.pure ⟨hh₃, ?_, hn₃, hds.append hc₃ hds'⟩
    exact ((hc₁.weaken fun m hm => hm.2).trans (hc₂.weaken fun m hm => hm.1)).trans hc₃

theorem not_isMerge_of_own {es : List Entry} {e : Entry} (he : e ∈ g.own es) :
    e ∈ es ∧ g.isMerge e = false := by
  obtain ⟨hmem, hmerge⟩ := List.mem_filter.1 he
  exact ⟨hmem, by simpa using hmerge⟩

theorem Ranked.not_isMerge (hr : g.Ranked rank) {es : List Entry} (hn : g.merged n = some es)
    {e : Entry} (he : e ∈ es) : g.isMerge e = false := by
  obtain ⟨m, -, hm⟩ := hr.mem_merged hn he
  exact (not_isMerge_of_own hm).2

theorem nameValueKeys_setEntries (hn : n < h.size) (es : List Entry) :
    ((h.nameValueKeys n).setEntries n es).size = h.size ∧
      (∀ m, ((h.nameValueKeys n).setEntries n es).tag m = (h.nameValueKeys n).tag m) ∧
      ∀ m, ((h.nameValueKeys n).setEntries n es).content m =
        if m = n then .mapping es else h.content m := by
  obtain ⟨hsize, hcontent, -, -⟩ := nameValueKeys_spec h n
  have hn : n < (h.nameValueKeys n).size := by rwa [hsize]
  refine ⟨(size_setEntries es).trans hsize, fun m => tag_setEntries es hn, fun m => ?_⟩
  rw [content_setEntries es hn, hcontent]

/-- The last step of merging: a mapping gets all its entries, and its keys `=` become texts. -/
theorem finish_flat (hr : g.Ranked rank) (hflat : flat n) {es : List Entry}
    (hmerged : g.merged n = some es) (hh : g.Edited rank flat (rank n) h) {γ : Nat}
    (hothers : ∀ m, rank m < γ → m ≠ n → h.content m = g.content m ∨ flat m ∧ g.IsFlat h m)
    (hkeys : ∀ e ∈ es, h.tag e.1 ≠ .value ∨ e ∈ h.entries n)
    (hraw : ∀ e ∈ h.entries n, e.1 < g.size ∧ (h.tag e.1 = .value → g.KeyIn flat e.1))
    (hsize : h'.size = h.size) (htag : ∀ m, h'.tag m = (h.nameValueKeys n).tag m)
    (hcontent : ∀ m, h'.content m = if m = n then .mapping es else h.content m) :
    g.Edited rank flat γ h' ∧ Changes (· ≠ n) h h' ∧ g.IsFlat h' n := by
  obtain ⟨-, -, hnamed, hkeyed⟩ := nameValueKeys_spec h n
  have hstays : ∀ m, h.tag m ≠ .value → h'.tag m = h.tag m := by
    intro m hm
    rw [htag]
    exact (hnamed m).resolve_right fun hvalue => hm hvalue.1
  have htags : ∀ m, h'.tag m = g.tag m ∨ g.tag m = .value ∧ h'.tag m = .str ∧ g.KeyIn flat m := by
    intro m
    rcases hnamed m with hold | ⟨hvalue, ⟨e, he, rfl⟩, hstr⟩
    · rw [htag, hold]
      exact hh.tag m
    · rcases hh.tag e.1 with hg | ⟨-, hg, -⟩
      · exact Or.inr ⟨hg ▸ hvalue, (htag _).trans hstr, (hraw e he).2 hvalue⟩
      · exact absurd (hg.symm.trans hvalue) nofun
  have hedited : g.Edited rank flat 0 h' :=
    ⟨hsize.trans hh.size, htags, fun m hm => absurd hm (Nat.not_lt_zero _)⟩
  have hchanges : Changes (· ≠ n) h h' := by
    refine ⟨fun m hm => (hcontent m).trans (if_neg hm), hstays, ?_⟩
    rintro m ⟨e, he, hmerge⟩
    rw [hedited.isMerge_eq] at hmerge
    by_cases hm : m = n
    · subst hm
      rw [entries_of_content ((hcontent m).trans (if_pos rfl))] at he
      exact absurd ((hr.not_isMerge hmerged he).symm.trans hmerge) nofun
    · rw [entries, hcontent, if_neg hm] at he
      exact ⟨e, he, by rwa [hh.isMerge_eq]⟩
  have hdone : g.IsFlat h' n := by
    refine ⟨es, hmerged, (hcontent n).trans (if_pos rfl), ?_⟩
    intro e he
    rcases hkeys e he with hkey | hkey
    · rwa [hstays e.1 hkey]
    · rw [htag]
      exact hkeyed e hkey (by rw [hh.size]; exact (hraw e hkey).1)
  refine ⟨⟨hedited.size, htags, ?_⟩, hchanges, hdone⟩
  intro m hm
  by_cases hne : m = n
  · exact Or.inr ⟨hne ▸ hflat, hne ▸ hdone⟩
  · rw [hcontent, if_neg hne]
    exact (hothers m hm hne).imp_right fun hf => ⟨hf.1, hchanges.isFlat hne hf.2⟩

theorem toList_eq_map_node (g : Graph) : g.nodes.toList = (List.range g.size).map g.node := by
  apply List.ext_getElem
  · simp [size]
  · intro i h _
    have hi : i < g.nodes.size := h
    simp [node, Array.getD_eq_getD_getElem?, hi]

theorem entryCount_eq (g : Graph) :
    g.entryCount = ((List.range g.size).map fun n => (g.entries n).length).sum := by
  have hfold : ∀ (l : List NodeId) (k : Nat), (l.map g.node).foldl (fun k x =>
      match x.content with | .mapping es => k + es.length | _ => k) k =
        k + (l.map fun n => (g.entries n).length).sum := by
    intro l
    induction l with
    | nil => exact fun k => rfl
    | cons n l ih =>
      intro k
      rw [List.map_cons, List.foldl_cons, ih, List.map_cons, List.sum_cons, entries, content]
      cases (g.node n).content <;> simp [Nat.add_assoc]
  rw [entryCount, ← Array.foldl_toList, toList_eq_map_node]
  exact (hfold _ 0).trans (Nat.zero_add _)

/-- There are no more mappings with merge keys than entries. -/
theorem level_le_entryCount (hh : h.size = g.size) (v : NodeId) :
    level g.size (fun m => (h.entries m).any h.isMerge) rank v ≤ h.entryCount := by
  rw [entryCount_eq, hh]
  apply countP_le_sum
  intro m _ hm
  simp only [Bool.and_eq_true, List.any_eq_true] at hm
  obtain ⟨⟨e, he, -⟩, -⟩ := hm
  exact List.length_pos_of_mem he

variable (hr : g.Ranked rank) (hlt : ∀ n, ∀ c ∈ g.children n, c < g.size)

include hr hlt

/-- A mapping of the set has all its entries, or it still has merge keys and is as it was. -/
theorem Edited.merged_or (hh : g.Edited rank flat β h) (hn : rank n < β) (hflat : flat n)
    (hmap : g.isMapping n = true) :
    (∃ es, h.content n = .mapping es ∧ g.merged n = some es ∧ es.filter g.isMerge = [] ∧
      ∀ e ∈ es, e.1 < g.size ∧ (h.tag e.1 = .value → g.KeyIn flat e.1)) ∨
    ∃ es, g.content n = .mapping es ∧ h.content n = .mapping es ∧ es.filter g.isMerge ≠ [] := by
  rcases hh.content n hn with hsame | ⟨-, es, hes, hcontent, hkeys⟩
  · obtain ⟨raw, hraw⟩ := isMapping_iff.1 hmap
    by_cases hmerge : raw.filter g.isMerge = []
    · obtain ⟨hown, hsources⟩ := sources_of_none hmerge
      refine Or.inl ⟨raw, hsame.trans hraw, ?_, hmerge, ?_⟩
      · rw [hr.merged_mapping hraw, hown, hsources]
        rfl
      · intro e he
        refine ⟨hlt n _ (mem_children_of_mapping hraw he).1, fun _ => ?_⟩
        exact ⟨n, hflat, e, by rwa [entries_of_content hraw], rfl⟩
    · exact Or.inr ⟨raw, hraw, hsame.trans hraw, hmerge⟩
  · refine Or.inl ⟨es, hcontent, hes, ?_, ?_⟩
    · rw [List.filter_eq_nil_iff]
      intro e he
      rw [hr.not_isMerge hes he]
      exact Bool.false_ne_true
    · intro e he
      obtain ⟨m, -, hm⟩ := hr.mem_merged hes he
      obtain ⟨hmem, -⟩ := not_isMerge_of_own hm
      refine ⟨?_, fun hvalue => absurd hvalue (hkeys e he)⟩
      cases hcm : g.content m with
      | mapping raw =>
        rw [entries_of_content hcm] at hmem
        exact hlt m _ (mem_children_of_mapping hcm hmem).1
      | scalar text plain =>
        rw [entries, hcm] at hmem
        cases hmem
      | sequence ns =>
        rw [entries, hcm] at hmem
        cases hmem

omit hlt in
/-- What is taken from for a mapping of the set is in the set, too. -/
theorem open_of_isMerge (hclosed : ∀ n m, flat n → g.TakesFrom n m → flat m) (hflat : flat n)
    {raw : List Entry} (hraw : g.content n = .mapping raw) {e : Entry} (he : e ∈ raw)
    (hmerge : g.isMerge e = true) : g.Open flat (g.merged n = none) e.2 := by
  intro m hm
  have hsource : m ∈ g.sources raw :=
    List.mem_flatMap.2 ⟨e, List.mem_filter.2 ⟨he, hmerge⟩, hm⟩
  refine ⟨hclosed n m hflat ⟨raw, hraw, hsource⟩, fun hnone => ?_⟩
  rw [hr.merged_mapping hraw, mapM_eq_none hsource hnone]
  rfl

omit hlt in
/-- A mapping that has no merge keys keeps its entries. -/
theorem kept_ends {γ : Nat} (hh : g.Edited rank flat γ h) (hn : rank n < γ) (hflat : flat n)
    {es : List Entry} (hcontent : h.content n = .mapping es) (hmerged : g.merged n = some es)
    (hnone : es.filter g.isMerge = [])
    (hkeys : ∀ e ∈ es, e.1 < g.size ∧ (h.tag e.1 = .value → g.KeyIn flat e.1)) (count : Nat) :
    Ends L (do
        let merged ← contributions fl n count
        modify fun k => (k.nameValueKeys n).setEntries n (merged ++ k.entries n)) h fun _ h' =>
      g.Edited rank flat γ h' ∧ Changes (rank n < rank ·) h h' ∧ g.IsFlat h' n := by
  apply Ends.bind (contributions_none hh hcontent hnone count)
  rintro ds h₁ ⟨rfl, rfl⟩
  apply Ends.modify
  have hentries : h₁.entries n = es := entries_of_content hcontent
  rw [hentries, List.nil_append]
  obtain ⟨hsize, htag, hnew⟩ := nameValueKeys_setEntries (lt_size_of_content hcontent) es
  obtain ⟨hh', hc, hdone⟩ := finish_flat hr hflat hmerged (hh.weaken (Nat.le_of_lt hn))
    (fun m hm _ => hh.content m hm) (fun e he => Or.inr (hentries ▸ he))
    (fun e he => hkeys e (hentries ▸ he)) hsize htag hnew
  exact ⟨hh', hc.weaken fun m hm h => by subst h; omega, hdone⟩

/-- A mapping that has merge keys gets the entries that they stand for. -/
theorem merged_ends (hclosed : ∀ n m, flat n → g.TakesFrom n m → flat m)
    (hfl : g.Flattens rank flat holds fl (rank n)) {γ : Nat} (hh : g.Edited rank flat γ h)
    (hn : rank n < γ) (hflat : flat n) {raw : List Entry} (hraw : g.content n = .mapping raw)
    (hcontent : h.content n = .mapping raw) (hholds : ∀ m, h.HoldsMerge m → holds m = true)
    {count : Nat} (hcount : (raw.filter g.isMerge).length ≤ count) :
    Ends (g.merged n = none) (do
        let merged ← contributions fl n count
        modify fun k => (k.nameValueKeys n).setEntries n (merged ++ k.entries n)) h fun _ h' =>
      g.Edited rank flat γ h' ∧ Changes (rank n < rank ·) h h' ∧ g.IsFlat h' n := by
  apply Ends.bind (contributions_ends hr hfl (Nat.le_refl _) count hcount
    (fun e he hmerge => ⟨(hr.entry_lt hraw he).2,
      open_of_isMerge hr hclosed hflat hraw he hmerge⟩)
    hcontent (hh.weaken (Nat.le_of_lt hn)) hholds)
  rintro ds h₁ ⟨hh₁, hc₁, hcontent₁, ⟨taken, htaken, rfl⟩, htags⟩
  apply Ends.modify
  have hentries : h₁.entries n = g.own raw := entries_of_content hcontent₁
  have hmerged : g.merged n = some (taken.flatten ++ g.own raw) := by
    rw [hr.merged_mapping hraw, htaken]
    rfl
  have hothers : ∀ m, rank m < γ → m ≠ n →
      h₁.content m = g.content m ∨ flat m ∧ g.IsFlat h₁ m := by
    intro m hm hne
    by_cases hlow : rank m < rank n
    · exact hh₁.content m hlow
    · rw [hc₁.content m ⟨Nat.le_of_not_lt hlow, hne⟩]
      exact (hh.content m hm).imp_right fun hf =>
        ⟨hf.1, hc₁.isFlat ⟨Nat.le_of_not_lt hlow, hne⟩ hf.2⟩
  have hraws : ∀ e ∈ g.own raw, e.1 < g.size ∧ (h₁.tag e.1 = .value → g.KeyIn flat e.1) := by
    intro e he
    obtain ⟨hmem, -⟩ := not_isMerge_of_own he
    refine ⟨hlt n _ (mem_children_of_mapping hraw hmem).1, fun _ => ?_⟩
    exact ⟨n, hflat, e, by rwa [entries_of_content hraw], rfl⟩
  have hkeys : ∀ e ∈ taken.flatten ++ g.own raw, h₁.tag e.1 ≠ .value ∨ e ∈ h₁.entries n := by
    intro e he
    rw [hentries]
    exact (List.mem_append.1 he).imp_left (htags e)
  obtain ⟨hsize, htag, hnew⟩ :=
    nameValueKeys_setEntries (lt_size_of_content hcontent₁) (taken.flatten ++ g.own raw)
  obtain ⟨hh', hc, hdone⟩ := finish_flat (γ := γ) hr hflat hmerged hh₁ hothers hkeys
    (fun e he => hraws e (hentries ▸ he)) hsize htag hnew
  rw [hentries]
  refine ⟨hh', Changes.trans (hc₁.weaken fun m hm => ?_) (hc.weaken fun m hm => ?_), hdone⟩
  · exact ⟨Nat.le_of_lt hm, fun h => by subst h; omega⟩
  · exact fun h => by subst h; omega

/-- To flatten a mapping it takes no more steps than there are mappings with merge keys of no higher
rank. -/
theorem flattenWithin_flattens (hclosed : ∀ n m, flat n → g.TakesFrom n m → flat m) (fuel : Nat)
    {β : Nat} (hfuel : ∀ v, rank v < β → level g.size holds rank v < fuel) :
    g.Flattens rank flat holds (flattenWithin fuel) β := by
  induction fuel generalizing β with
  | zero =>
    intro v h γ hv
    exact absurd (hfuel v hv) (Nat.not_lt_zero _)
  | succ fuel ih =>
    intro v h γ hvβ hvγ hflat hmap hh hholds
    unfold flattenWithin
    apply Ends.get_bind
    rcases hh.merged_or hr hlt hvγ hflat hmap with
      ⟨es, hcontent, hmerged, hnone, hkeys⟩ | ⟨raw, hraw, hcontent, hsome⟩
    · exact kept_ends hr hh hvγ hflat hcontent hmerged hnone hkeys _
    · have hholdsv : holds v = true := by
        obtain ⟨e, he⟩ := List.exists_mem_of_ne_nil _ hsome
        obtain ⟨hmem, hmerge⟩ := List.mem_filter.1 he
        exact hholds v ⟨e, entries_of_content hcontent ▸ hmem, by rwa [hh.isMerge_eq]⟩
      have hbelow : g.Flattens rank flat holds (flattenWithin fuel) (rank v) := by
        apply ih
        intro u hu
        have := level_lt (lt_size_of_content hraw) hholdsv hu
        have := hfuel v hvβ
        omega
      rw [entries_of_content hcontent]
      exact merged_ends hr hlt hclosed hbelow hh hvγ hflat hraw hcontent hholds
        (List.length_filter_le _ _)

/-- Flattening gives a mapping of the set its entries after merging, unless it takes from what is no
mapping. -/
theorem flatten_ends (hclosed : ∀ n m, flat n → g.TakesFrom n m → flat m) {γ : Nat}
    (hh : g.Edited rank flat γ h) (hn : rank n < γ) (hflat : flat n) (hmap : g.isMapping n = true) :
    Ends (g.merged n = none) (flatten n) h fun _ h' =>
      g.Edited rank flat γ h' ∧ Changes (rank n < rank ·) h h' ∧ g.IsFlat h' n := by
  unfold flatten
  apply Ends.get_bind
  rcases hh.merged_or hr hlt hn hflat hmap with
    ⟨es, hcontent, hmerged, hnone, hkeys⟩ | ⟨raw, hraw, hcontent, hsome⟩
  · have hentries : h.entries n = es := entries_of_content hcontent
    have hany : ((h.entries n).any fun e => h.tag e.1 = .merge) = false := by
      rw [hentries, List.any_eq_false]
      intro e he
      have := List.filter_eq_nil_iff.1 hnone e he
      rwa [← hh.isMerge_eq] at this
    rw [hany]
    obtain ⟨hsize, hsame, -, -⟩ := nameValueKeys_spec h n
    obtain ⟨hh', hc, hdone⟩ := finish_flat hr hflat hmerged (hh.weaken (Nat.le_of_lt hn))
      (fun m hm _ => hh.content m hm) (fun e he => Or.inr (hentries ▸ he))
      (fun e he => hkeys e (hentries ▸ he)) hsize (fun _ => rfl) (fun m => by
        rw [hsame]
        by_cases hm : m = n
        · rw [if_pos hm, hm, hcontent]
        · rw [if_neg hm])
    exact ⟨hh', hc.weaken fun m hm h => by subst h; omega, hdone⟩
  · have hany : ((h.entries n).any fun e => h.tag e.1 = .merge) = true := by
      obtain ⟨e, he⟩ := List.exists_mem_of_ne_nil _ hsome
      obtain ⟨hmem, hmerge⟩ := List.mem_filter.1 he
      rw [entries_of_content hcontent, List.any_eq_true]
      exact ⟨e, hmem, by rwa [← hh.isMerge_eq] at hmerge⟩
    rw [hany]
    have hall : g.Flattens rank flat (fun m => (h.entries m).any h.isMerge)
        (flattenWithin (h.entryCount + 1)) (rank n + 1) :=
      flattenWithin_flattens hr hlt hclosed _ fun v _ =>
        Nat.lt_succ_of_le (level_le_entryCount hh.size v)
    exact hall n h γ (Nat.lt_succ_self _) hn hflat hmap hh fun m hm => List.any_eq_true.2 hm

end Runs

end Dynamic

end TreePaths.Yaml.Graph
