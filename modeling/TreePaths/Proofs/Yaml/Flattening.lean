import Mathlib.Algebra.Order.BigOperators.Group.List
import Mathlib.Algebra.Order.Ring.Nat
import TreePaths.Proofs.Yaml.Plan

/-!
Merging in any document, even one whose nodes hold themselves: it comes to an end, fails only where
a mapping is needed, and brings entries only from nodes within.
-/

namespace TreePaths.Yaml.Graph

variable {g h h' h'' : Graph} {n m v : NodeId}

abbrev Spans (g : Graph) : NodeId → NodeId → Prop :=
  Relation.ReflTransGen fun n c => c ∈ g.children n

theorem spans_of_mem_entries {e : Entry} (he : e ∈ g.entries n) :
    g.Spans n e.1 ∧ g.Spans n e.2 := by
  obtain ⟨hkey, hvalue⟩ := mem_children_of_mapping (mapping_of_mem_entries he) he
  exact ⟨.single hkey, .single hvalue⟩

def mergeCount (h : Graph) (n : NodeId) : Nat :=
  (h.entries n).countP h.isMerge

def merges (h : Graph) : Nat :=
  ((List.range h.size).map h.mergeCount).sum

theorem merges_le_entryCount (h : Graph) : h.merges ≤ h.entryCount := by
  rw [entryCount_eq]
  exact List.sum_le_sum fun n _ => List.countP_le_length

structure Reworked (g h : Graph) : Prop where
  size : h.size = g.size
  tag : ∀ n, h.tag n = g.tag n ∨ g.tag n = .value ∧ h.tag n = .str
  content : ∀ n, g.isMapping n = false → h.content n = g.content n
  mapping : ∀ n, g.isMapping n = true → h.isMapping n = true
  source : ∀ n, ∀ e ∈ h.entries n, ∃ m, g.Spans n m ∧ e ∈ g.entries m
  own : ∀ n, ∀ e ∈ h.entries n, h.tag e.1 = .value → e ∈ g.entries n

/-- Tags but those of keys `=` stay, and merge keys only become fewer. -/
structure Onward (h h' : Graph) : Prop where
  size : h'.size = h.size
  tag : ∀ n, h.tag n ≠ .value → h'.tag n = h.tag n
  merges : ∀ n, h'.mergeCount n ≤ h.mergeCount n

structure Brought (g h : Graph) (n : NodeId) (e : Entry) : Prop where
  source : ∃ m, g.Spans n m ∧ e ∈ g.entries m
  isMerge : g.isMerge e = false
  key : h.tag e.1 ≠ .value

namespace Onward

theorem refl (h : Graph) : Onward h h :=
  ⟨rfl, fun _ _ => rfl, fun _ => Nat.le_refl _⟩

theorem trans (hh : Onward h h') (hh' : Onward h' h'') : Onward h h'' where
  size := hh'.size.trans hh.size
  tag n hn := (hh'.tag n (by rwa [hh.tag n hn])).trans (hh.tag n hn)
  merges n := (hh'.merges n).trans (hh.merges n)

theorem merges_le (hh : Onward h h') : h'.merges ≤ h.merges := by
  rw [Graph.merges, Graph.merges, hh.size]
  exact List.sum_le_sum fun n _ => hh.merges n

theorem merges_lt (hh : Onward h h') (hn : n < h.size) (hlt : h'.mergeCount n < h.mergeCount n) :
    h'.merges < h.merges := by
  rw [Graph.merges, Graph.merges, hh.size]
  exact List.sum_lt_sum _ _ (fun m _ => hh.merges m) ⟨n, List.mem_range.2 hn, hlt⟩

end Onward

theorem Brought.mono {e : Entry} (he : g.Brought h m e) (hn : g.Spans n m) (hh : Onward h h') :
    g.Brought h' n e where
  source := he.source.imp fun _ hm => ⟨hn.trans hm.1, hm.2⟩
  isMerge := he.isMerge
  key := by rw [hh.tag _ he.key]; exact he.key

theorem tag_nameValueKeys_ne (h : Graph) {e : Entry} (he : e ∈ h.entries n) :
    (h.nameValueKeys n).tag e.1 ≠ .value := by
  obtain ⟨hsize, -, -, hkeys⟩ := nameValueKeys_spec h n
  by_cases hlt : e.1 < h.size
  · exact hkeys e he hlt
  · rw [tag_of_size_le (by rw [hsize]; exact Nat.le_of_not_lt hlt)]
    decide

namespace Reworked

theorem refl (g : Graph) : g.Reworked g :=
  ⟨rfl, fun _ => .inl rfl, fun _ _ => rfl, fun _ => id, fun n _ he => ⟨n, .refl, he⟩,
    fun _ _ he _ => he⟩

theorem isMerge_eq (hh : g.Reworked h) : h.isMerge = g.isMerge := by
  funext e
  unfold isMerge
  rcases hh.tag e.1 with he | ⟨hvalue, hstr⟩
  · rw [he]
  · rw [hvalue, hstr]
    rfl

theorem isMapping_eq (hh : g.Reworked h) (n : NodeId) : h.isMapping n = g.isMapping n := by
  cases hn : g.isMapping n with
  | true => exact hh.mapping n hn
  | false =>
    rw [isMapping, hh.content n hn]
    exact hn

theorem content_of_sequence (hh : g.Reworked h) {ns : List NodeId}
    (hn : h.content n = .sequence ns) : g.content n = .sequence ns := by
  rw [← hh.content n (by rw [← hh.isMapping_eq, isMapping, hn]), hn]

theorem content_of_scalar (hh : g.Reworked h) {text : String} {plain : Bool}
    (hn : h.content n = .scalar text plain) : g.content n = .scalar text plain := by
  rw [← hh.content n (by rw [← hh.isMapping_eq, isMapping, hn]), hn]

theorem spans (hh : g.Reworked h) {e : Entry} (he : e ∈ h.entries n) :
    g.Spans n e.1 ∧ g.Spans n e.2 := by
  obtain ⟨m, hm, he⟩ := hh.source n e he
  obtain ⟨hkey, hvalue⟩ := spans_of_mem_entries he
  exact ⟨hm.trans hkey, hm.trans hvalue⟩

theorem lt_size (hh : g.Reworked h) (hn : g.isMapping n = true) : n < h.size := by
  obtain ⟨es, hes⟩ := isMapping_iff.1 (hh.mapping n hn)
  exact lt_size_of_content hes

/-- A document remains reworked if a mapping gets entries from within, among them only its own keys
`=`. -/
theorem setEntries (hh : g.Reworked h) (hn : g.isMapping n = true) {es : List Entry}
    (hsource : ∀ e ∈ es, ∃ m, g.Spans n m ∧ e ∈ g.entries m)
    (hown : ∀ e ∈ es, h.tag e.1 = .value → e ∈ g.entries n) : g.Reworked (h.setEntries n es) := by
  have hlt := hh.lt_size hn
  have hentries (m : NodeId) :
      (h.setEntries n es).entries m = if m = n then es else h.entries m := by
    rw [entries, content_setEntries es hlt, entries]
    by_cases hm : m = n <;> simp [hm]
  constructor
  case size => rw [size_setEntries, hh.size]
  case tag =>
    intro m
    rw [tag_setEntries es hlt]
    exact hh.tag m
  case content =>
    intro m hm
    have hne : m ≠ n := fun h => Bool.false_ne_true (hm.symm.trans (h ▸ hn))
    rw [content_setEntries es hlt, if_neg hne, hh.content m hm]
  case mapping =>
    intro m hm
    rw [isMapping, content_setEntries es hlt]
    by_cases hmn : m = n
    · rw [if_pos hmn]
    · rw [if_neg hmn]
      exact hh.mapping m hm
  case source =>
    intro m e he
    rw [hentries] at he
    split at he
    next hm => exact hm ▸ hsource e he
    next => exact hh.source m e he
  case own =>
    intro m e he hvalue
    rw [tag_setEntries es hlt] at hvalue
    rw [hentries] at he
    split at he
    next hm => exact hm ▸ hown e he hvalue
    next => exact hh.own m e he hvalue

/-- Keys `=` become texts. -/
theorem nameValueKeys (hh : g.Reworked h) (n : NodeId) : g.Reworked (h.nameValueKeys n) := by
  obtain ⟨hsize, hcontent, htag, -⟩ := nameValueKeys_spec h n
  have hentries (m : NodeId) : (h.nameValueKeys n).entries m = h.entries m := by
    rw [entries, hcontent, entries]
  constructor
  case size => rw [hsize, hh.size]
  case tag =>
    intro m
    rcases htag m with hm | ⟨hvalue, -, hstr⟩
    · rw [hm]
      exact hh.tag m
    · rcases hh.tag m with hm | ⟨-, hm⟩
      · exact .inr ⟨hm ▸ hvalue, hstr⟩
      · exact absurd (hm.symm.trans hvalue) (by decide)
  case content =>
    intro m hm
    rw [hcontent, hh.content m hm]
  case mapping =>
    intro m hm
    rw [isMapping, hcontent]
    exact hh.mapping m hm
  case source =>
    intro m e he
    exact hh.source m e (hentries m ▸ he)
  case own =>
    intro m e he hvalue
    refine hh.own m e (hentries m ▸ he) ?_
    rcases htag e.1 with hm | ⟨-, -, hm⟩
    · exact hm ▸ hvalue
    · exact absurd (hm.symm.trans hvalue) (by decide)

theorem onward_nameValueKeys (hh : g.Reworked h) (n : NodeId) :
    Onward h (h.nameValueKeys n) := by
  obtain ⟨hsize, hcontent, htag, -⟩ := nameValueKeys_spec h n
  constructor
  case size => exact hsize
  case tag => exact fun m hm => (htag m).resolve_right fun h => hm h.1
  case merges =>
    intro m
    rw [mergeCount, mergeCount, (hh.nameValueKeys n).isMerge_eq, hh.isMerge_eq, entries, hcontent,
      entries]

/-- The last step of merging: a mapping without merge keys gets what has been brought to it. -/
theorem finish (hh : g.Reworked h) (hn : g.isMapping n = true) (hnone : h.mergeCount n = 0)
    {es : List Entry} (hes : ∀ e ∈ es, g.Brought h n e) :
    g.Reworked ((h.nameValueKeys n).setEntries n (es ++ h.entries n)) ∧
      Onward h ((h.nameValueKeys n).setEntries n (es ++ h.entries n)) ∧
      ∀ e ∈ ((h.nameValueKeys n).setEntries n (es ++ h.entries n)).entries n,
        g.Brought ((h.nameValueKeys n).setEntries n (es ++ h.entries n)) n e := by
  have hnamed := hh.nameValueKeys n
  have honward := hh.onward_nameValueKeys n
  have hlt := hnamed.lt_size hn
  have hown : ∀ e ∈ h.entries n, g.isMerge e = false := by
    rw [mergeCount, hh.isMerge_eq, List.countP_eq_zero] at hnone
    exact fun e he => Bool.eq_false_iff.2 (hnone e he)
  have hall : ∀ e ∈ es ++ h.entries n, g.Brought (h.nameValueKeys n) n e := by
    intro e he
    rcases List.mem_append.1 he with he | he
    · exact (hes e he).mono .refl honward
    · exact ⟨hh.source n e he, hown e he, h.tag_nameValueKeys_ne he⟩
  have hnew : g.Reworked ((h.nameValueKeys n).setEntries n (es ++ h.entries n)) :=
    hnamed.setEntries hn (fun e he => (hall e he).source)
      fun e he hvalue => absurd hvalue (hall e he).key
  have hcontent (m : NodeId) := content_setEntries (m := m) (es ++ h.entries n) hlt
  have hlater : Onward (h.nameValueKeys n)
      ((h.nameValueKeys n).setEntries n (es ++ h.entries n)) := by
    refine ⟨size_setEntries _, fun m _ => tag_setEntries _ hlt, fun m => ?_⟩
    rw [mergeCount, mergeCount, hnew.isMerge_eq, hnamed.isMerge_eq, entries, hcontent]
    by_cases hm : m = n
    · rw [if_pos hm, List.countP_eq_zero.2]
      · exact Nat.zero_le _
      · exact fun e he => Bool.eq_false_iff.1 (hall e he).isMerge
    · rw [if_neg hm, entries]
  refine ⟨hnew, honward.trans hlater, fun e he => ?_⟩
  rw [entries, hcontent, if_pos rfl] at he
  exact (hall e he).mono .refl hlater

/-- A merge key is taken away. -/
theorem removeMerge (hh : g.Reworked h) {front back : List Entry} {e : Entry}
    (hn : h.entries n = front ++ e :: back) (he : h.isMerge e = true) :
    g.Reworked (h.setEntries n (front ++ back)) ∧ Onward h (h.setEntries n (front ++ back)) ∧
      (h.setEntries n (front ++ back)).mergeCount n < h.mergeCount n := by
  have hmem : e ∈ h.entries n := by simp [hn]
  have hraw := mapping_of_mem_entries hmem
  have hlt := lt_size_of_content hraw
  have hmap : g.isMapping n = true := by
    rw [← hh.isMapping_eq, isMapping_iff]
    exact ⟨_, hraw⟩
  have hsub : ∀ d ∈ front ++ back, d ∈ h.entries n := by
    rw [hn]
    grind
  have hnew : g.Reworked (h.setEntries n (front ++ back)) :=
    hh.setEntries hmap (fun d hd => hh.source n d (hsub d hd)) fun d hd => hh.own n d (hsub d hd)
  have hless : (front ++ back).countP h.isMerge < (h.entries n).countP h.isMerge := by
    rw [hn, List.countP_append, List.countP_append, List.countP_cons_of_pos he]
    omega
  have hcount (m : NodeId) : (h.setEntries n (front ++ back)).mergeCount m =
      if m = n then (front ++ back).countP h.isMerge else h.mergeCount m := by
    rw [mergeCount, hnew.isMerge_eq, ← hh.isMerge_eq, entries, content_setEntries _ hlt]
    by_cases hm : m = n
    · rw [if_pos hm, if_pos hm]
    · rw [if_neg hm, if_neg hm]
      rfl
  refine ⟨hnew, ⟨size_setEntries _, fun m _ => tag_setEntries _ hlt, fun m => ?_⟩, ?_⟩
  · rw [hcount]
    split
    next hm => exact hm ▸ Nat.le_of_lt hless
    next => exact Nat.le_refl _
  · rw [hcount, if_pos rfl]
    exact hless

end Reworked

section Runs

variable {fl : NodeId → Edit Unit} {limit : Nat}

/-- Mappings of documents with fewer merge keys are flattened, unless a mapping is missing. -/
def Reworks (g : Graph) (fl : NodeId → Edit Unit) (limit : Nat) : Prop :=
  ∀ v h, g.Reworked h → g.isMapping v = true → h.merges < limit →
    Settles (· = .tag) (fl v) h fun _ h' =>
      g.Reworked h' ∧ Onward h h' ∧ ∀ e ∈ h'.entries v, g.Brought h' v e

theorem takeOver_settles (hfl : g.Reworks fl limit) {ns : List NodeId}
    (hns : ∀ v ∈ ns, g.Spans n v) (hh : g.Reworked h) (hlimit : h.merges < limit) :
    Settles (· = .tag) (takeOver fl ns) h fun es h' =>
      g.Reworked h' ∧ Onward h h' ∧ ∀ e ∈ es, g.Brought h' n e := by
  induction ns generalizing h with
  | nil => exact .pure ⟨hh, .refl h, List.forall_mem_nil _⟩
  | cons v vs ih =>
    unfold takeOver
    apply Settles.get_bind
    rw [hh.isMapping_eq]
    refine .ite (fun _ => .throw rfl) fun hmap => ?_
    rw [Bool.not_eq_true, Bool.not_eq_false'] at hmap
    apply (hfl v h hh hmap hlimit).bind
    rintro - h₁ ⟨hh₁, ho₁, hown⟩
    apply Settles.get_bind
    apply (ih (fun w hw => hns w (List.mem_cons_of_mem v hw)) hh₁
      (Nat.lt_of_le_of_lt ho₁.merges_le hlimit)).bind
    rintro es h₂ ⟨hh₂, ho₂, hes⟩
    refine .pure ⟨hh₂, ho₁.trans ho₂, fun e he => ?_⟩
    rcases List.mem_append.1 he with he | he
    · exact hes e he
    · exact (hown e he).mono (hns v List.mem_cons_self) ho₂

theorem contribution_settles (hfl : g.Reworks fl limit) (hv : g.Spans n v) (hh : g.Reworked h)
    (hlimit : h.merges < limit) :
    Settles (· = .tag) (contribution fl v) h fun es h' =>
      g.Reworked h' ∧ Onward h h' ∧ ∀ e ∈ es, g.Brought h' n e := by
  unfold contribution
  apply Settles.get_bind
  split
  next ns hns =>
    exact takeOver_settles hfl
      (fun w hw => hv.tail (mem_children_of_sequence (hh.content_of_sequence hns) hw)) hh hlimit
  next => exact takeOver_settles hfl (fun w hw => List.mem_singleton.1 hw ▸ hv) hh hlimit

/-- Nothing is left to merge, or a source within the node has been taken and less is left. -/
def Draws (g h : Graph) (n : NodeId) (limit : Nat) (h' : Graph) : Option NodeId → Prop
  | none => h'.mergeCount n = 0
  | some v => g.Spans n v ∧ h'.mergeCount n < h.mergeCount n ∧ h'.merges < limit

/-- A count as large as the number of merge keys is enough to take all of them. -/
theorem contributions_settles (hfl : g.Reworks fl limit) {count : Nat}
    (hcount : h.mergeCount n ≤ count) (hh : g.Reworked h) (hlimit : h.merges ≤ limit) :
    Settles (· = .tag) (contributions fl n count) h fun es h' =>
      g.Reworked h' ∧ Onward h h' ∧ h'.mergeCount n = 0 ∧ ∀ e ∈ es, g.Brought h' n e := by
  induction count generalizing h with
  | zero => exact .pure ⟨hh, .refl h, Nat.le_zero.1 hcount, List.forall_mem_nil _⟩
  | succ count ih =>
    unfold contributions
    refine Settles.bind (Q := fun v h' => g.Reworked h' ∧ Onward h h' ∧ g.Draws h n limit h' v)
      (takeMerge_settles ?_ ?_) ?_
    · intro hnone
      refine ⟨hh, .refl h, ?_⟩
      rw [Draws, mergeCount, List.countP_eq_length_filter, hnone]
      rfl
    · intro front e back hn _ he
      obtain ⟨hnew, honward, hless⟩ := hh.removeMerge hn he
      have hmem : e ∈ h.entries n := by simp [hn]
      have hlt := honward.merges_lt (lt_size_of_content (mapping_of_mem_entries hmem)) hless
      exact ⟨hnew, honward, (hh.spans hmem).2, hless, Nat.lt_of_lt_of_le hlt hlimit⟩
    · rintro v h₁ ⟨hh₁, ho₁, hdraws⟩
      cases v with
      | none => exact .pure ⟨hh₁, ho₁, hdraws, List.forall_mem_nil _⟩
      | some v =>
        obtain ⟨hv, hless, hlt⟩ := hdraws
        apply (contribution_settles hfl hv hh₁ hlt).bind
        rintro es h₂ ⟨hh₂, ho₂, hes⟩
        have hleft := ho₂.merges n
        apply (ih (by omega) hh₂ (Nat.le_trans ho₂.merges_le (Nat.le_of_lt hlt))).bind
        rintro ds h₃ ⟨hh₃, ho₃, hnone, hds⟩
        refine .pure ⟨hh₃, (ho₁.trans ho₂).trans ho₃, hnone, fun e he => ?_⟩
        rcases List.mem_append.1 he with he | he
        · exact (hes e he).mono .refl ho₃
        · exact hds e he

/-- Steps are enough to flatten a mapping if they are more than the merge keys of the document. -/
theorem flattenWithin_reworks (g : Graph) (fuel : Nat) : g.Reworks (flattenWithin fuel) fuel := by
  induction fuel with
  | zero => exact fun v h _ _ hlimit => absurd hlimit (Nat.not_lt_zero _)
  | succ fuel ih =>
    intro v h hh hmap hlimit
    unfold flattenWithin
    apply Settles.get_bind
    apply (contributions_settles ih List.countP_le_length hh (Nat.le_of_lt_succ hlimit)).bind
    rintro es h₁ ⟨hh₁, ho₁, hnone, hes⟩
    apply Settles.modify
    obtain ⟨hnew, honward, hbrought⟩ := hh₁.finish hmap hnone hes
    exact ⟨hnew, ho₁.trans honward, hbrought⟩

/-- Flattening comes to an end, whatever the document, and fails only where a mapping is missing. -/
theorem flatten_settles (hh : g.Reworked h) (hn : g.isMapping n = true) :
    Settles (· = .tag) (flatten n) h fun _ h' => g.Reworked h' := by
  unfold flatten
  apply Settles.get_bind
  refine .ite (fun _ => ?_) fun _ => ?_
  · exact (flattenWithin_reworks g _ n h hh hn (Nat.lt_succ_of_le h.merges_le_entryCount)).mono
      fun _ _ h => h.1
  · exact hh.nameValueKeys n

end Runs

end TreePaths.Yaml.Graph
