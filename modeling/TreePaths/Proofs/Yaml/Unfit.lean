import Mathlib.Data.List.Duplicate
import Mathlib.Data.List.Perm.Subperm
import TreePaths.Proofs.Yaml.Building
import TreePaths.Proofs.Yaml.Flattening

/-!
Nodes of which nothing can be made, otherwise than because the text is malformed: each fault that
building may end with, and what it needs in the document.
-/

namespace TreePaths.Yaml

/-- A chain that is longer than there are numbers comes back to one of them. -/
theorem exists_cycle_of_isChain {r : Nat → Nat → Prop} {size n : Nat} {l : List Nat}
    (hchain : (n :: l).IsChain r) (hlt : ∀ i j, r i j → i < size) (hlength : size < l.length) :
    ∃ m, Relation.ReflTransGen r n m ∧ Relation.TransGen r m m := by
  have hpair : (n :: l).Pairwise (Relation.TransGen r) :=
    List.isChain_iff_pairwise.1 (hchain.imp fun _ _ => .single)
  have hinside : ∀ i ∈ (n :: l).dropLast, i < size := by
    clear hlength hpair
    induction l generalizing n with
    | nil => simp
    | cons m l ih =>
      obtain ⟨hfirst, hrest⟩ := List.isChain_cons_cons.1 hchain
      intro i hi
      rcases List.mem_cons.1 hi with rfl | hi
      · exact hlt i m hfirst
      · exact ih hrest i hi
  -- there are more places on the way than numbers
  have htwice : ¬(n :: l).dropLast.Nodup := by
    intro hnodup
    have hsub : (n :: l).dropLast ⊆ List.range size := fun i hi => List.mem_range.2 (hinside i hi)
    have hle := (List.Nodup.subperm hnodup hsub).length_le
    simp at hle
    omega
  obtain ⟨m, hm⟩ := List.exists_duplicate_iff_not_nodup.2 htwice
  have hmm : [m, m].Sublist (n :: l) :=
    (List.duplicate_iff_sublist.1 hm).trans (List.dropLast_sublist _)
  refine ⟨m, ?_, ?_⟩
  · rcases List.mem_cons.1 (hmm.subset List.mem_cons_self) with rfl | hmem
    · exact .refl
    · exact ((List.pairwise_cons.1 hpair).1 m hmem).to_reflTransGen
  · exact List.pairwise_pair.1 (hpair.sublist hmm)

namespace Graph

variable {g h : Graph} {n m : NodeId}

/-- Where a text is needed, the one node stands for the other: its value under a key `=`. -/
def LeadsTo (g : Graph) (n m : NodeId) : Prop :=
  ∃ e ∈ g.entries n, g.tag e.1 = .value ∧ e.2 = m

def HasText (g : Graph) (n : NodeId) (text : String) : Prop :=
  ∃ m plain, Relation.ReflTransGen g.LeadsTo n m ∧ g.content m = .scalar text plain

inductive ReadAs (g : Graph) (n : NodeId) : Except Fault Value → Prop where
  | tagged {read : String → Except Fault Value} {text : String} :
      scalarReader? (g.tag n) = some read → g.HasText n text → ReadAs g n (read text)
  | untagged {name text : String} {plain : Bool} {read : String → Except Fault Value} :
      g.tag n = .localTag name → g.content n = .scalar text plain →
      scalarReader? (scalarTag text plain) = some read → ReadAs g n (read text)

/-- An integer with too many digits to be written is read for the node. -/
def IsLong (g : Graph) (n : NodeId) : Prop :=
  ∃ v, g.ReadAs n (.ok v) ∧ v.isWritable = false

/-- The document holds what a fault needs. -/
inductive Unfit (g : Graph) : Fault → Prop where
  /-- A text is none of its kind. -/
  | text {n : NodeId} {e : Fault} : g.ReadAs n (.error e) → Unfit g e
  /-- The way to the text of a node leads in a circle. -/
  | endless {n m : NodeId} :
      (scalarReader? (g.tag n)).isSome = true ∨ g.tag n = .value →
      Relation.ReflTransGen g.LeadsTo n m → Relation.TransGen g.LeadsTo m m → Unfit g .endless
  | timestampMapping {n : NodeId} :
      g.tag n = .timestamp → g.isMapping n = true → Unfit g .timestampMapping
  /-- A text under the tag of mappings. -/
  | pairsOfText {n : NodeId} {text : String} {plain : Bool} :
      g.tag n = .map → g.content n = .scalar text plain → text.isEmpty = false →
      Unfit g .pairsOfText
  | pairsOfSequence {n c : NodeId} {cs : List NodeId} :
      g.tag n = .map → g.content n = .sequence (c :: cs) → Unfit g .pairsOfSequence
  /-- A key of a set is a collection under a local tag. -/
  | key {n m : NodeId} {e : Entry} :
      g.tag n = .set → g.Spans n m → e ∈ g.entries m → (g.tag e.1).isLocal = true →
      (∀ text plain, g.content e.1 ≠ .scalar text plain) → Unfit g .key
  /-- In the key of a struct stands an integer with too many digits to be written. -/
  | longName {n m c : NodeId} {e : Entry} :
      g.tag n = .map ∨ (g.tag n).isLocal = true → g.Spans n m → e ∈ g.entries m →
      g.Spans e.1 c → g.IsLong c → Unfit g .longName

theorem LeadsTo.lt_size (h : g.LeadsTo n m) : n < g.size := by
  obtain ⟨e, he, -⟩ := h
  exact lt_size_of_content (mapping_of_mem_entries he)

theorem Reworked.tag_eq (hh : g.Reworked h) {t : Tag} (ht : h.tag n = t) (hstr : t ≠ .str) :
    g.tag n = t := by
  rcases hh.tag n with hn | ⟨-, hn⟩
  · exact hn ▸ ht
  · exact absurd (ht.symm.trans hn) hstr

/-- A text is the node's own, or one that stands for it; a way without end goes round in circles. -/
theorem Reworked.textWithin_yields (hh : g.Reworked h) (fuel : Nat) (n : NodeId) :
    Yields (fun e => e = .tag ∨ e = .endless ∧ ∃ l, l.length = fuel ∧ (n :: l).IsChain g.LeadsTo)
      (h.textWithin fuel n) (g.HasText n) := by
  induction fuel generalizing n with
  | zero => exact .inr ⟨rfl, [], rfl, .singleton n⟩
  | succ fuel ih =>
    unfold textWithin
    split
    next text plain hn => exact ⟨n, plain, .refl, hh.content_of_scalar hn⟩
    next => exact .inl rfl
    next es hn =>
      split
      next => exact .inl rfl
      next e he =>
        have hvalue : h.tag e.1 = .value := by simpa using List.find?_some he
        have hmem : e ∈ h.entries n := entries_of_content hn ▸ List.mem_of_find?_eq_some he
        have hown := hh.own n e hmem hvalue
        have hleads : g.LeadsTo n e.2 := ⟨e, hown, hh.tag_eq hvalue (by decide), rfl⟩
        refine (ih e.2).weaken ?_ ?_
        · rintro d (rfl | ⟨rfl, l, hl, hchain⟩)
          · exact .inl rfl
          · exact .inr ⟨rfl, e.2 :: l, by simp [hl], .cons_cons hleads hchain⟩
        · rintro text ⟨m, plain, hm, hcontent⟩
          exact ⟨m, plain, .head hleads hm, hcontent⟩

theorem Reworked.text_yields (hh : g.Reworked h)
    (hn : (scalarReader? (g.tag n)).isSome = true ∨ g.tag n = .value) :
    Yields (fun e => e.isMalformed = true ∨ g.Unfit e) (h.text n) (g.HasText n) := by
  refine (hh.textWithin_yields (h.size + 1) n).weaken ?_ fun _ => id
  rintro e (rfl | ⟨rfl, l, hl, hchain⟩)
  · exact .inl rfl
  · obtain ⟨m, hm, hcycle⟩ := exists_cycle_of_isChain hchain (fun _ _ h => h.lt_size)
      (by rw [hl, hh.size]; exact Nat.lt_succ_self _)
    exact .inr (.endless hn hm hcycle)

end Graph

end TreePaths.Yaml
