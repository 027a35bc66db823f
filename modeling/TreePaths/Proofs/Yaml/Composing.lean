import TreePaths.Proofs.Yaml.Lexing
import TreePaths.Yaml.Document

/-!
The documents of a YAML text: the composer fails because of the form of the text, or with the fault
that stands in the place of the next token.
-/

namespace TreePaths.Yaml

namespace Composer

variable {f : Option Fault}

/-- The step leaves the fault behind the tokens where it is, and fails with it or because the text
is malformed. -/
abbrev Composes {α : Type} (f : Option Fault) (x : Step α) : Prop :=
  Keeps (fun e => e.isMalformed = true ∨ f = some e) (fun x => x.fault = f) x

theorem composes_peek : Composes f peek := by
  refine .get_bind fun x hx => ?_
  split
  · exact .pure _
  · apply Keeps.throw
    subst hx
    cases x.fault with
    | none => exact .inl rfl
    | some e => exact .inr rfl

theorem composes_advance : Composes f advance :=
  .modify fun _ => id

theorem composes_accept (t : Token) : Composes f (accept t) :=
  composes_peek.bind fun _ =>
    .ite (fun _ => composes_advance.bind fun _ => .pure _) fun _ => .pure _

theorem composes_sees (ts : List Token) : Composes f (sees ts) :=
  composes_peek.bind fun _ => .pure _

theorem composes_expect (t : Token) : Composes f (expect t) :=
  (composes_accept t).bind fun _ => .ite (fun _ => .throw (.inl rfl)) fun _ => .pure _

theorem composes_tagText (handle : Option String) (suffix : String) :
    Composes f (tagText handle suffix) := by
  cases handle with
  | none => exact .pure _
  | some h =>
    refine .get_bind fun x _ => ?_
    split
    · exact .pure _
    · exact .throw (.inl rfl)

theorem composes_properties : Composes f properties := by
  refine composes_peek.bind fun t => ?_
  split
  · refine composes_advance.bind fun _ => composes_peek.bind fun t => ?_
    split
    · exact composes_advance.bind fun _ => (composes_tagText _ _).bind fun _ => .pure _
    · exact .pure _
  · refine composes_advance.bind fun _ => composes_peek.bind fun t => ?_
    split
    · exact composes_advance.bind fun _ => (composes_tagText _ _).bind fun _ => .pure _
    · exact (composes_tagText _ _).bind fun _ => .pure _
  · exact .pure _

theorem composes_addNode (x : Node) : Composes f (addNode x) :=
  .get_bind fun _ _ => .modify_bind (fun _ => id) (.pure _)

theorem composes_addAnchored (anchor : Option String) (x : Node) :
    Composes f (addAnchored anchor x) := by
  refine .get_bind fun y _ => .ite (fun _ => .throw_bind (.inl rfl)) fun _ => ?_
  exact (composes_addNode x).bind fun _ => .modify_bind (fun _ => id) (.pure _)

theorem composes_aliased (name : String) : Composes f (aliased name) := by
  refine .get_bind fun x _ => ?_
  split
  · exact .throw (.inl rfl)
  · exact .pure _

theorem composes_collect (anchor : Option String) (tag : Tag) {content : Step Content}
    (hcontent : Composes f content) : Composes f (collect anchor tag content) :=
  (composes_addAnchored _ _).bind fun _ => hcontent.bind fun _ =>
    .modify_bind (fun _ => id) (.pure _)

structure NodesCompose (f : Option Fault) (fuel : Nat) : Prop where
  node : ∀ block unindented, Composes f (node fuel block unindented)
  nodeUnless : ∀ block unindented ts, Composes f (nodeUnless fuel block unindented ts)
  blockItems : ∀ done, Composes f (blockItems fuel done)
  unindentedItems : ∀ done, Composes f (unindentedItems fuel done)
  blockEntries : ∀ done, Composes f (blockEntries fuel done)
  flowPair : ∀ closing, Composes f (flowPair fuel closing)
  flowItems : ∀ first done, Composes f (flowItems fuel first done)
  flowEntries : ∀ first done, Composes f (flowEntries fuel first done)

section Nodes

variable {fuel : Nat} (h : NodesCompose f fuel)

include h

theorem composes_node (block unindented : Bool) :
    Composes f (node (fuel + 1) block unindented) := by
  unfold node
  refine composes_peek.bind fun t => ?_
  split
  · exact composes_advance.bind fun _ => composes_aliased _
  refine composes_properties.bind fun properties => composes_peek.bind fun t => ?_
  split
  · exact composes_collect _ _ ((h.unindentedItems _).bind fun _ => .pure _)
  · exact composes_advance.bind fun _ => composes_addAnchored _ _
  · exact composes_advance.bind fun _ =>
      composes_collect _ _ ((h.flowItems _ _).bind fun _ => .pure _)
  · exact composes_advance.bind fun _ =>
      composes_collect _ _ ((h.flowEntries _ _).bind fun _ => .pure _)
  · exact composes_advance.bind fun _ =>
      composes_collect _ _ ((h.blockItems _).bind fun _ => .pure _)
  · exact composes_advance.bind fun _ =>
      composes_collect _ _ ((h.blockEntries _).bind fun _ => .pure _)
  · exact .ite (fun _ => .throw_bind (.inl rfl)) fun _ => composes_addAnchored _ _

theorem composes_blockItems (done : List NodeId) : Composes f (blockItems (fuel + 1) done) := by
  unfold blockItems
  refine (composes_accept _).bind fun _ => .ite (fun _ => ?_) fun _ => ?_
  · exact (h.nodeUnless _ _ _).bind fun _ => h.blockItems _
  · exact (composes_expect _).bind fun _ => .pure _

theorem composes_blockEntries (done : List Entry) : Composes f (blockEntries (fuel + 1) done) := by
  unfold blockEntries
  refine (composes_accept _).bind fun _ => .ite (fun _ => ?_) fun _ => ?_
  · refine (h.nodeUnless _ _ _).bind fun k => (composes_accept _).bind fun _ => ?_
    exact .ite (fun _ => (h.nodeUnless _ _ _).bind fun _ => h.blockEntries _) fun _ =>
      (composes_addNode _).bind fun _ => h.blockEntries _
  · exact (composes_expect _).bind fun _ => .pure _

theorem composes_flowPair (closing : Token) : Composes f (flowPair (fuel + 1) closing) := by
  unfold flowPair
  refine (h.nodeUnless _ _ _).bind fun k => (composes_accept _).bind fun _ => ?_
  exact .ite (fun _ => (h.nodeUnless _ _ _).bind fun _ => .pure _) fun _ =>
    (composes_addNode _).bind fun _ => .pure _

theorem composes_flowItems (first : Bool) (done : List NodeId) :
    Composes f (flowItems (fuel + 1) first done) := by
  have hnext : Composes f (do
      if ← accept .key then
        let pair ← flowPair fuel .flowSequenceEnd
        let n ← addNode ⟨.map, .mapping [pair]⟩
        flowItems fuel false (n :: done)
      else if ← accept .flowSequenceEnd then
        return done.reverse
      else
        let n ← node fuel false false
        flowItems fuel false (n :: done)) := by
    refine (composes_accept _).bind fun _ => .ite (fun _ => ?_) fun _ => ?_
    · exact (h.flowPair _).bind fun _ => (composes_addNode _).bind fun _ => h.flowItems _ _
    · refine (composes_accept _).bind fun _ => .ite (fun _ => .pure _) fun _ => ?_
      exact (h.node _ _).bind fun _ => h.flowItems _ _
  unfold flowItems
  refine (composes_accept _).bind fun _ => .ite (fun _ => .pure _) fun _ => ?_
  exact .ite (fun _ => (composes_expect _).bind fun _ => hnext) fun _ => hnext

theorem composes_flowEntries (first : Bool) (done : List Entry) :
    Composes f (flowEntries (fuel + 1) first done) := by
  have hnext : Composes f (do
      if ← accept .key then
        let pair ← flowPair fuel .flowMappingEnd
        flowEntries fuel false (pair :: done)
      else if ← accept .flowMappingEnd then
        return done.reverse
      else
        let k ← node fuel false false
        flowEntries fuel false ((k, ← addMissing) :: done)) := by
    refine (composes_accept _).bind fun _ => .ite (fun _ => ?_) fun _ => ?_
    · exact (h.flowPair _).bind fun _ => h.flowEntries _ _
    · refine (composes_accept _).bind fun _ => .ite (fun _ => .pure _) fun _ => ?_
      exact (h.node _ _).bind fun _ => (composes_addNode _).bind fun _ => h.flowEntries _ _
  unfold flowEntries
  refine (composes_accept _).bind fun _ => .ite (fun _ => .pure _) fun _ => ?_
  exact .ite (fun _ => (composes_expect _).bind fun _ => hnext) fun _ => hnext

end Nodes

theorem nodesCompose (f : Option Fault) (fuel : Nat) : NodesCompose f fuel := by
  induction fuel with
  | zero => constructor <;> intros <;> exact Keeps.throw (.inl rfl)
  | succ fuel ih =>
    exact
      { node := composes_node ih
        nodeUnless := fun _ _ _ => (composes_sees _).bind fun _ =>
          .ite (fun _ => composes_addNode _) fun _ => ih.node _ _
        blockItems := composes_blockItems ih
        unindentedItems := fun _ => (composes_accept _).bind fun _ =>
          .ite (fun _ => (ih.nodeUnless _ _ _).bind fun _ => ih.unindentedItems _) fun _ => .pure _
        blockEntries := composes_blockEntries ih
        flowPair := composes_flowPair ih
        flowItems := composes_flowItems ih
        flowEntries := composes_flowEntries ih }

theorem composes_root : Composes f root :=
  .get_bind fun _ _ => (nodesCompose f _).node _ _

theorem composes_directives (fuel : Nat) (versioned : Bool) (handles : List (String × String)) :
    Composes f (directives fuel versioned handles) := by
  induction fuel generalizing versioned handles with
  | zero => exact .throw (.inl rfl)
  | succ fuel ih =>
    refine composes_peek.bind fun t => ?_
    split
    · refine composes_advance.bind fun _ => ?_
      split
      · exact .ite (fun _ => .throw_bind (.inl rfl)) fun _ => ih _ _
      · exact .ite (fun _ => .throw_bind (.inl rfl)) fun _ => ih _ _
      · exact ih _ _
    · exact .modify fun _ => id

theorem composes_skipDocumentEnds (fuel : Nat) : Composes f (skipDocumentEnds fuel) := by
  induction fuel with
  | zero => exact .pure _
  | succ fuel ih => exact (composes_accept _).bind fun _ => .ite (fun _ => ih) fun _ => .pure _

theorem composes_finish (n : NodeId) : Composes f (finish n) :=
  (composes_accept _).bind fun _ => .modify_bind (fun _ => id) (.pure _)

theorem composes_atBoundary : Composes f atBoundary := by
  refine composes_peek.bind fun t => ?_
  split <;> exact .pure _

theorem composes_startsNext : Composes f startsNext := by
  refine .get_bind fun _ _ => (composes_skipDocumentEnds _).bind fun _ => ?_
  refine composes_peek.bind fun _ => .ite (fun _ => .pure _) fun _ => .get_bind fun _ _ => ?_
  exact (composes_directives _ _ _).bind fun _ => (composes_expect _).bind fun _ => .pure _

theorem composes_markedDocument : Composes f markedDocument := by
  refine composes_startsNext.bind fun _ => .ite (fun _ => ?_) fun _ => .pure _
  refine composes_atBoundary.bind fun _ => composes_peek.bind fun _ => ?_
  refine .ite (fun _ => ?_) fun _ => ?_
  · exact (composes_addNode _).bind fun _ => composes_finish _
  · exact composes_root.bind fun _ => composes_finish _

theorem composes_document (first : Bool) : Composes f (document first) := by
  refine .modify_bind (fun _ => id) (composes_atBoundary.bind fun _ => ?_)
  refine .ite (fun _ => .modify_bind (fun _ => id) ?_) fun _ => composes_markedDocument
  exact composes_root.bind fun _ => composes_finish _

end Composer

end TreePaths.Yaml
