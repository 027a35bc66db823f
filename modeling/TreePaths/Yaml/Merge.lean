import TreePaths.Yaml.Graph

/-!
Merge keys: a mapping takes over the entries of other mappings, in front of its own. The mappings
change in the graph, for every place where they stand.
-/

namespace TreePaths.Yaml

namespace Graph

abbrev Edit := StateT Graph (Except Fault)

/-- Removes the first merge key of a mapping, and gives its value. -/
def takeMerge (n : NodeId) : Edit (Option NodeId) := do
  let g ← get
  match (g.entries n).span fun e => g.tag e.1 ≠ .merge with
  | (_, []) => return none
  | (front, (_, v) :: back) =>
    set (g.setEntries n (front ++ back))
    return some v

/-- The entries of mappings, of which the first wins: those of the last come first. -/
def takeOver (flatten : NodeId → Edit Unit) : List NodeId → Edit (List Entry)
  | [] => return []
  | n :: ns => do
    if !(← get).isMapping n then throw .tag
    flatten n
    let own := (← get).entries n
    return (← takeOver flatten ns) ++ own

/-- The entries that the value of a merge key stands for: those of a mapping, or of several. -/
def contribution (flatten : NodeId → Edit Unit) (v : NodeId) : Edit (List Entry) := do
  match (← get).content v with
  | .sequence ns => takeOver flatten ns
  | _ => takeOver flatten [v]

def contributions (flatten : NodeId → Edit Unit) (n : NodeId) : Nat → Edit (List Entry)
  | 0 => return []
  | count + 1 => do
    match ← takeMerge n with
    | none => return []
    | some v =>
      let first ← contribution flatten v
      return first ++ (← contributions flatten n count)

def nameValueKeys (g : Graph) (n : NodeId) : Graph :=
  ((g.entries n).filter fun e => g.tag e.1 = .value).foldl (fun h e => h.setTag e.1 .str) g

/-- Replaces the merge keys of a mapping. Each step inwards has taken a merge key away, so there are
no more than `fuel` of them. -/
def flattenWithin : Nat → NodeId → Edit Unit
  | 0, _ => throw .endless
  | fuel + 1, n => do
    let count := (← get).entries n |>.length
    let merged ← contributions (flattenWithin fuel) n count
    modify fun g => (g.nameValueKeys n).setEntries n (merged ++ g.entries n)

def entryCount (g : Graph) : Nat :=
  g.nodes.foldl (fun k x => match x.content with | .mapping es => k + es.length | _ => k) 0

def flatten (n : NodeId) : Edit Unit := do
  let g ← get
  if (g.entries n).any fun e => g.tag e.1 = .merge then flattenWithin (g.entryCount + 1) n
  else set (g.nameValueKeys n)

end Graph

end TreePaths.Yaml
