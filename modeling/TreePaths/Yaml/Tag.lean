/-!
Tags: what the nodes of a YAML document are to be built as.
-/

namespace TreePaths.Yaml

inductive Tag where
  | null
  | bool
  | int
  | float
  | binary
  | timestamp
  | omap
  | pairs
  | set
  | str
  | seq
  | map
  /-- The key that takes over the pairs of other mappings. -/
  | merge
  /-- The key whose value a mapping stands for where a scalar is needed. -/
  | value
  /-- A local tag, without its mark. -/
  | localTag (text : String)
  | unknown (uri : String)
  deriving DecidableEq, Repr

namespace Tag

def coreSpace : String := "tag:yaml.org,2002:"

def coreTags : List (String × Tag) :=
  [("null", null), ("bool", bool), ("int", int), ("float", float), ("binary", binary),
    ("timestamp", timestamp), ("omap", omap), ("pairs", pairs), ("set", set), ("str", str),
    ("seq", seq), ("map", map), ("merge", merge), ("value", value)]

def ofText (uri : String) : Tag :=
  match uri.toList with
  | '!' :: cs => localTag (.ofList cs)
  | cs =>
    if coreSpace.toList.isPrefixOf cs then
      (coreTags.lookup (.ofList (cs.drop coreSpace.length))).getD (.unknown uri)
    else
      .unknown uri

end Tag

end TreePaths.Yaml
