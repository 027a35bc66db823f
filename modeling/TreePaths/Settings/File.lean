import TreePaths.Settings.Schema
import TreePaths.Yaml.Load

/-!
Files that hold settings in YAML.
-/

namespace TreePaths.Settings

inductive FileFault where
  /-- The bytes are no UTF-8. -/
  | encoding
  | yaml (fault : Yaml.Fault)
  | notMapping
  deriving DecidableEq, Repr

def FileFault.message (path : String) : FileFault → String
  | encoding => s!"Config file {path} is not UTF-8"
  | yaml _ => s!"Invalid YAML in {path}"
  | notMapping => s!"Config file {path} must be a YAML mapping"

/-- The entries of the map in a file. An empty file holds an empty map. -/
def fileEntries (bs : List UInt8) : Except FileFault (List (Value × Value)) :=
  let stream :=
    match Text.ofFileBytes bs with
    | some cs => .ofFile cs none
    | none => .ofFile (Text.unifyLineEnds (Text.decodable bs).toList) (some .encoding)
  match Yaml.loadData stream with
  | .error .encoding => .error .encoding
  | .error fault => .error (.yaml fault)
  | .ok .null => .ok []
  | .ok (.map es) => .ok es
  | .ok _ => .error .notMapping

end TreePaths.Settings
