import TreePaths.Document.Format
import TreePaths.Text.Encoded

/-!
Files as they are found under a path, and the documents in them.
-/

namespace TreePaths

/-- A path without its empty parts and single points. Two slashes in front stay two. -/
def tidyPath (path : String) : String :=
  let cs := path.toList
  let slashes := (cs.takeWhile (· = '/')).length
  let front := if slashes = 2 then "//" else if slashes = 0 then "" else "/"
  let parts := (cs.splitOnP (· = '/')).filter fun p => p ≠ [] && p ≠ ['.']
  let tidy := front ++ "/".intercalate (parts.map .ofList)
  if tidy.isEmpty then "." else tidy

inductive File where
  | missing
  | directory
  | bytes (bs : List UInt8)
  deriving DecidableEq, Repr

inductive FileError where
  | missing
  | directory
  /-- The bytes are no UTF-8. -/
  | encoding
  | load (e : LoadError)
  deriving DecidableEq, Repr

def FileError.message (path : String) : FileError → String
  | missing => s!"cannot read {path} ([Errno 2] No such file or directory: {Text.quoted path})"
  | directory => s!"cannot read {path} ([Errno 21] Is a directory: {Text.quoted path})"
  | encoding => s!"cannot read {path} (it is not UTF-8)"
  | load e => e.reason

def File.load (f : Format) : File → Except FileError (List Value)
  | missing => .error .missing
  | directory => .error .directory
  | bytes bs =>
    match Text.ofFileBytes bs with
    | some cs => (f.load (.ofList cs)).mapError .load
    | none => .error .encoding

/-- The format of a name, or without a name that of the file at a path. -/
def Format.choose (name : Option String) (path : String) : Except FormatError Format :=
  match name with
  | some n => ofName n
  | none => ofPath path

end TreePaths
