import Std.Time.Format
import TreePaths.Command.Execute

/-!
The program: reads the files that a command names, executes the command, and prints its reply.
-/

open TreePaths

namespace TreePaths.Program

def fileAt (path : String) : IO File := do
  try
    return .bytes (← IO.FS.readBinFile path).toList
  catch e =>
    match e with
    | .inappropriateType .. => return .directory
    | _ => return .missing

def pathsOf : Command → List String
  | .run r => r.documents :: r.output.toList ++ r.config.toList
  | _ => []

/-- The directory that a path lies in. -/
def parent (path : String) : String :=
  let front := (path.toList.reverse.dropWhile (· ≠ '/')).reverse
  if front.isEmpty then "." else .ofList front

def write (path text : String) : IO Unit := do
  IO.FS.createDirAll (parent path)
  IO.FS.writeFile path text

def finish (c : Command) (r : Reply) : IO UInt32 := do
  if let .run { output := some path, .. } := c then
    r.output.forM (write path)
  IO.print r.text
  match r.ending with
  | .done => return 0
  | .failed message =>
    IO.eprintln message
    return 1
  | .crashed cause =>
    IO.eprintln cause.message
    return 1

def refuse (e : Command.UsageError) : IO UInt32 := do
  IO.eprintln e.message
  return 2

end TreePaths.Program

open TreePaths.Program in
def main (arguments : List String) : IO UInt32 := do
  match Command.ofArguments (fun _ => .bytes []) arguments with
  | .error e => refuse e
  | .ok c =>
    let table ← (pathsOf c).mapM fun p => return (p, ← fileAt p)
    let files := fun p => (table.lookup p).getD .missing
    let timestamp := (← Std.Time.PlainDateTime.now).format "uuuu-MM-dd'T'HH:mm:ss"
    match Command.ofArguments files arguments with
    | .error e => refuse e
    | .ok c => finish c (Command.execute files timestamp c)
