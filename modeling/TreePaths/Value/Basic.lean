import TreePaths.Calendar
import TreePaths.Number.Double

/-!
The values that documents are made of, and that callbacks and settings may hold.
-/

namespace TreePaths

/-- A node of a document tree. The fields of a `struct` keep their order and their names may
repeat; the keys of a `map` are different from each other. A value that holds itself is told down to
some depth, where `endless` stands for it, which is shown as its mark. -/
inductive Value where
  | null
  | bool (b : Bool)
  | int (i : Int)
  | float (x : Double)
  | str (s : String)
  | bytes (bs : List UInt8)
  | date (d : Date)
  | moment (t : Moment)
  | list (items : List Value)
  | tuple (items : List Value)
  | struct (fields : List (String × Value))
  | map (entries : List (Value × Value))
  | set (items : List Value)
  | annotated (value : Value) (annotations : List String)
  | endless (mark : String)
  deriving Inhabited

namespace Value

def typeName : Value → String
  | null => "NoneType"
  | bool _ => "bool"
  | int _ => "int"
  | float _ => "float"
  | str _ => "str"
  | bytes _ => "bytes"
  | date _ => "date"
  | moment _ => "datetime"
  | list _ => "list"
  | tuple _ => "tuple"
  | struct _ => "Struct"
  | map _ => "dict"
  | set _ => "set"
  | annotated .. => "Annotated"
  | endless _ => "list"

def isTruthy : Value → Bool
  | null => false
  | bool b => b
  | int i => i ≠ 0
  | float x => !(x.same (.zero false))
  | str s => !s.isEmpty
  | bytes bs => !bs.isEmpty
  | list xs | tuple xs | set xs => !xs.isEmpty
  | struct fs => !fs.isEmpty
  | map es => !es.isEmpty
  | date _ | moment _ | annotated .. | endless _ => true

def items? : Value → Option (List Value)
  | list xs | tuple xs | set xs => some xs
  | struct fs => some (fs.map fun f => tuple [str f.1, f.2])
  | map es => some (es.map (·.1))
  | str s => some (s.toList.map fun c => str (.singleton c))
  | bytes bs => some (bs.map fun b => int b.toNat)
  | _ => none

mutual

def all (p : Value → Bool) : Value → Bool
  | list xs => p (list xs) && allItems p xs
  | tuple xs => p (tuple xs) && allItems p xs
  | set xs => p (set xs) && allItems p xs
  | struct fs => p (struct fs) && allFields p fs
  | map es => p (map es) && allEntries p es
  | annotated v as => p (annotated v as) && all p v
  | v => p v

def allItems (p : Value → Bool) : List Value → Bool
  | [] => true
  | v :: vs => all p v && allItems p vs

def allFields (p : Value → Bool) : List (String × Value) → Bool
  | [] => true
  | (_, v) :: fs => all p v && allFields p fs

def allEntries (p : Value → Bool) : List (Value × Value) → Bool
  | [] => true
  | (k, v) :: es => all p k && all p v && allEntries p es

end

/-- The value does not hold itself, nor does any value in it. -/
def isFinite (v : Value) : Bool :=
  v.all fun w =>
    match w with
    | endless _ => false
    | _ => true

end Value

end TreePaths
