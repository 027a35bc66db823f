import TreePaths.Value.Basic

/-!
Values as keys: which can be one, and when two are the same key.
-/

namespace TreePaths

namespace Value

mutual

/-- Lists, structs, maps and sets are no keys, nor are tuples and annotated values around them. -/
def isKey : Value → Bool
  | list _ | struct _ | map _ | set _ | endless _ => false
  | tuple xs => areKeys xs
  | annotated v _ => isKey v
  | _ => true

def areKeys : List Value → Bool
  | [] => true
  | v :: vs => isKey v && areKeys vs

end

inductive Number where
  | whole (i : Int)
  | broken (x : Double)
  deriving DecidableEq

/-- Truth values count as 0 and 1 and whole floating-point numbers as integers. A NaN counts as no
number: it is no other's key. -/
def number? : Value → Option Number
  | bool b => some (.whole b.toNat)
  | int i => some (.whole i)
  | float .nan => none
  | float x => some (match x.toInt? with | some i => .whole i | none => .broken x)
  | _ => none

mutual

def sameKey : Value → Value → Bool
  | null, null => true
  | str s, str t => s == t
  | bytes s, bytes t => s == t
  | date d, date e => d = e
  | moment t, moment u => t.same u
  | tuple xs, tuple ys => sameKeys xs ys
  | annotated v as, annotated w bs => as == bs && sameKey v w
  | v, w =>
    match number? v, number? w with
    | some a, some b => a = b
    | _, _ => false

def sameKeys : List Value → List Value → Bool
  | [], [] => true
  | v :: vs, w :: ws => sameKey v w && sameKeys vs ws
  | _, _ => false

end

/-- The members of a set, which has no order of its own, in the order they are written here:
ascending if all of them are whole numbers, and otherwise as they were put in. -/
def arranged (vs : List Value) : List Value :=
  let places := vs.filterMap fun v =>
    match number? v with
    | some (.whole i) => some (i, v)
    | _ => none
  if places.length = vs.length then (places.mergeSort fun a b => a.1 ≤ b.1).map (·.2) else vs

/-- Sets the value of a key. A key that is present keeps its place and its own form. -/
def insertBy {κ α : Type} (same : κ → κ → Bool) (k : κ) (v : α) : List (κ × α) → List (κ × α)
  | [] => [(k, v)]
  | (l, w) :: es => if same l k then (l, v) :: es else (l, w) :: insertBy same k v es

def insertKey (k v : Value) (es : List (Value × Value)) : List (Value × Value) :=
  insertBy sameKey k v es

/-- The entries of a map made of pairs: the first form of a repeated key and its last value. -/
def mapEntries (es : List (Value × Value)) : List (Value × Value) :=
  es.foldl (fun acc e => insertKey e.1 e.2 acc) []

def record (fields : List (String × Value)) : Value :=
  map (fields.map fun f => (str f.1, f.2))

def field? (name : String) : Value → Option Value
  | map es => (es.find? fun e => sameKey e.1 (str name)).map (·.2)
  | _ => none

end Value

end TreePaths
