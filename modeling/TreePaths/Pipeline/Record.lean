import TreePaths.Extraction.Builder
import TreePaths.Settings.Schema

/-!
Records of matches, and the callbacks that note them.
-/

namespace TreePaths

structure Record where
  document : Nat
  path : String
  location : List Position
  annotations : List String
  value : Value

namespace Record

/-- The match of a search path on the value under a cursor, which is `value` as plain data. -/
def ofCursor (document : Nat) (path : String) (c : Cursor) (value : Value) : Record :=
  ⟨document, path, c.location, c.annotations, value⟩

def toValue (r : Record) : Value :=
  .record [("document", .int r.document), ("search_path", .str r.path),
    ("location", .list (r.location.map Position.toValue)),
    ("annotations", .list (r.annotations.map .str)), ("value", r.value)]

end Record

structure Collector where
  document : Nat
  records : List Record

def Collector.empty : Collector :=
  ⟨0, []⟩

/-- Notes the match, and asks to leave as many containers as the search path says, or all of them if
there are not so many. -/
def PathSpec.collect {ε : Type} (s : PathSpec) : Action Collector ε Value := do
  let cursor ← Action.look (·.cursor)
  let value ← Action.value
  modify fun t =>
    { t with state :=
      { t.state with
        records := .ofCursor t.state.document s.text cursor value :: t.state.records } }
  return .int (min s.stepOut cursor.depth : Nat)

def Builder.registerAll {ε : Type} (b : Builder Collector ε) :
    List PathSpec → Except BuildError (Builder Collector ε)
  | [] => .ok b
  | s :: ss => do
    let b ← b.register (.value (.str s.text)) (some s.collect) .null
    b.registerAll ss

def Settings.extractor {ε : Type} (s : Settings) : Except BuildError (Extractor Collector ε) := do
  let b := (Builder.standard.withRelative s.options.relative).withIgnoreCase s.options.ignoreCase
  return (← b.registerAll s.specs).build

end TreePaths
