import TreePaths.Path.Component
import TreePaths.Path.Error
import TreePaths.Path.Token
import TreePaths.Text.Digit

/-!
Reading search paths. A text is `Ann* ( (Ann* Atom)* )`, where `Ann` is an atom followed by `::`.

* `foo`, `'a b'`, `"1"` name fields; what is quoted is always a name;
* `0` is an index and `*` the wildcard;
* the annotation `$ion_extractor_field`, unquoted, makes a name of what follows, and is dropped.
-/

namespace TreePaths

/-- The annotation that makes a field name of the token after it. -/
def fieldEscape : String := "$ion_extractor_field"

structure Atom where
  text : String
  isQuoted : Bool
  deriving DecidableEq, Repr

def unescape : List Char → List Char
  | '\\' :: c :: cs => c :: unescape cs
  | c :: cs => c :: unescape cs
  | [] => []

namespace Token

def atom? (t : Token) : Option Atom :=
  match t.kind with
  | .quoted => some ⟨.ofList (unescape (t.text.drop 1).dropLast), true⟩
  | .bare => some ⟨.ofList t.text, false⟩
  | _ => none

end Token

namespace Atom

def isEscape (a : Atom) : Bool :=
  !a.isQuoted && a.text = fieldEscape

def integer? (s : String) : Option (Bool × List Char) :=
  let split := fun (negative : Bool) (ds : List Char) =>
    if !ds.isEmpty && ds.all Text.isDigit then some (negative, ds) else none
  match s.toList with
  | '-' :: ds => split true ds
  | ds => split false ds

def selector (text source : String) : Except PathError Selector :=
  if text = "*" then
    .ok .wildcard
  else
    match integer? text with
    | none => .ok (.field text)
    | some (negative, ds) =>
      if Text.digitLimit < ds.length then
        .error (.digits ds.length)
      else
        let n := Text.decimalValue ds
        if negative && n ≠ 0 then .error (.malformed (.negativeIndex (-n)) source)
        else .ok (.index n)

def component (a : Atom) (annotations : List Atom) (source : String) :
    Except PathError Component := do
  let required := (annotations.filter (!·.isEscape)).map (·.text)
  if a.isQuoted || annotations.any isEscape then
    return ⟨.field a.text, required⟩
  else
    return ⟨← selector a.text source, required⟩

end Atom

namespace SearchPath

/-- Reads annotations up to the first token that is not part of one. -/
def readAnnotations (source : String) : List Token → Except PathError (List Atom × List Token)
  | t :: s :: ts =>
    match t.kind, t.atom?, s.kind with
    | .separator, _, _ => .error (.malformed (.danglingSeparator t.offset) source)
    | _, some a, .separator => (readAnnotations source ts).map fun (as, rest) => (a :: as, rest)
    | _, _, _ => .ok ([], t :: s :: ts)
  | [t] =>
    if t.kind = .separator then .error (.malformed (.danglingSeparator t.offset) source)
    else .ok ([], [t])
  | [] => .ok ([], [])

theorem length_readAnnotations_le {source : String} {ts rest : List Token} {as : List Atom}
    (h : readAnnotations source ts = .ok (as, rest)) : rest.length ≤ ts.length := by
  fun_induction readAnnotations source ts generalizing as rest with
  | case1 => simp at h
  | case2 t s ts _ a _ _ ih =>
    cases hr : readAnnotations source ts with
    | error e => simp [hr, Except.map] at h
    | ok p =>
      simp only [hr, Except.map, Except.ok.injEq, Prod.mk.injEq] at h
      obtain ⟨-, rfl⟩ := h
      have := ih (hr.trans rfl : readAnnotations source ts = .ok (p.1, p.2))
      simp only [List.length_cons]
      omega
  | case3 => simp_all
  | case4 => simp_all
  | case5 => simp_all
  | case6 => simp_all

/-- Reads components up to the closing parenthesis. -/
def readComponents (source : String) (ts : List Token) :
    Except PathError (List Component × List Token) :=
  match ts with
  | [] => .error (.malformed .unterminated source)
  | t :: tail =>
    if t.kind = .closing then
      .ok ([], tail)
    else
      match h : readAnnotations source (t :: tail) with
      | .error e => .error e
      | .ok (_, []) => .error (.malformed .noToken source)
      | .ok (as, u :: rest) =>
        have := length_readAnnotations_le h
        match u.atom? with
        | none => .error (.malformed .noToken source)
        | some a => do
          let c ← a.component as source
          let (cs, rest) ← readComponents source rest
          return (c :: cs, rest)
termination_by ts.length
decreasing_by simp only [List.length_cons] at *; omega

def ofTokens (source : String) (ts : List Token) : Except PathError SearchPath := do
  let (anchor, ts) ← readAnnotations source ts
  match ts with
  | [] => throw (.malformed .notAList source)
  | t :: ts =>
    if t.kind = .opening then
      let (components, rest) ← readComponents source ts
      match rest with
      | [] => return ⟨anchor.map (·.text), components⟩
      | u :: _ => throw (.malformed (.trailing u.offset) source)
    else
      throw (.malformed .notAList source)

def parse (text : String) : Except PathError SearchPath :=
  match Token.scan text.toList with
  | .error stray => .error (.malformed (.strayCharacter stray.char stray.offset) text)
  | .ok ts => ofTokens text ts

end SearchPath

end TreePaths
