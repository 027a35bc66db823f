import TreePaths.Text.Blank
import TreePaths.Text.Digit

/-!
Options on a command line. A long option has its value behind an equals sign or as the next
argument, a short one also directly behind its letter. Two hyphens end the options.
-/

namespace TreePaths.Command

inductive UsageError where
  | noCommand
  | unknownCommand (name : String)
  | unknownOption (argument : String)
  | noValue (option : String)
  | unwantedValue (option : String)
  | missing (what : String)
  | extraArgument (argument : String)
  | noFile (path : String)
  | directory (path : String)
  | badCount (text : String)
  deriving DecidableEq, Repr

def UsageError.message : UsageError → String
  | noCommand => "Missing command."
  | unknownCommand n => s!"No such command '{n}'."
  | unknownOption a => s!"No such option: {a}"
  | noValue o => s!"Option '{o}' requires an argument."
  | unwantedValue o => s!"Option '{o}' does not take a value."
  | missing w => s!"Missing {w}."
  | extraArgument a => s!"Got unexpected extra argument ({a})"
  | noFile p => s!"File '{p}' does not exist."
  | directory p => s!"File '{p}' is a directory."
  | badCount t => s!"'{t}' is no count."

structure OptionSet where
  /-- Long options with a value. -/
  valued : List String
  /-- Long options without a value. -/
  switches : List String
  /-- Letters of short options with the long options that they stand for; these have values. -/
  letters : List (Char × String)

inductive Given where
  | value (option : String) (text : String)
  | switch (option : String)
  deriving DecidableEq, Repr

inductive Opened where
  | complete (g : Given)
  | needsValue (option : String)
  deriving DecidableEq, Repr

/-- An argument is an option if something follows its first hyphen. -/
def isOption (argument : String) : Bool :=
  match argument.toList with
  | '-' :: _ :: _ => true
  | _ => false

namespace OptionSet

def readLetter (o : OptionSet) (argument : String) : Except UsageError Opened :=
  match argument.toList with
  | '-' :: c :: text =>
    match o.letters.lookup c with
    | none => .error (.unknownOption argument)
    | some option =>
      .ok (if text.isEmpty then .needsValue option else .complete (.value option (.ofList text)))
  | _ => .error (.unknownOption argument)

def readOption (o : OptionSet) (argument : String) : Except UsageError Opened :=
  let (name, text) := argument.toList.span (· ≠ '=')
  let option := String.ofList name
  if o.valued.contains option then
    match text with
    | [] => .ok (.needsValue option)
    | _ :: cs => .ok (.complete (.value option (.ofList cs)))
  else if o.switches.contains option then
    if text.isEmpty then .ok (.complete (.switch option)) else .error (.unwantedValue option)
  else o.readLetter argument

def scan (o : OptionSet) : List String → Except UsageError (List Given × List String)
  | [] => .ok ([], [])
  | a :: as =>
    if a = "--" then .ok ([], as)
    else if isOption a then
      match o.readOption a with
      | .error e => .error e
      | .ok (.complete g) => (o.scan as).map fun (gs, rest) => (g :: gs, rest)
      | .ok (.needsValue option) =>
        match as with
        | [] => .error (.noValue option)
        | text :: as => (o.scan as).map fun (gs, rest) => (.value option text :: gs, rest)
    else (o.scan as).map fun (gs, rest) => (gs, a :: rest)

end OptionSet

def valuesOf (option : String) (gs : List Given) : List String :=
  gs.filterMap fun g =>
    match g with
    | .value o text => if o = option then some text else none
    | .switch _ => none

/-- The value of an option, of several the last one. -/
def valueOf (option : String) (gs : List Given) : Option String :=
  (valuesOf option gs).getLast?

/-- The last of two opposite switches decides. -/
def switchOf (on off : String) (gs : List Given) : Option Bool :=
  (gs.filterMap fun g =>
    if g = .switch on then some true
    else if g = .switch off then some false
    else none).getLast?

/-- Digits of any script, at most 4300 of them, with single underscores between them. -/
def countDigits (cs : List Char) : Option Nat :=
  let parts := cs.splitOnP (· = '_')
  let digits := parts.flatten
  if parts.all (!·.isEmpty) && digits.all Text.isDigit && digits.length ≤ Text.digitLimit then
    some (Text.decimalValue digits)
  else none

/-- A count: a decimal integer that is not negative, with blanks around it and a sign. -/
def readCount (text : String) : Except UsageError Nat :=
  let answer :=
    match Text.trimBy Text.isWhiteSpace text.toList with
    | '-' :: cs => (countDigits cs).filter (· = 0)
    | '+' :: cs => countDigits cs
    | cs => countDigits cs
  match answer with
  | some n => .ok n
  | none => .error (.badCount text)

end TreePaths.Command
