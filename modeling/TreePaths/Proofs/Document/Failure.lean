import TreePaths.Command.Execute
import TreePaths.Proofs.Document.Lines
import TreePaths.Proofs.Json.Limit
import TreePaths.Proofs.Yaml.Composing
import TreePaths.Proofs.Yaml.Owners

/-!
How loading a document fails: with an error that is reported as one of its format, unless the text
holds something on which the decoder of the format stumbles otherwise.
-/

namespace TreePaths

namespace Yaml

inductive Composer.HasDocument (g : Graph) : Bool → Composer → Prop
  | next {first : Bool} {x y : Composer} {n : NodeId} :
      (document first).run x = .ok (some n, y) → y.graph = g → HasDocument g first x
  | later {first : Bool} {x y : Composer} {n : NodeId} {v : Value} :
      (document first).run x = .ok (some n, y) → build .tree y.graph n = .ok v →
      HasDocument g false y → HasDocument g first x

def IsDocument (cs : List Char) (g : Graph) : Prop :=
  (Composer.ofStream (.ofText cs)).HasDocument g true

/-- Each document is composed and built in turn, and the first fault ends it. -/
theorem buildAll_yields (fuel : Nat) (first : Bool) (x : Composer) :
    Yields (fun e => (e.isMalformed = true ∨ x.fault = some e) ∨
        ∃ g, x.HasDocument g first ∧ g.Unfit e) (buildAll .tree fuel first x) fun _ => True := by
  induction fuel generalizing first x with
  | zero => exact .inl (.inl rfl)
  | succ fuel ih =>
    have hcomposes := Composer.composes_document first x rfl
    unfold buildAll
    split
    next e he => exact .inl (hcomposes.error he)
    next => trivial
    next n y hy =>
      have hfault : y.fault = x.fault := hcomposes.ok hy
      refine ((y.graph.build_yields n).result.weaken ?_ fun _ => id).bind fun v hv => ?_
      · rintro e (hmalformed | hunfit)
        · exact .inl (.inl hmalformed)
        · exact .inr ⟨y.graph, .next hy rfl, hunfit⟩
      · refine ((ih false y).weaken ?_ fun _ => id).bind fun _ _ => .pure trivial
        rintro e (hform | ⟨g, hg, hunfit⟩)
        · exact .inl (hform.imp_right fun h => hfault ▸ h)
        · exact .inr ⟨g, .later hy hv hg, hunfit⟩

/-- Loading trees fails only if the text is malformed, a number in it is too large, or a document of
the text holds a node that does not suit its tag. -/
theorem loadTrees_yields (cs : List Char) :
    Yields (fun e => e.isMalformed = true ∨ Oversized cs e ∨ ∃ g, IsDocument cs g ∧ g.Unfit e)
      (loadTrees cs) fun _ => True := by
  refine (buildAll_yields _ true _).weaken ?_ fun _ => id
  rintro e ((hmalformed | hfault) | hunfit)
  · exact .inl hmalformed
  · exact (Tokens.fault_ofText hfault).imp_right .inl
  · exact .inr (.inr hunfit)

end Yaml

/-- An error is told, whether the results can be compared or not. -/
instance Except.decidableEqError {ε α : Type} [DecidableEq ε] {x : Except ε α} {e : ε} :
    Decidable (x = .error e) :=
  match x with
  | .ok _ => isFalse nofun
  | .error d => decidable_of_iff (d = e) ⟨congrArg _, fun h => Except.error.inj h⟩

namespace Format

open Text

/-- Nothing in the text of a line keeps the next line from being read. -/
def Passes (line : List Char) : Prop :=
  trimBy isBlank line = [] ∨ ∃ v, Json.read (trimBy isBlank line) = .ok v

/-- The error is one of those that say that a text of the format is malformed. -/
def Reports : Format → LoadError → Prop
  | json, .json none _ _ => True
  | jsonLines, .json (some _) _ _ => True
  | yaml, .yaml fault => fault.isMalformed = true
  | _, _ => False

/-- The text holds something on which the decoder stumbles: an integer in JSON with too many digits,
or in YAML an escape or a version with a number too large, or a node that fits its tag so ill. -/
inductive Stumbles (text : String) : Format → LoadError → Prop
  | json {n : Nat} : Json.Overlong text.toList n → Stumbles text .json (.digits n)
  | jsonLines {front back : List (List Char)} {line : List Char} {n : Nat} :
      lines text.toList = front ++ line :: back → (∀ l ∈ front, Passes l) →
      Json.Overlong (trimBy isBlank line) n → Stumbles text .jsonLines (.digits n)
  | oversized {e : Yaml.Fault} : Yaml.Oversized text.toList e → Stumbles text .yaml (.yaml e)
  | unfit {g : Yaml.Graph} {e : Yaml.Fault} :
      Yaml.IsDocument text.toList g → g.Unfit e → Stumbles text .yaml (.yaml e)

section Json

variable {cs : List Char} {n : Nat} {line : Option Nat}

theorem loadJson_eq_digits : loadJson line cs = .error (.digits n) ↔ Json.Overlong cs n := by
  rw [← Json.read_eq_digits, loadJson]
  split
  next h => simp [h]
  next h => simp [h]
  next h => simp [h]

theorem loadJson_eq_ok {v : Value} : loadJson line cs = .ok v ↔ Json.read cs = .ok v := by
  rw [loadJson]
  split
  next h => simp [h]
  next h => simp [h]
  next h => simp [h]

theorem reports_of_loadJson {e : LoadError} (h : loadJson line cs = .error e) :
    (∃ fault place, e = .json line fault place) ∨ ∃ n, e = .digits n := by
  unfold loadJson at h
  split at h
  next => cases h
  next fault place _ =>
    cases h
    exact .inl ⟨fault, place, rfl⟩
  next n _ =>
    cases h
    exact .inr ⟨n, rfl⟩

end Json

section Lines

variable {k : Nat} {l : List Char} {ls : List (List Char)} {e : LoadError}

/-- Of these lines, the first of which has the number `k`, one is not read; all before it are. -/
def Fails (k : Nat) (ls : List (List Char)) (e : LoadError) : Prop :=
  ∃ front line back, ls = front ++ line :: back ∧ (∀ l ∈ front, Passes l) ∧
    trimBy isBlank line ≠ [] ∧
      loadJson (some (k + front.length)) (trimBy isBlank line) = .error e

theorem fails_cons : Fails k (l :: ls) e ↔
    (trimBy isBlank l ≠ [] ∧ loadJson (some k) (trimBy isBlank l) = .error e) ∨
      Passes l ∧ Fails (k + 1) ls e := by
  constructor
  · rintro ⟨front, line, back, hls, hpass, hne, herror⟩
    cases front with
    | nil =>
      cases hls
      exact .inl ⟨hne, herror⟩
    | cons m front =>
      cases hls
      obtain ⟨hl, hfront⟩ := List.forall_mem_cons.1 hpass
      refine .inr ⟨hl, front, line, back, rfl, hfront, hne, ?_⟩
      rwa [Nat.add_right_comm, Nat.add_assoc]
  · rintro (⟨hne, herror⟩ | ⟨hl, front, line, back, rfl, hfront, hne, herror⟩)
    · exact ⟨[], l, ls, rfl, nofun, hne, herror⟩
    · refine ⟨l :: front, line, back, rfl, List.forall_mem_cons.2 ⟨hl, hfront⟩, hne, ?_⟩
      rwa [Nat.add_right_comm, Nat.add_assoc] at herror

/-- JSON lines are loaded up to the first one that is not read. -/
theorem loadLines_eq_error : loadLines k ls = .error e ↔ Fails k ls e := by
  induction ls generalizing k with
  | nil => exact ⟨nofun, by rintro ⟨front, line, back, hls, -⟩; simp at hls⟩
  | cons l ls ih =>
    rw [fails_cons, loadLines, ← ih]
    unfold Passes
    split
    next hblank => simp [hblank]
    next hne =>
      have hne : trimBy isBlank l ≠ [] := hne
      have hrest (v : Value) : (do return v :: (← loadLines (k + 1) ls)) = .error e ↔
          loadLines (k + 1) ls = .error e := by
        cases loadLines (k + 1) ls <;> simp
      rw [bind_eq_error]
      simp only [loadJson_eq_ok, hrest, exists_and_right, hne, ne_eq, not_false_eq_true, true_and,
        false_or]

end Lines

theorem stumbles_jsonLines_iff {text : String} {n : Nat} :
    jsonLines.Stumbles text (.digits n) ↔ Fails 1 (lines text.toList) (.digits n) := by
  constructor
  · rintro ⟨⟩
    case jsonLines front back line hlines hpass hover =>
      refine ⟨front, line, back, hlines, hpass, ?_, loadJson_eq_digits.2 hover⟩
      intro hnil
      exact Json.not_overlong_nil (hnil ▸ hover)
  · rintro ⟨front, line, back, hlines, hpass, -, hover⟩
    exact .jsonLines hlines hpass (loadJson_eq_digits.1 hover)

theorem load_yaml (text : String) : yaml.load text =
    ((Yaml.loadTrees text.toList).map fun vs => vs.filter (!isNull ·)).mapError .yaml := by
  unfold load
  dsimp only
  cases Yaml.loadTrees text.toList <;> rfl

theorem yaml_of_load {text : String} {e : LoadError} (h : yaml.load text = .error e) :
    ∃ fault, e = .yaml fault ∧ (fault.isMalformed = true ∨ yaml.Stumbles text (.yaml fault)) := by
  rw [load_yaml, mapError_eq_error] at h
  obtain ⟨fault, hload, rfl⟩ := h
  have hends := Yaml.loadTrees_yields text.toList
  rw [map_eq_error.1 hload] at hends
  refine ⟨fault, rfl, hends.imp_right ?_⟩
  rintro (hover | ⟨g, hg, hunfit⟩)
  · exact .oversized hover
  · exact .unfit hg hunfit

theorem load_eq_digits_iff (f : Format) (text : String) (n : Nat) :
    f.load text = .error (.digits n) ↔ f.Stumbles text (.digits n) := by
  cases f with
  | json =>
    show (loadJson none text.toList).map _ = _ ↔ _
    rw [map_eq_error, loadJson_eq_digits]
    exact ⟨.json, fun | .json h => h⟩
  | jsonLines => exact loadLines_eq_error.trans stumbles_jsonLines_iff.symm
  | yaml =>
    refine ⟨fun h => ?_, nofun⟩
    obtain ⟨fault, hfault, -⟩ := yaml_of_load h
    cases hfault

/-- Loading a text fails only with a reported error that says that it is malformed, unless the text
holds something on which the decoder stumbles. -/
theorem load_fails (f : Format) (text : String) :
    ((∃ roots, f.load text = .ok roots) ∨ ∃ e, f.load text = .error e ∧
      (f.Reports e ∧ e.isReported = true ∨ f.Stumbles text e ∧ e.isReported = false)) ∧
    ∀ n, f.load text = .error (.digits n) ↔ f.Stumbles text (.digits n) := by
  refine ⟨?_, f.load_eq_digits_iff text⟩
  cases hload : f.load text with
  | ok roots => exact .inl ⟨roots, rfl⟩
  | error e =>
    refine .inr ⟨e, rfl, ?_⟩
    cases f with
    | json =>
      have herror : loadJson none text.toList = .error e := map_eq_error.1 hload
      rcases reports_of_loadJson herror with ⟨fault, place, rfl⟩ | ⟨n, rfl⟩
      · exact .inl ⟨trivial, rfl⟩
      · exact .inr ⟨(load_eq_digits_iff json text n).1 hload, rfl⟩
    | jsonLines =>
      obtain ⟨front, line, back, -, -, -, herror⟩ := loadLines_eq_error.1 hload
      rcases reports_of_loadJson herror with ⟨fault, place, rfl⟩ | ⟨n, rfl⟩
      · exact .inl ⟨trivial, rfl⟩
      · exact .inr ⟨(load_eq_digits_iff jsonLines text n).1 hload, rfl⟩
    | yaml =>
      obtain ⟨fault, rfl, hends⟩ := yaml_of_load hload
      cases hmalformed : fault.isMalformed with
      | true => exact .inl ⟨hmalformed, hmalformed⟩
      | false => exact .inr ⟨hends.resolve_left (Bool.eq_false_iff.1 hmalformed), hmalformed⟩

/-- A text that is one long integer is loaded neither as JSON nor as JSON lines. -/
theorem load_digits {ds : List Char} (hdigits : ∀ d ∈ ds, d.isDigit) (hzero : ds.head? ≠ some '0')
    (hlimit : Text.digitLimit < ds.length) :
    json.load (.ofList ds) = .error (.digits ds.length) ∧
      jsonLines.load (.ofList ds) = .error (.digits ds.length) := by
  have hover := Json.overlong_of_digits hdigits hzero hlimit
  have hvisible (d : Char) (hd : d ∈ ds) := Json.visible_of_isDigit (hdigits d hd)
  have hne : ds ≠ [] := List.ne_nil_of_length_pos (Nat.zero_lt_of_lt hlimit)
  constructor
  · rw [load_eq_digits_iff]
    exact .json (by rwa [String.toList_ofList])
  · rw [load_eq_digits_iff]
    have hlines : lines (String.ofList ds).toList = [] ++ ds :: [] := by
      rw [String.toList_ofList]
      exact lines_of_forall (fun d hd => (hvisible d hd).not_isLineEnd) hne
    refine .jsonLines hlines nofun ?_
    rwa [trimBy_eq_self fun d hd => (hvisible d hd).not_isBlank]

/-- Loading fails with errors that are not reported, of almost every kind. -/
theorem load_unreported :
    (∀ f ∈ [json, jsonLines], f.load (.ofList (List.replicate 4301 '1')) = .error (.digits 4301)) ∧
    (LoadError.digits 4301).isReported = false ∧
    ∀ p ∈ [("!!int x", .number), ("!!int ''", .emptyNumber), ("!!bool x", .truth),
        ("!!timestamp x", .notTimestamp), ("2024-02-30", .timestamp),
        ("!!timestamp \x7b=: 2024-01-01\x7d", .timestampMapping), ("!!map x", .pairsOfText),
        ("!!map [x]", .pairsOfSequence), ("!!set \x7b? !a [x]\x7d", .key),
        ("!!str &a \x7b=: *a\x7d", .endless), ("\"\\UFFFFFFFF\"", .code true)],
      yaml.load p.1 = .error (.yaml p.2) ∧ (LoadError.yaml p.2).isReported = false := by
  have hlong (k : Nat) (hk : digitLimit < k) :
      json.load (.ofList (List.replicate k '1')) = .error (.digits k) ∧
        jsonLines.load (.ofList (List.replicate k '1')) = .error (.digits k) := by
    have hlength := List.length_replicate (n := k) (a := '1')
    have hdigits : ∀ d ∈ List.replicate k '1', d.isDigit := by simp
    have hzero : (List.replicate k '1').head? ≠ some '0' := fun h =>
      absurd (List.eq_of_mem_replicate (List.mem_of_mem_head? h)) (by decide)
    have hload := load_digits hdigits hzero (by rwa [hlength])
    rwa [hlength] at hload
  obtain ⟨hjson, hlines⟩ := hlong 4301 (by decide)
  refine ⟨?_, rfl, ?_⟩
  · exact List.forall_mem_cons.2 ⟨hjson, List.forall_mem_singleton.2 hlines⟩
  · decide +kernel

end Format

end TreePaths
