import TreePaths.Extraction.Builder
import TreePaths.Proofs.Outcome
import TreePaths.Proofs.Value.Located
import TreePaths.Settings.Schema

/-!
Settings and their normal form. However loosely settings are written, what is read of them is
written as a value that reads as the same settings; and a search path in a list may stand there as a
text or as the section that holds the text.
-/

namespace TreePaths.Settings

open TreePaths.Value

namespace Checked

variable {α β : Type}

theorem both_eq_ok {x : Checked α} {y : Checked β} {a : α} {b : β} :
    both x y = .ok (a, b) ↔ x = .ok a ∧ y = .ok b := by
  cases x <;> cases y <;> simp [both]

theorem within_eq_ok {step : Step} {x : Checked α} {a : α} :
    within step x = .ok a ↔ x = .ok a := by
  cases x <;> simp [within]

theorem ofExcept_eq_ok {x : Except Cause α} {a : α} : ofExcept x = .ok a ↔ x = .ok a := by
  cases x <;> simp [ofExcept]

theorem eachFrom_eq_ok {xs : List (Checked α)} {i : Nat} {as : List α} :
    eachFrom i xs = .ok as ↔ xs = as.map .ok := by
  induction xs generalizing i as with
  | nil => cases as <;> simp [eachFrom]
  | cons x xs ih =>
    cases as with
    | nil =>
      rw [eachFrom]
      split <;> simp
    | cons a as =>
      have hboth : eachFrom i (x :: xs) = .ok (a :: as) ↔
          both (within (.number i) x) (eachFrom (i + 1) xs) = .ok (a, as) := by
        rw [eachFrom]
        split
        next heq =>
          rw [heq]
          simp
        next heq => simp [heq]
      rw [hboth, both_eq_ok, within_eq_ok, ih]
      simp

end Checked

open Checked

section Section

variable {α : Type} {schema : Schema} {fields : List String} {name : String} {absent : Checked α}
  {read : Value → Checked α} {v : Value} {a : α}

theorem readField_eq_ok : readField name absent read v = .ok a ↔
    (∃ w, v.field? name = some w ∧ read w = .ok a) ∨ (v.field? name = none ∧ absent = .ok a) := by
  rw [readField]
  cases v.field? name <;> simp [within_eq_ok]

theorem readSection_eq_ok : readSection schema fields read v = .ok a ↔
    ∃ es, v = .map es ∧ strayKeys fields es = [] ∧ read v = .ok a := by
  cases v with
  | map es =>
    have honly : onlyFields fields es = .ok () ↔ strayKeys fields es = [] := by
      rw [onlyFields]
      split <;> simp_all
    simp [readSection, map_eq_ok, both_eq_ok, honly, and_comm]
  | _ => simp [readSection]

end Section

theorem strayKeys_record {fields : List String} {fs : List (String × Value)}
    (h : ∀ f ∈ fs, f.1 ∈ fields) : strayKeys fields (fs.map fun f => (.str f.1, f.2)) = [] := by
  refine List.filterMap_eq_nil_iff.mpr fun e he => ?_
  obtain ⟨f, hf, rfl⟩ := List.mem_map.mp he
  simp [h f hf]

theorem readCount_eq_ok {v : Value} {n : Nat} :
    readCount v = .ok n ↔ readInteger v = .ok (n : Int) := by
  rw [readCount, bind_eq_ok]
  constructor
  · rintro ⟨i, hi, hn⟩
    split at hn
    · cases hn
    · obtain rfl := Except.ok.inj hn
      rw [hi]
      congr 1
      omega
  · intro h
    exact ⟨n, h, by simp [pure, Except.pure]⟩

theorem readPath_eq_ok {v : Value} {text : String} :
    readPath v = .ok text ↔
      readText v = .ok text ∧ ∃ path, SearchPath.parse text = .ok path := by
  rw [readPath, bind_eq_ok]
  constructor
  · rintro ⟨t, ht, h⟩
    split at h
    next path hpath =>
      obtain rfl := Except.ok.inj h
      exact ⟨ht, path, hpath⟩
    next => cases h
  · rintro ⟨ht, path, hpath⟩
    refine ⟨text, ht, ?_⟩
    rw [hpath]
    rfl

/-- A search path is read from a map with no stray keys, with a path that parses and a count that is
zero unless it is given. -/
theorem readSpec_eq_ok {v : Value} {p : PathSpec} : readSpec v = .ok p ↔
    ∃ es, v = .map es ∧ strayKeys ["path", "step_out"] es = [] ∧
      (∃ w, v.field? "path" = some w ∧ readPath w = .ok p.text) ∧
      ((∃ w, v.field? "step_out" = some w ∧ readCount w = .ok p.stepOut) ∨
        (v.field? "step_out" = none ∧ p.stepOut = 0)) := by
  rw [readSpec, readSection_eq_ok]
  refine exists_congr fun es => and_congr_right fun _ => and_congr_right fun _ => ?_
  obtain ⟨text, stepOut⟩ := p
  simp only [map_eq_ok, Prod.exists, both_eq_ok, readField_eq_ok, ofExcept_eq_ok, PathSpec.mk.injEq]
  constructor
  · rintro ⟨_, _, ⟨hpath | ⟨-, ⟨⟩⟩, hcount⟩, rfl, rfl⟩
    refine ⟨hpath, hcount.imp_right fun ⟨hnone, hzero⟩ => ⟨hnone, ?_⟩⟩
    exact (Except.ok.inj hzero).symm
  · rintro ⟨hpath, hcount⟩
    refine ⟨_, _, ⟨.inl hpath, hcount.imp_right fun ⟨hnone, hzero⟩ => ⟨hnone, ?_⟩⟩, rfl, rfl⟩
    rw [hzero]

theorem field?_path_specValue (p : PathSpec) :
    (specValue p).field? "path" = some (.str p.text) := by
  simp [specValue, record, field?, sameKey]

theorem field?_step_out_specValue (p : PathSpec) :
    (specValue p).field? "step_out" = some (.int p.stepOut) := by
  simp [specValue, record, field?, sameKey]

theorem readSpec_specValue {p : PathSpec} {path : SearchPath}
    (h : SearchPath.parse p.text = .ok path) : readSpec (specValue p) = .ok p := by
  refine readSpec_eq_ok.mpr ⟨_, rfl, strayKeys_record (by simp), ?_, .inl ?_⟩
  · exact ⟨_, field?_path_specValue p, readPath_eq_ok.mpr ⟨rfl, path, h⟩⟩
  · exact ⟨_, field?_step_out_specValue p, readCount_eq_ok.mpr rfl⟩

theorem readOptions_optionsValue (o : Options) : readOptions (optionsValue o) = .ok o :=
  rfl

theorem readSpecs_eq_ok {v : Value} {ps : List PathSpec} :
    readSpecs v = .ok ps ↔ ∃ vs, specItems v = .ok vs ∧ vs.map readSpec = ps.map .ok := by
  rw [readSpecs]
  cases specItems v <;> simp [eachFrom_eq_ok]

theorem readFormat_eq_ok {v : Value} {format : Option String} : readFormat v = .ok format ↔
    ∃ name, readOptionalText v = .ok name ∧ name.filter (· ≠ "") = format := by
  rw [readFormat, bind_eq_ok]
  simp [pure, Except.pure]

/-- Settings are read from a map with no stray keys, field by field; a field that is missing stays
as it is at first. -/
theorem read_eq_ok {v : Value} {s : Settings} : read v = .ok s ↔
    ∃ es, v = .map es ∧ strayKeys fieldNames es = [] ∧
      ((∃ w, v.field? "extractor" = some w ∧ readOptions w = .ok s.options) ∨
        (v.field? "extractor" = none ∧ s.options = {})) ∧
      ((∃ w, v.field? "search_paths" = some w ∧ readSpecs w = .ok s.specs) ∨
        (v.field? "search_paths" = none ∧ s.specs = [])) ∧
      ((∃ w, v.field? "document_format" = some w ∧ readFormat w = .ok s.format) ∨
        (v.field? "document_format" = none ∧ s.format = none)) := by
  have hsection : read v = .ok s ↔ readSection .whole fieldNames readFields v = .ok s := by
    cases v with
    | map es => exact mapError_eq_ok
    | _ => exact iff_of_false nofun nofun
  rw [hsection, readSection_eq_ok]
  refine exists_congr fun es => and_congr_right fun _ => and_congr_right fun _ => ?_
  obtain ⟨options, specs, format⟩ := s
  have absent {α : Type} {a b : α} : (Except.ok a : Checked α) = .ok b ↔ b = a := by
    rw [Except.ok.injEq, eq_comm]
  simp only [readFields, map_eq_ok, Prod.exists, both_eq_ok, readField_eq_ok, ofExcept_eq_ok,
    Settings.mk.injEq, absent]
  constructor
  · rintro ⟨_, _, _, h, rfl, rfl, rfl⟩
    exact h
  · exact fun h => ⟨_, _, _, h, rfl, rfl, rfl⟩

/-- Settings as they are when they have been read: all search paths parse, and a format has a
name. -/
structure IsNormal (s : Settings) : Prop where
  parses : ∀ p ∈ s.specs, ∃ path, SearchPath.parse p.text = .ok path
  named : s.format ≠ some ""

/-- Reading leads to normal form. -/
theorem isNormal_of_read {v : Value} {s : Settings} (h : read v = .ok s) : s.IsNormal := by
  obtain ⟨es, -, -, -, hspecs, hformat⟩ := read_eq_ok.mp h
  constructor
  · intro p hp
    rcases hspecs with ⟨w, -, hw⟩ | ⟨-, hnil⟩
    · obtain ⟨vs, -, hvs⟩ := readSpecs_eq_ok.mp hw
      have hmem : Except.ok p ∈ vs.map readSpec := hvs ▸ List.mem_map_of_mem hp
      obtain ⟨v, -, hv⟩ := List.mem_map.mp hmem
      obtain ⟨_, _, _, ⟨_, _, htext⟩, _⟩ := readSpec_eq_ok.mp hv
      exact (readPath_eq_ok.mp htext).2
    · rw [hnil] at hp
      cases hp
  · rcases hformat with ⟨w, -, hw⟩ | ⟨-, hnone⟩
    · obtain ⟨name, -, hname⟩ := readFormat_eq_ok.mp hw
      rw [← hname]
      intro hempty
      simpa using (Option.filter_eq_some_iff.mp hempty).2
    · rw [hnone]
      nofun

section Normal

variable {s : Settings}

theorem field?_extractor_toValue (s : Settings) :
    s.toValue.field? "extractor" = some (optionsValue s.options) := by
  simp [toValue, record, field?, sameKey]

theorem field?_specs_toValue (s : Settings) : s.toValue.field? "search_paths" =
    if s.specs.isEmpty then none else some (.list (s.specs.map specValue)) := by
  cases hs : s.specs <;> simp [toValue, record, field?, sameKey, hs]

theorem field?_format_toValue (h : s.format ≠ some "") :
    s.toValue.field? "document_format" = s.format.map .str := by
  cases hs : s.specs <;> cases hf : s.format <;> simp_all [toValue, record, field?, sameKey]

theorem specItems_specValues (ps : List PathSpec) :
    specItems (.list (ps.map specValue)) = .ok (ps.map specValue) := by
  rw [specItems, List.map_map]
  rfl

/-- The normal form of settings reads as these settings. -/
theorem IsNormal.read_toValue (h : s.IsNormal) : read s.toValue = .ok s := by
  refine read_eq_ok.mpr ⟨_, rfl, strayKeys_record ?_,
    .inl ⟨_, field?_extractor_toValue s, readOptions_optionsValue s.options⟩, ?_, ?_⟩
  · intro f hf
    rcases List.mem_cons.mp hf with rfl | hf
    · simp [fieldNames]
    rcases List.mem_append.mp hf with hf | hf
    · split at hf
      · cases hf
      · simp [fieldNames, List.mem_singleton.mp hf]
    · obtain ⟨name, -, rfl⟩ := List.mem_map.mp hf
      simp [fieldNames]
  · rw [field?_specs_toValue]
    cases hs : s.specs with
    | nil => exact .inr ⟨rfl, rfl⟩
    | cons p ps =>
      refine .inl ⟨_, rfl, readSpecs_eq_ok.mpr ⟨_, specItems_specValues _, ?_⟩⟩
      rw [List.map_map]
      refine List.map_congr_left fun q hq => ?_
      obtain ⟨path, hpath⟩ := h.parses q (hs ▸ hq)
      exact readSpec_specValue hpath
  · rw [field?_format_toValue h.named]
    cases hf : s.format with
    | none => exact .inr ⟨rfl, rfl⟩
    | some name =>
      refine .inl ⟨_, rfl, readFormat_eq_ok.mpr ⟨some name, rfl, ?_⟩⟩
      have hne : name ≠ "" := fun hname => h.named (hf.trans (congrArg some hname))
      simp [hne]

end Normal

inductive SameItem : Value → Value → Prop
  | refl (v : Value) : SameItem v v
  | expand (text : String) : SameItem (.str text) (.map [(.str "path", .str text)])
  | collapse (text : String) : SameItem (.map [(.str "path", .str text)]) (.str text)

inductive Respelled : Value → Value → Prop
  | of_items (front back : List (Value × Value)) {vs ws : List Value}
      (h : List.Forall₂ SameItem vs ws) :
      Respelled (.map (front ++ (.str "search_paths", .list vs) :: back))
        (.map (front ++ (.str "search_paths", .list ws) :: back))

theorem SameItem.expandSpec_eq {v w : Value} (h : SameItem v w) : expandSpec v = expandSpec w := by
  cases h <;> rfl

theorem readSpecs_eq_of_sameItem {vs ws : List Value} (h : List.Forall₂ SameItem vs ws) :
    readSpecs (.list vs) = readSpecs (.list ws) := by
  have hitems : vs.map expandSpec = ws.map expandSpec := by
    rw [← List.forall₂_eq_eq_eq, List.forall₂_map_left_iff, List.forall₂_map_right_iff]
    exact h.imp fun _ _ => SameItem.expandSpec_eq
  rw [readSpecs, readSpecs, specItems, specItems, hitems]

/-- A field reads alike in two sections that differ in one entry, if it is another field or reads
alike there. -/
theorem readField_middle {α : Type} {absent : Checked α} {read : Value → Checked α}
    {name key : String} {v w : Value} (front back : List (Value × Value))
    (h : key = name → read v = read w) :
    readField name absent read (.map (front ++ (.str key, v) :: back)) =
      readField name absent read (.map (front ++ (.str key, w) :: back)) := by
  rw [readField, readField, field?, field?, List.find?_append, List.find?_append, List.find?_cons,
    List.find?_cons, sameKey]
  cases front.find? fun e => e.1.sameKey (.str name) with
  | some e => rfl
  | none =>
    by_cases hkey : key = name
    · simp [hkey, h hkey]
    · rw [beq_eq_false_iff_ne.mpr hkey]

theorem readFields_middle {vs ws : List Value} (front back : List (Value × Value))
    (h : List.Forall₂ SameItem vs ws) :
    readFields (.map (front ++ (.str "search_paths", .list vs) :: back)) =
      readFields (.map (front ++ (.str "search_paths", .list ws) :: back)) := by
  have hspecs := readSpecs_eq_of_sameItem h
  rw [readFields, readFields]
  congr 2
  · exact readField_middle front back (by simp)
  · congr 1
    · exact readField_middle front back fun _ => hspecs
    · exact readField_middle front back (by simp)

theorem Respelled.read_eq {v w : Value} (h : Respelled v w) : read v = read w := by
  obtain ⟨front, back, hitems⟩ := h
  have hstray (x : Value) : strayKeys fieldNames (front ++ (.str "search_paths", x) :: back) =
      strayKeys fieldNames front ++ strayKeys fieldNames back := by
    simp [strayKeys, fieldNames]
  simp only [read, readSection, onlyFields, hstray, readFields_middle front back hitems]

/-- A search path as a section of settings in normal form: builders take its text with any callback,
and its count is not negative. -/
def IsRegistrable (v : Value) : Prop :=
  ∃ (text : String) (path : SearchPath) (count : Int),
    v.field? "path" = some (.str text) ∧ v.field? "step_out" = some (.int count) ∧ 0 ≤ count ∧
      ∀ {σ ε : Type} (b : Builder σ ε) (callback : Action σ ε Value),
        b.register (.value (.str text)) (some callback) .null = .ok (b.push path callback)

theorem isRegistrable_specValue {p : PathSpec} {path : SearchPath}
    (h : SearchPath.parse p.text = .ok path) : IsRegistrable (specValue p) := by
  refine ⟨p.text, path, p.stepOut, field?_path_specValue p, field?_step_out_specValue p,
    Int.natCast_nonneg _, fun b callback => ?_⟩
  rw [Builder.register, PathArgument.resolve, h]
  · rfl
  · nofun

/-- What is read of a value has a normal form that reads as the same settings. All its search paths
can be registered, and it is the normal form of any other spelling of the search paths. -/
theorem normal_form_stable {raw : Value} {s : Settings} (h : read raw = .ok s) :
    read s.toValue = .ok s ∧
      (∀ w, s.toValue.field? "search_paths" = some w →
        ∃ vs, w = .list vs ∧ vs.length = s.specs.length ∧ ∀ v ∈ vs, IsRegistrable v) ∧
      ∀ other, Respelled raw other → read other = .ok s := by
  have hnormal := isNormal_of_read h
  refine ⟨hnormal.read_toValue, fun w hw => ?_, fun other hother => hother.read_eq ▸ h⟩
  rw [field?_specs_toValue] at hw
  split at hw
  · cases hw
  · obtain rfl := Option.some.inj hw
    refine ⟨_, rfl, List.length_map _, fun v hv => ?_⟩
    obtain ⟨p, hp, rfl⟩ := List.mem_map.mp hv
    obtain ⟨path, hpath⟩ := hnormal.parses p hp
    exact isRegistrable_specValue hpath

/-- Switches in words and numbers, a path in bytes, a count in a text, and a format without a
name. -/
def Sample.loose : Value :=
  .record [("extractor", .record [("match_relative_paths", .str "YES"),
      ("match_case_insensitive", .float (.ofInt 1))]),
    ("search_paths", .list [.str "(a *)",
      .record [("step_out", .str " 1_0.0 "), ("path", .bytes [40, 41])],
      .record [("path", .str "u::(b)")]]),
    ("document_format", .str "")]

def Sample.respelled : Value :=
  .record [("extractor", .record [("match_relative_paths", .str "YES"),
      ("match_case_insensitive", .float (.ofInt 1))]),
    ("search_paths", .list [.record [("path", .str "(a *)")],
      .record [("step_out", .str " 1_0.0 "), ("path", .bytes [40, 41])],
      .str "u::(b)"]),
    ("document_format", .str "")]

def Sample.normal : Settings :=
  ⟨⟨true, true⟩, [⟨"(a *)", 0⟩, ⟨"()", 10⟩, ⟨"u::(b)", 0⟩], none⟩

theorem normal_form_stable_sample :
    (read Sample.loose = .ok Sample.normal ∧ Respelled Sample.loose Sample.respelled) ∧
      read Sample.normal.toValue = .ok Sample.normal ∧
      read Sample.respelled = .ok Sample.normal := by
  have hread : read Sample.loose = .ok Sample.normal := by decide +kernel
  have hother : Respelled Sample.loose Sample.respelled :=
    .of_items [_] [_] (.cons (.expand _) (.cons (.refl _) (.cons (.collapse _) .nil)))
  obtain ⟨hnormal, -, hrespelled⟩ := normal_form_stable hread
  exact ⟨⟨hread, hother⟩, hnormal, hrespelled _ hother⟩

end TreePaths.Settings
