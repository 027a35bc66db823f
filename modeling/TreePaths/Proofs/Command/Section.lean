import TreePaths.Command.Execute
import TreePaths.Proofs.Settings.Normal

/-!
The section of a config file that holds the options of an extractor. The command makes a map of it
before the settings are read, so that a row of pairs passes for a section, and anything else that is
no map ends the command before its settings are read.
-/

namespace TreePaths.Command

open TreePaths.Value

/-- The value is a row of pairs, and these are the entries of the map that they make. -/
def MadeOfPairs (v : Value) (own : List (Value × Value)) : Prop :=
  ∃ items pairs, v.items? = some items ∧
    List.Forall₂ (fun item (pair : Value × Value) =>
      item.items? = some [pair.1, pair.2] ∧ pair.1.isKey) items pairs ∧
    own = pairs.foldl (fun es pair => insertBy samePairKey pair.1 pair.2 es) []

/-- Pairs can be added exactly if each item has two items of its own, of which the first can be a
key. They are set one after another. -/
theorem addPairs_eq_ok {items : List Value} {n : Nat} {es own : List (Value × Value)} :
    addPairs n es items = .ok own ↔ ∃ pairs : List (Value × Value),
      List.Forall₂ (fun item (pair : Value × Value) =>
        item.items? = some [pair.1, pair.2] ∧ pair.1.isKey) items pairs ∧
      own = pairs.foldl (fun es pair => insertBy samePairKey pair.1 pair.2 es) es := by
  induction items generalizing n es with
  | nil =>
    constructor
    · rintro ⟨⟩
      exact ⟨[], .nil, rfl⟩
    · rintro ⟨_, ⟨⟩, rfl⟩
      rfl
  | cons item items ih =>
    rw [addPairs]
    constructor
    · intro h
      split at h
      next => cases h
      next k w hitem =>
        split at h
        next hkey =>
          obtain ⟨pairs, hpairs, hown⟩ := ih.mp h
          exact ⟨(k, w) :: pairs, .cons ⟨hitem, hkey⟩ hpairs, hown⟩
        next => cases h
      next => cases h
    · rintro ⟨pairs, hpairs, hown⟩
      obtain ⟨pair, pairs, ⟨hitem, hkey⟩, hrest, rfl⟩ := List.forall₂_cons_left_iff.mp hpairs
      rw [hitem]
      dsimp only
      rw [if_pos hkey]
      exact ih.mpr ⟨pairs, hrest, hown⟩

theorem sectionEntries_map (es : List (Value × Value)) : sectionEntries (.map es) = .ok es := by
  cases es <;> rfl

/-- A section that counts as true is a map, or it has to be a row of pairs. -/
theorem sectionEntries_eq_ok {v : Value} (htrue : v.isTruthy) (hmap : ∀ es, v ≠ .map es)
    {own : List (Value × Value)} : sectionEntries v = .ok own ↔ MadeOfPairs v own := by
  have hsection : sectionEntries v = v.items?.elim (.error .notIterable) (addPairs 0 []) := by
    unfold sectionEntries
    rw [htrue]
    cases v with
    | map es => exact absurd rfl (hmap es)
    | _ => rfl
  rw [hsection, MadeOfPairs]
  cases v.items? with
  | none => simp
  | some items => simp [addPairs_eq_ok]

/-- To set a field to the value that it has changes nothing. -/
theorem insertKey_of_field? {entries : List (Value × Value)} {name : String} {v : Value}
    (h : (Value.map entries).field? name = some v) : insertKey (.str name) v entries = entries := by
  induction entries with
  | nil => cases h
  | cons e es ih =>
    rw [field?, List.find?_cons] at h
    rw [insertKey, insertBy]
    cases hsame : sameKey e.1 (.str name) with
    | true =>
      rw [hsame] at h
      obtain rfl : e.2 = v := Option.some.inj h
      rfl
    | false =>
      rw [hsame] at h
      exact congrArg (e :: ·) (ih h)

/-- In settings that can be read, the extractor section is a map. -/
theorem map_of_read {entries : List (Value × Value)} {v : Value} {s : Settings}
    (hv : (Value.map entries).field? "extractor" = some v)
    (h : Settings.read (.map entries) = .ok s) : ∃ es, v = .map es := by
  obtain ⟨_, -, -, ⟨w, hw, hread⟩ | ⟨hnone, -⟩, -⟩ := Settings.read_eq_ok.mp h
  · obtain rfl : w = v := Option.some.inj (hw.symm.trans hv)
    obtain ⟨es, hes, -⟩ := Settings.readSection_eq_ok.mp hread
    exact ⟨es, hes⟩
  · cases hnone.symm.trans hv

section Run

variable {files : String → File} {timestamp : String} {r : RunRequest}
  {entries own : List (Value × Value)} {v : Value}

/-- The command goes on with a value of settings: it reports that they are no good, or runs with
them. -/
def goOn (files : String → File) (timestamp : String) (r : RunRequest) (v : Value) : Reply :=
  match Settings.read v with
  | .error e => ⟨[], .failed ("Error: " ++ e.message), none⟩
  | .ok s => extract files timestamp r s

/-- The command treats the entries of its config file as settings are treated elsewhere: it runs
with what is read of them, or ends with a message and makes no other settings of them. -/
structure Follows (files : String → File) (timestamp : String) (r : RunRequest)
    (entries : List (Value × Value)) : Prop where
  accepts : ∀ s, Settings.read (.map entries) = .ok s →
    executeRun files timestamp r = extract files timestamp r s
  refuses : ∀ e, Settings.read (.map entries) = .error e →
    ∃ message, executeRun files timestamp r = ⟨[], .failed ("Error: " ++ message), none⟩
  onlyThese : ∀ w s, requested r entries = .ok w → Settings.read w = .ok s →
    Settings.read (.map entries) = .ok s

theorem requested_of_section (hv : (Value.map entries).field? "extractor" = some v)
    (hrelative : r.relative = none) (hcase : r.ignoreCase = none) : requested r entries =
      (sectionEntries v).map fun own => .map (insertKey (.str "extractor") (.map own) entries) := by
  rw [requested, hv, hrelative, hcase, Option.getD_some]
  cases sectionEntries v <;> rfl

theorem executeRun_of_requested (hfile : configEntries files r.config = .ok entries) :
    executeRun files timestamp r = match requested r entries with
      | .error e => ⟨[], .crashed (.entries e), none⟩
      | .ok w => goOn files timestamp r w := by
  rw [executeRun, hfile]
  rfl

/-- A section that is a map is treated as settings are elsewhere. -/
theorem follows_of_map {es : List (Value × Value)}
    (hfile : configEntries files r.config = .ok entries)
    (hv : (Value.map entries).field? "extractor" = some (.map es)) (hrelative : r.relative = none)
    (hcase : r.ignoreCase = none) : Follows files timestamp r entries := by
  have hrequested : requested r entries = .ok (.map entries) := by
    rw [requested_of_section hv hrelative hcase, sectionEntries_map, Except.map,
      insertKey_of_field? hv]
  have hrun : executeRun files timestamp r = goOn files timestamp r (.map entries) := by
    rw [executeRun_of_requested hfile, hrequested]
  constructor
  · intro s hs
    rw [hrun, goOn, hs]
  · intro e he
    exact ⟨e.message, by rw [hrun, goOn, he]⟩
  · intro w s hw hs
    obtain rfl := Except.ok.inj (hrequested.symm.trans hw)
    exact hs

/-- Entries with a section that is no map are no settings. -/
theorem read_ne_ok (hv : (Value.map entries).field? "extractor" = some v)
    (hmap : ∀ es, v ≠ .map es) (s : Settings) : Settings.read (.map entries) ≠ .ok s := by
  intro h
  obtain ⟨es, hes⟩ := map_of_read hv h
  exact hmap es hes

/-- A section that is no map is reported elsewhere; a command that crashes on it does otherwise. -/
theorem not_follows_of_crash {e : EntriesFault}
    (hv : (Value.map entries).field? "extractor" = some v)
    (hmap : ∀ es, v ≠ .map es)
    (hrun : executeRun files timestamp r = ⟨[], .crashed (.entries e), none⟩) :
    ¬Follows files timestamp r entries := by
  intro h
  cases hread : Settings.read (.map entries) with
  | ok s => exact read_ne_ok hv hmap s hread
  | error fault =>
    obtain ⟨message, hmessage⟩ := h.refuses fault hread
    cases hrun.symm.trans hmessage

/-- Nor is such a section accepted elsewhere. -/
theorem not_follows_of_accepted {w : Value} {s : Settings}
    (hv : (Value.map entries).field? "extractor" = some v) (hmap : ∀ es, v ≠ .map es)
    (hw : requested r entries = .ok w) (hs : Settings.read w = .ok s) :
    ¬Follows files timestamp r entries :=
  fun h => read_ne_ok hv hmap s (h.onlyThese w s hw hs)

/-- Entries with a section that counts as true are treated as settings are if the section is a map,
or a row of pairs of which no good settings come. What is no map is no good as a section; but the
command runs with a row of pairs as with a map, and anything else is its end without a message. -/
theorem follows_iff (hfile : configEntries files r.config = .ok entries)
    (hv : (Value.map entries).field? "extractor" = some v) (htrue : v.isTruthy)
    (hrelative : r.relative = none) (hcase : r.ignoreCase = none) :
    (Follows files timestamp r entries ↔ (∃ es, v = .map es) ∨ ∃ own, MadeOfPairs v own ∧
      ∀ s, Settings.read (.map (insertKey (.str "extractor") (.map own) entries)) ≠ .ok s) ∧
    ((∀ es, v ≠ .map es) →
      (∀ s, Settings.read (.map entries) ≠ .ok s) ∧
      (∀ own s, MadeOfPairs v own →
        Settings.read (.map (insertKey (.str "extractor") (.map own) entries)) = .ok s →
        executeRun files timestamp r = extract files timestamp r s) ∧
      ((∀ own, ¬MadeOfPairs v own) →
        ∃ e, executeRun files timestamp r = ⟨[], .crashed (.entries e), none⟩)) := by
  have hsection := requested_of_section hv hrelative hcase
  have hpairs {own : List (Value × Value)} (hmap : ∀ es, v ≠ .map es) (hown : MadeOfPairs v own) :
      requested r entries = .ok (.map (insertKey (.str "extractor") (.map own) entries)) := by
    rw [hsection, (sectionEntries_eq_ok htrue hmap).mpr hown]
    rfl
  have hcrash (hmap : ∀ es, v ≠ .map es) (hnone : ∀ own, ¬MadeOfPairs v own) :
      ∃ e, executeRun files timestamp r = ⟨[], .crashed (.entries e), none⟩ := by
    cases hown : sectionEntries v with
    | ok own => exact absurd ((sectionEntries_eq_ok htrue hmap).mp hown) (hnone own)
    | error e =>
      refine ⟨e, ?_⟩
      rw [executeRun_of_requested hfile, hsection, hown]
      rfl
  refine ⟨⟨fun h => ?_, ?_⟩, fun hmap => ⟨read_ne_ok hv hmap, fun own s hown hs => ?_,
    hcrash hmap⟩⟩
  · by_contra hneither
    rw [not_or, not_exists, not_exists] at hneither
    obtain ⟨hmap, hrefused⟩ := hneither
    by_cases hown : ∃ own, MadeOfPairs v own
    · obtain ⟨own, hown⟩ := hown
      exact hrefused own ⟨hown, fun s hs =>
        not_follows_of_accepted hv hmap (hpairs hmap hown) hs h⟩
    · obtain ⟨e, he⟩ := hcrash hmap (not_exists.mp hown)
      exact not_follows_of_crash hv hmap he h
  · rintro (⟨es, rfl⟩ | ⟨own, hown, hrefused⟩)
    · exact follows_of_map hfile hv hrelative hcase
    · by_cases hmap : ∃ es, v = .map es
      · obtain ⟨es, rfl⟩ := hmap
        exact follows_of_map hfile hv hrelative hcase
      · have hmap := not_exists.mp hmap
        have hw := hpairs hmap hown
        refine ⟨fun s hs => absurd hs (read_ne_ok hv hmap s), fun _ _ => ?_, fun w s hw' hs => ?_⟩
        · rw [executeRun_of_requested hfile, hw]
          dsimp only [goOn]
          split
          next e _ => exact ⟨e.message, rfl⟩
          next s hs => exact absurd hs (hrefused s)
        · obtain rfl := Except.ok.inj (hw.symm.trans hw')
          exact absurd hs (hrefused s)
  · rw [executeRun_of_requested hfile, hpairs hmap hown]
    dsimp only [goOn]
    rw [hs]

end Run

def Sample.directory (config path : String) : File :=
  if path = "c.yaml" then .bytes config.toUTF8.toList
  else if path = "d.json" then .bytes "[\x7b\"K\": 1, \"k\": [2]\x7d, 3]".toUTF8.toList
  else .missing

def Sample.request : RunRequest where
  documents := "d.json"
  output := none
  paths := ["(k)"]
  config := some "c.yaml"
  format := none
  relative := none
  ignoreCase := none
  stepOut := 0

/-- The only entry is a section, and this holds of it. -/
def Sample.hasSection (p : Value → Bool) :
    Except Settings.FileFault (List (Value × Value)) → Bool
  | .ok [(.str name, v)] => name = "extractor" && p v
  | _ => false

theorem Sample.section_of_hasSection {p : Value → Bool}
    {x : Except Settings.FileFault (List (Value × Value))} (h : Sample.hasSection p x) :
    ∃ v, p v ∧ x = .ok [(.str "extractor", v)] := by
  unfold Sample.hasSection at h
  split at h
  next name v =>
    obtain ⟨hname, hv⟩ := Bool.and_eq_true_iff.mp h
    obtain rfl := of_decide_eq_true hname
    exact ⟨v, hv, rfl⟩
  next => cases h

def Sample.isSwitch : Value → Bool
  | .map [(.str name, .bool b)] => name = "match_relative_paths" && b
  | _ => false

def Sample.isPair : Value → Bool
  | .list [.list [.str name, .bool b]] => name = "match_relative_paths" && b
  | _ => false

def Sample.isWord : Value → Bool
  | .str s => s = "ab"
  | _ => false

theorem follows_iff_sample : ∃ entries,
    (configEntries (Sample.directory "extractor: \x7bmatch_relative_paths: true\x7d")
        Sample.request.config = .ok entries ∧
      (Value.map entries).field? "extractor" =
        some (.map [(.str "match_relative_paths", .bool true)]) ∧
      Sample.request.relative = none ∧ Sample.request.ignoreCase = none) ∧
    Follows (Sample.directory "extractor: \x7bmatch_relative_paths: true\x7d") "now" Sample.request
      entries := by
  have hsection : Sample.hasSection Sample.isSwitch
      (configEntries (Sample.directory "extractor: \x7bmatch_relative_paths: true\x7d")
        Sample.request.config) := by decide +kernel
  obtain ⟨v, hv, hentries⟩ := Sample.section_of_hasSection hsection
  unfold Sample.isSwitch at hv
  split at hv
  next name b =>
    obtain ⟨hname, rfl⟩ := Bool.and_eq_true_iff.mp hv
    obtain rfl := of_decide_eq_true hname
    exact ⟨_, ⟨hentries, rfl, rfl, rfl⟩,
      (follows_iff hentries rfl rfl rfl rfl).1.mpr (.inl ⟨_, rfl⟩)⟩
  next => cases hv

/-- A word for a section is the end without a message, and with one pair for a section the command
runs. -/
theorem not_follows :
    (∃ entries,
      configEntries (Sample.directory "extractor: ab") Sample.request.config = .ok entries ∧
      (Value.map entries).field? "extractor" = some (.str "ab") ∧
      executeRun (Sample.directory "extractor: ab") "now" Sample.request =
        ⟨[], .crashed (.entries (.itemLength 0 1)), none⟩ ∧
      ¬Follows (Sample.directory "extractor: ab") "now" Sample.request entries) ∧
    ∃ entries, configEntries (Sample.directory "extractor: [[match_relative_paths, true]]")
        Sample.request.config = .ok entries ∧
      (Value.map entries).field? "extractor" =
        some (.list [.list [.str "match_relative_paths", .bool true]]) ∧
      ¬Follows (Sample.directory "extractor: [[match_relative_paths, true]]") "now" Sample.request
        entries := by
  constructor
  · have hsection : Sample.hasSection Sample.isWord
        (configEntries (Sample.directory "extractor: ab") Sample.request.config) := by
      decide +kernel
    obtain ⟨v, hv, hentries⟩ := Sample.section_of_hasSection hsection
    unfold Sample.isWord at hv
    split at hv
    next word =>
      obtain rfl := of_decide_eq_true hv
      have hrun : executeRun (Sample.directory "extractor: ab") "now" Sample.request =
          ⟨[], .crashed (.entries (.itemLength 0 1)), none⟩ := by
        rw [executeRun_of_requested hentries]
        rfl
      exact ⟨_, hentries, rfl, hrun, not_follows_of_crash rfl nofun hrun⟩
    next => cases hv
  · have hsection : Sample.hasSection Sample.isPair
        (configEntries (Sample.directory "extractor: [[match_relative_paths, true]]")
          Sample.request.config) := by
      decide +kernel
    obtain ⟨v, hv, hentries⟩ := Sample.section_of_hasSection hsection
    unfold Sample.isPair at hv
    split at hv
    next name b =>
      obtain ⟨hname, rfl⟩ := Bool.and_eq_true_iff.mp hv
      obtain rfl := of_decide_eq_true hname
      exact ⟨_, hentries, rfl, not_follows_of_accepted rfl nofun rfl rfl⟩
    next => cases hv

end TreePaths.Command
