import Mathlib.Data.List.Forall2
import Mathlib.Data.List.Induction
import Mathlib.Data.List.ReduceOption
import TreePaths.Extraction.Workshop
import TreePaths.Proofs.Outcome

/-!
Histories of a builder: what it holds after any calls, and what became of the extractors that were
built on the way. An extractor has a row of its own, and the builder never adds to that one.
-/

namespace TreePaths

namespace PathArgument

def Yields : PathArgument → List PathItem → Prop
  | items is, js => is = js
  | value (.str _), _ => False
  | value v, js => ∃ vs, v.items? = some vs ∧ vs.map .other = js

inductive Anchors : Value → List String → Prop
  | none : Anchors .null []
  | texts {v : Value} {as : List String} :
      (∀ s, v ≠ .str s) → v.items? = some (as.map .str) → Anchors v as

inductive Fits : PathArgument → Value → SearchPath → Prop
  | text {text : String} {path : SearchPath} :
      SearchPath.parse text = .ok path → Fits (value (.str text)) .null path
  | components {p : PathArgument} {annotations : Value} {cs : List Component} {as : List String} :
      p.Yields (cs.map .component) → Anchors annotations as → Fits p annotations ⟨as, cs⟩

theorem checkAnnotations_eq_ok {vs : List Value} {as : List String} :
    checkAnnotations vs = .ok as ↔ vs = as.map .str := by
  refine mapM_eq_ok fun v s => ?_
  cases v <;> simp

theorem checkComponents_eq_ok {is : List PathItem} {cs : List Component} :
    checkComponents is = .ok cs ↔ is = cs.map .component := by
  refine mapM_eq_ok fun i c => ?_
  cases i <;> simp

theorem itemsOf_eq_ok {v : Value} {vs : List Value} :
    itemsOf v = .ok vs ↔ v.items? = some vs := by
  rw [itemsOf]
  split <;> simp_all

/-- Annotations beside components are null, for none, or a row of texts that is no text itself. -/
theorem anchor_eq_ok {v : Value} {as : List String} : anchor v = .ok as ↔ Anchors v as := by
  by_cases hnull : v = .null
  · subst hnull
    constructor
    · rintro ⟨⟩
      exact .none
    · rintro (_ | ⟨-, ⟨⟩⟩)
      rfl
  by_cases htext : ∃ s, v = .str s
  · obtain ⟨s, rfl⟩ := htext
    constructor
    · rintro ⟨⟩
    · rintro (_ | ⟨hv, -⟩)
      exact absurd rfl (hv s)
  have hread : anchor v = .ok as ↔ itemsOf v >>= checkAnnotations = .ok as := by
    rw [anchor, annotationsOf]
    · split <;> simp_all
    all_goals grind
  rw [hread, bind_eq_ok]
  simp only [itemsOf_eq_ok, checkAnnotations_eq_ok]
  constructor
  · rintro ⟨_, hitems, rfl⟩
    exact .texts (fun s hs => htext ⟨s, hs⟩) hitems
  · rintro (_ | ⟨-, hitems⟩)
    · exact absurd rfl hnull
    · exact ⟨_, hitems, rfl⟩

theorem yields_iff {p : PathArgument} (h : ∀ s, p ≠ value (.str s)) {is : List PathItem} :
    p.Yields is ↔ p.toItems = .ok is := by
  cases p with
  | items js => simp [Yields, toItems]
  | value v =>
    rw [toItems, map_eq_ok]
    simp only [itemsOf_eq_ok]
    unfold Yields
    grind

/-- An argument and annotations stand for a path exactly if they fit together. -/
theorem resolve_eq_ok {p : PathArgument} {annotations : Value} {path : SearchPath} :
    p.resolve annotations = .ok path ↔ p.Fits annotations path := by
  by_cases htext : ∃ s, p = value (.str s)
  · obtain ⟨s, rfl⟩ := htext
    by_cases hnull : annotations = .null
    · subst hnull
      rw [resolve, mapError_eq_ok]
      constructor
      · exact .text
      · rintro (h | ⟨⟨⟩, -⟩)
        exact h
    · rw [resolve]
      · constructor
        · rintro ⟨⟩
        · rintro (_ | ⟨⟨⟩, -⟩)
          exact absurd rfl hnull
      · exact hnull
  · have hp (s : String) : p ≠ value (.str s) := fun h => htext ⟨s, h⟩
    rw [resolve, bind_eq_ok]
    · simp only [mapError_eq_ok, bind_eq_ok, SearchPath.ofItems, map_eq_ok, anchor_eq_ok,
        ← yields_iff hp, checkComponents_eq_ok]
      constructor
      · rintro ⟨as, has, _, hitems, cs, rfl, rfl⟩
        exact .components hitems has
      · rintro (_ | ⟨hitems, has⟩)
        · exact absurd rfl (hp _)
        · exact ⟨_, has, _, hitems, _, rfl, rfl⟩
    all_goals grind

end PathArgument

variable {σ ε : Type}

namespace BuilderCall

inductive Makes : BuilderCall σ ε → Registration σ ε → Prop
  | register {p : PathArgument} {callback : Action σ ε Value} {annotations : Value}
      {path : SearchPath} :
      p ≠ .value .null → p.Fits annotations path →
        Makes (register p (some callback) annotations) ⟨path, callback⟩

/-- The call can be done: all can but registrations that do not fit. -/
def IsDone : BuilderCall σ ε → Prop
  | register p callback annotations =>
    p ≠ .value .null ∧ callback.isSome ∧ ∃ path, p.Fits annotations path
  | _ => True

def relative? : BuilderCall σ ε → Option Bool
  | relative on => some on.isTruthy
  | _ => none

def ignoreCase? : BuilderCall σ ε → Option Bool
  | ignoreCase on => some on.isTruthy
  | _ => none

def isBuild : BuilderCall σ ε → Bool
  | build => true
  | _ => false

end BuilderCall

/-- A call makes one registration at most. -/
theorem BuilderCall.Makes.unique {c : BuilderCall σ ε} {r r' : Registration σ ε} (h : c.Makes r)
    (h' : c.Makes r') : r = r' := by
  obtain ⟨_, hfits⟩ := h
  obtain ⟨_, hfits'⟩ := h'
  rw [← PathArgument.resolve_eq_ok] at hfits hfits'
  rw [hfits] at hfits'
  cases hfits'
  rfl

namespace Workshop

variable {w : Workshop σ ε} {r : Registration σ ε} {f : Options → Options}

/-- The rows that are held are there, and no extractor has the row of the builder. -/
structure Sound (w : Workshop σ ε) : Prop where
  builder : w.builder.row < w.rows.length
  built : ∀ h ∈ w.built, h.row < w.rows.length
  apart : ∀ h ∈ w.built, h.row ≠ w.builder.row

theorem sound_opened : Sound (opened : Workshop σ ε) := by
  constructor <;> simp [opened]

def adjusted (w : Workshop σ ε) (f : Options → Options) : Workshop σ ε :=
  { w with builder := { w.builder with options := f w.builder.options } }

def added (w : Workshop σ ε) (r : Registration σ ε) : Workshop σ ε :=
  { w with rows := w.rows.modify w.builder.row (· ++ [r]) }

def extended (w : Workshop σ ε) : Workshop σ ε :=
  { w with
    rows := w.rows ++ [w.row w.builder.row]
    built := w.built ++ [⟨w.rows.length, w.builder.options⟩] }

theorem Sound.adjusted (h : w.Sound) : (w.adjusted f).Sound :=
  ⟨h.builder, h.built, h.apart⟩

theorem Sound.added (h : w.Sound) : (w.added r).Sound := by
  constructor
  · simpa [Workshop.added] using h.builder
  · simpa [Workshop.added] using h.built
  · exact h.apart

theorem Sound.extended (h : w.Sound) : w.extended.Sound := by
  have hrow := h.builder
  constructor
  · simp only [Workshop.extended, List.length_append]
    omega
  · simp only [Workshop.extended, List.mem_append, List.mem_singleton, List.length_append]
    rintro g (hg | rfl)
    · have := h.built g hg
      omega
    · simp
  · simp only [Workshop.extended, List.mem_append, List.mem_singleton]
    rintro g (hg | rfl)
    · exact h.apart g hg
    · simp only
      omega

theorem held_added (h : w.Sound) :
    (w.added r).held = { w.held with registrations := w.held.registrations ++ [r] } := by
  have hrow := h.builder
  simp [held, added, row, hrow]

theorem held_extended (h : w.Sound) : w.extended.held = w.held := by
  have hrow := h.builder
  simp [held, extended, row, List.getElem?_append_left hrow]

/-- What is added to the row of the builder stays out of the extractors. -/
theorem extractors_added (h : w.Sound) : (w.added r).extractors = w.extractors := by
  refine List.map_congr_left fun g hg => ?_
  have hne := h.apart g hg
  simp [added, row, Ne.symm hne]

theorem extractors_extended (h : w.Sound) :
    w.extended.extractors = w.extractors ++ [w.held.build] := by
  have hold : w.built.map (fun g => (⟨w.extended.row g.row, g.options⟩ : Extractor σ ε)) =
      w.extractors := by
    refine List.map_congr_left fun g hg => ?_
    have hlt := h.built g hg
    simp [extended, row, List.getElem?_append_left hlt]
  rw [extractors, extended, List.map_append, ← extended, hold]
  simp [extended, row, held, Builder.build]

end Workshop

namespace Building

open Workshop

variable {w : Workshop σ ε}

theorem exec_makes {c : BuilderCall σ ε} {r : Registration σ ε} (h : c.Makes r) :
    exec c w = (.ok (), w.added r) := by
  obtain ⟨hnull, hfits⟩ := h
  rw [← PathArgument.resolve_eq_ok] at hfits
  rw [exec, perform, hfits]
  · rfl
  · exact hnull

section register

variable {p : PathArgument} {callback : Option (Action σ ε Value)} {annotations : Value}

/-- A registration can be done exactly if it makes one. -/
theorem isDone_iff_makes :
    (BuilderCall.register p callback annotations).IsDone ↔
      ∃ r, (BuilderCall.register p callback annotations).Makes r := by
  constructor
  · rintro ⟨hnull, hcallback, path, hfits⟩
    obtain ⟨callback, rfl⟩ := Option.isSome_iff_exists.mp hcallback
    exact ⟨_, .register hnull hfits⟩
  · rintro ⟨_, hnull, hfits⟩
    exact ⟨hnull, rfl, _, hfits⟩

/-- What is refused leaves no trace. -/
theorem exec_refused (h : ¬ (BuilderCall.register p callback annotations).IsDone) :
    ∃ e, exec (.register p callback annotations) w = (.error e, w) := by
  by_cases hnull : p = .value .null
  · exact ⟨.refused .noPath, by rw [hnull]; rfl⟩
  cases callback with
  | none =>
    refine ⟨.refused .noCallback, ?_⟩
    rw [exec, perform]
    · rfl
    · exact hnull
  | some callback =>
    cases hfits : p.resolve annotations with
    | ok path => exact absurd ⟨hnull, rfl, path, PathArgument.resolve_eq_ok.mp hfits⟩ h
    | error e =>
      refine ⟨e, ?_⟩
      rw [exec, perform, hfits]
      · rfl
      · exact hnull

/-- The builder of a workshop takes a registration as a builder by itself does. -/
theorem exec_register (h : w.Sound) :
    (exec (.register p callback annotations) w).1 =
        (w.held.register p callback annotations).map (fun _ => ()) ∧
      ∀ b, w.held.register p callback annotations = .ok b →
        (exec (.register p callback annotations) w).2.held = b := by
  by_cases hnull : p = .value .null
  · subst hnull
    exact ⟨rfl, nofun⟩
  cases callback with
  | none =>
    rw [exec, perform, Builder.register]
    · exact ⟨rfl, nofun⟩
    all_goals exact hnull
  | some callback =>
    rw [Builder.register]
    · cases hfits : p.resolve annotations with
      | ok path =>
        rw [exec_makes (.register hnull (PathArgument.resolve_eq_ok.mp hfits)), held_added h]
        exact ⟨rfl, fun b hb => by cases hb; rfl⟩
      | error e =>
        rw [exec, perform, hfits]
        · exact ⟨rfl, nofun⟩
        · exact hnull
    · exact hnull

end register

structure Step (c : BuilderCall σ ε) (made : Option (Registration σ ε)) (w w' : Workshop σ ε) :
    Prop where
  sound : w'.Sound
  registrations : w'.held.registrations = w.held.registrations ++ made.toList
  options : w'.held.options =
    ⟨c.relative?.getD w.held.options.relative, c.ignoreCase?.getD w.held.options.ignoreCase⟩
  extractors : w'.extractors = w.extractors ++ if c.isBuild then [w.held.build] else []

/-- Every call is one step as it is seen from outside, and says what registration it makes. -/
theorem step (h : w.Sound) (c : BuilderCall σ ε) :
    ∃ made, (∀ r, made = some r ↔ c.Makes r) ∧ Step c made w (exec c w).2 := by
  cases c with
  | relative on =>
    refine ⟨none, fun r => ⟨nofun, nofun⟩, ?_⟩
    have hexec : (exec (.relative on) w).2 = w.adjusted ({ · with relative := on.isTruthy }) := rfl
    rw [hexec]
    constructor
    · exact h.adjusted
    · simp [held, adjusted, row]
    · simp [held, adjusted, BuilderCall.relative?, BuilderCall.ignoreCase?]
    · simp [extractors, adjusted, row, BuilderCall.isBuild]
  | ignoreCase on =>
    refine ⟨none, fun r => ⟨nofun, nofun⟩, ?_⟩
    have hexec : (exec (.ignoreCase on) w).2 = w.adjusted ({ · with ignoreCase := on.isTruthy }) :=
      rfl
    rw [hexec]
    constructor
    · exact h.adjusted
    · simp [held, adjusted, row]
    · simp [held, adjusted, BuilderCall.relative?, BuilderCall.ignoreCase?]
    · simp [extractors, adjusted, row, BuilderCall.isBuild]
  | register p callback annotations =>
    by_cases hdone : (BuilderCall.register p callback annotations).IsDone
    · obtain ⟨r, hr⟩ := isDone_iff_makes.mp hdone
      refine ⟨some r, fun r' => ⟨fun hr' => ?_, fun hr' => congrArg some (hr.unique hr')⟩, ?_⟩
      · cases hr'
        exact hr
      rw [exec_makes hr]
      constructor
      · exact h.added
      · simp [held_added h]
      · simp [held_added h, BuilderCall.relative?, BuilderCall.ignoreCase?]
      · simp [extractors_added h, BuilderCall.isBuild]
    · refine ⟨none, fun r => ⟨nofun, fun hr => absurd (isDone_iff_makes.mpr ⟨r, hr⟩) hdone⟩, ?_⟩
      obtain ⟨e, he⟩ := exec_refused (w := w) hdone
      rw [he]
      constructor
      · exact h
      · simp
      · simp [BuilderCall.relative?, BuilderCall.ignoreCase?]
      · simp [BuilderCall.isBuild]
  | build =>
    refine ⟨none, fun r => ⟨nofun, nofun⟩, ?_⟩
    have hexec : (exec .build w).2 = w.extended := rfl
    rw [hexec]
    constructor
    · exact h.extended
    · simp [held_extended h]
    · simp [held_extended h, BuilderCall.relative?, BuilderCall.ignoreCase?]
    · simp [extractors_extended h, BuilderCall.isBuild]

theorem exec_eq_ok_iff (c : BuilderCall σ ε) (w : Workshop σ ε) :
    (exec c w).1 = .ok () ↔ c.IsDone := by
  cases c with
  | register p callback annotations =>
    by_cases hdone : (BuilderCall.register p callback annotations).IsDone
    · obtain ⟨r, hr⟩ := isDone_iff_makes.mp hdone
      simp [exec_makes hr, hdone]
    · obtain ⟨e, he⟩ := exec_refused (w := w) hdone
      simp [he, hdone]
  | _ => exact ⟨fun _ => trivial, fun _ => rfl⟩

theorem exec_of_error {c : BuilderCall σ ε} {e : BuildError} (h : (exec c w).1 = .error e) :
    (exec c w).2 = w := by
  cases c with
  | register p callback annotations =>
    by_cases hdone : (BuilderCall.register p callback annotations).IsDone
    · rw [(exec_eq_ok_iff _ w).mpr hdone] at h
      cases h
    · obtain ⟨e, he⟩ := exec_refused (w := w) hdone
      rw [he]
  | _ => cases h

end Building

namespace Workshop

open Building

structure History (calls : List (BuilderCall σ ε)) (w : Workshop σ ε) : Prop where
  sound : w.Sound
  registrations : ∃ made, List.Forall₂ (fun c o => ∀ r, o = some r ↔ c.Makes r) calls made ∧
    w.held.registrations = made.reduceOption
  relative : w.held.options.relative = (calls.filterMap (·.relative?)).getLastD false
  ignoreCase : w.held.options.ignoreCase = (calls.filterMap (·.ignoreCase?)).getLastD false
  count : w.extractors.length = calls.countP (·.isBuild)
  built : ∀ front back, calls = front ++ .build :: back →
    w.extractors[front.countP (·.isBuild)]? = some (opened.after front).held.build

theorem after_concat (w : Workshop σ ε) (calls : List (BuilderCall σ ε)) (c : BuilderCall σ ε) :
    w.after (calls ++ [c]) = (exec c (w.after calls)).2 := by
  simp [after]

theorem history_nil : History ([] : List (BuilderCall σ ε)) opened where
  sound := sound_opened
  registrations := ⟨[], .nil, rfl⟩
  relative := rfl
  ignoreCase := rfl
  count := rfl
  built := by simp

theorem History.concat {calls : List (BuilderCall σ ε)} (h : History calls (opened.after calls))
    (c : BuilderCall σ ε) : History (calls ++ [c]) (opened.after (calls ++ [c])) := by
  obtain ⟨o, ho, hstep⟩ := step h.sound c
  rw [after_concat]
  constructor
  · exact hstep.sound
  · obtain ⟨made, hmade, hregs⟩ := h.registrations
    refine ⟨made ++ [o], List.rel_append hmade (.cons ho .nil), ?_⟩
    rw [hstep.registrations, hregs, List.reduceOption_append]
    cases o <;> rfl
  · rw [hstep.options, h.relative]
    cases hc : c.relative? <;> simp [hc]
  · rw [hstep.options, h.ignoreCase]
    cases hc : c.ignoreCase? <;> simp [hc]
  · rw [hstep.extractors, List.length_append, h.count, List.countP_append]
    cases c <;> rfl
  · intro front back hcalls
    rw [hstep.extractors]
    rcases List.eq_nil_or_concat back with rfl | ⟨back, d, rfl⟩
    · obtain ⟨rfl, hc⟩ := List.append_inj' hcalls rfl
      cases hc
      rw [← h.count]
      simp [BuilderCall.isBuild]
    · have hback : calls ++ [c] = (front ++ .build :: back) ++ [d] := by simpa using hcalls
      have hold := h.built front back (List.append_inj' hback rfl).1
      rw [List.getElem?_append_left (List.getElem?_eq_some_iff.mp hold).1, hold]

theorem history_after (calls : List (BuilderCall σ ε)) : History calls (opened.after calls) := by
  induction calls using List.reverseRecOn with
  | nil => exact history_nil
  | append_singleton calls c ih => exact ih.concat c

/-- After any calls of a builder, it holds the paths of the registrations that were made, in their
order, and the last values of the two options; each extractor still is what the builder held when
it was built. The next call fails only if it is a registration that does not fit, and then nothing
has changed. -/
theorem after_calls (calls : List (BuilderCall σ ε)) :
    History calls (opened.after calls) ∧
      ∀ c, ((exec c (opened.after calls)).1 = .ok () ↔ c.IsDone) ∧
        ∀ e, (exec c (opened.after calls)).1 = .error e →
          opened.after (calls ++ [c]) = opened.after calls := by
  refine ⟨history_after calls, fun c => ⟨exec_eq_ok_iff c _, fun e h => ?_⟩⟩
  rw [after_concat, exec_of_error h]

end Workshop

end TreePaths
