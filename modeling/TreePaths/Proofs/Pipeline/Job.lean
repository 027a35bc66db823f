import TreePaths.Pipeline.Job
import TreePaths.Proofs.Pipeline.Location

/-!
What calls of a pipeline leave behind in their output file: the whole report if they succeed, and
what was there before if they fail, at whatever stage.
-/

namespace TreePaths

open TreePaths.Effect

theorem Desk.put_put (d : Desk) (path : String) (f g : File) :
    (d.put path f).put path g = d.put path g := by
  unfold Desk.put
  congr 1
  funext p
  by_cases h : p = path <;> simp [h]

namespace Job

variable {δ ε ε' α β : Type}

theorem exec_log (notices : List Notice) (d : Desk) :
    (log notices : Job δ ε Unit).exec d = (.ok (), { d with notices := d.notices ++ notices }) :=
  rfl

theorem exec_put (path : String) (file : File) (d : Desk) :
    (put path file : Job δ ε Unit).exec d = (.ok (), d.put path file) :=
  rfl

theorem exec_ofExcept (f : ε' → JobError δ ε) (r : Except ε' α) (d : Desk) :
    (ofExcept f r).exec d = (r.mapError f, d) := by
  cases r <;> rfl

theorem exec_ofExcept_eq_ok {g : ε' → JobError δ ε} {r : Except ε' α} {a : α} {d d' : Desk} :
    (ofExcept g r).exec d = (.ok a, d') ↔ r = .ok a ∧ d' = d := by
  rw [exec_ofExcept, Prod.mk.injEq, mapError_eq_ok, eq_comm (a := d)]

/-- Whatever becomes of the job, the file at a path is as before. -/
def Keeps (path : String) (x : Job δ ε α) : Prop :=
  ∀ d, (x.exec d).2.files path = d.files path

def KeepsOnError (path : String) (x : Job δ ε α) : Prop :=
  ∀ d e, (x.exec d).1 = .error e → (x.exec d).2.files path = d.files path

namespace Keeps

variable {path : String}

theorem pure (a : α) : Keeps path (pure a : Job δ ε α) :=
  fun _ => rfl

theorem throw (e : JobError δ ε) : Keeps path (throw e : Job δ ε α) :=
  fun _ => rfl

theorem get : Keeps path (get : Job δ ε Desk) :=
  fun _ => rfl

theorem log (notices : List Notice) : Keeps path (log notices : Job δ ε Unit) :=
  fun _ => rfl

theorem ofExcept (f : ε' → JobError δ ε) (r : Except ε' α) : Keeps path (ofExcept f r) := by
  intro d
  rw [exec_ofExcept]

theorem put {other : String} (h : path ≠ other) (file : File) :
    Keeps path (put other file : Job δ ε Unit) :=
  fun _ => if_neg h

theorem bind {x : Job δ ε α} {f : α → Job δ ε β} (hx : Keeps path x) (hf : ∀ a, Keeps path (f a)) :
    Keeps path (x >>= f) := by
  intro d
  have hd := hx d
  rw [exec_bind]
  generalize x.exec d = result at hd
  obtain ⟨e | a, d'⟩ := result
  · exact hd
  · exact (hf a d').trans hd

end Keeps

/-- A job that fails last of all has changed nothing, if nothing was changed before. -/
theorem KeepsOnError.bind {path : String} {x : Job δ ε α} {f : α → Job δ ε β} (hx : Keeps path x)
    (hf : ∀ a, KeepsOnError path (f a)) : KeepsOnError path (x >>= f) := by
  intro d e
  have hd := hx d
  rw [exec_bind]
  generalize x.exec d = result at hd
  obtain ⟨_ | a, d'⟩ := result
  · exact fun _ => hd
  · exact fun h => (hf a d' e h).trans hd

theorem KeepsOnError.bind_pure {path : String} {x : Job δ ε α} {f : α → β}
    (hx : KeepsOnError path x) : KeepsOnError path (x >>= fun a => pure (f a)) := by
  intro d e
  have hd := hx d
  rw [exec_bind]
  generalize x.exec d = result at hd
  obtain ⟨e' | a, d'⟩ := result
  · exact fun _ => hd e' rfl
  · nofun

section Files

variable {path : String}

theorem keeps_makeDirectory {directory : String} (h : path ≠ directory) :
    Keeps path (makeDirectory directory : Job δ ε Unit) := by
  refine .bind .get fun d => ?_
  split
  · exact .put h _
  · exact .pure ()
  · exact .throw _

theorem keeps_makeDirectories {directories : List String} (h : path ∉ directories) :
    Keeps path (makeDirectories directories : Job δ ε Unit) := by
  induction directories with
  | nil => exact .pure ()
  | cons p ps ih =>
    rw [List.mem_cons, not_or] at h
    exact .bind (keeps_makeDirectory h.1) fun _ => ih h.2

/-- Where no file is in the way, directories can be made. -/
theorem exec_makeDirectories {directories : List String} {d : Desk}
    (h : ∀ q ∈ directories, ∀ bs, d.files q ≠ .bytes bs) :
    ∃ d', (makeDirectories directories : Job δ ε Unit).exec d = (.ok (), d') ∧
      d'.notices = d.notices := by
  induction directories generalizing d with
  | nil => exact ⟨d, rfl, rfl⟩
  | cons p ps ih =>
    have hmake : ∃ d₁, (makeDirectory p : Job δ ε Unit).exec d = (.ok (), d₁) ∧
        d₁.notices = d.notices ∧ ∀ q ∈ ps, ∀ bs, d₁.files q ≠ .bytes bs := by
      rw [makeDirectory, exec_bind_ok (exec_get d)]
      cases hp : d.files p with
      | bytes bs => exact absurd hp (h p List.mem_cons_self bs)
      | directory => exact ⟨d, rfl, rfl, fun q hq => h q (List.mem_cons_of_mem _ hq)⟩
      | missing =>
        refine ⟨_, exec_put p .directory d, rfl, fun q hq bs hbs => ?_⟩
        rw [Desk.put] at hbs
        dsimp only at hbs
        split at hbs
        · cases hbs
        · exact h q (List.mem_cons_of_mem _ hq) bs hbs
    obtain ⟨d₁, hone, hnotices, hrest⟩ := hmake
    obtain ⟨d₂, htwo, hsame⟩ := ih hrest
    exact ⟨d₂, by rw [makeDirectories, exec_bind_ok hone, htwo], hsame.trans hnotices⟩

/-- Where there is no directory, a text can be written. -/
theorem exec_writeText {text : String} {d : Desk} (h : d.files path ≠ .directory) :
    (writeText path text : Job δ ε Unit).exec d =
      (.ok (), d.put path (.bytes text.toUTF8.toList)) := by
  have hopen : (openToWrite path : Job δ ε Unit).exec d = (.ok (), d.put path (.bytes [])) := by
    rw [openToWrite, exec_bind_ok (exec_get d)]
    split
    next hdirectory => exact absurd hdirectory h
    next => rfl
  rw [writeText, exec_bind_ok hopen, exec_put, Desk.put_put]

theorem exec_writeText_directory {text : String} {d : Desk} (h : d.files path = .directory) :
    (writeText path text : Job δ ε Unit).exec d = (.error (.place (.directory path)), d) := by
  have hopen : (openToWrite path : Job δ ε Unit).exec d =
      (.error (.place (.directory path)), d) := by
    rw [openToWrite, exec_bind_ok (exec_get d), h]
    rfl
  rw [writeText, exec_bind_error hopen]

theorem keepsOnError_writeText (path text : String) :
    KeepsOnError path (writeText path text : Job δ ε Unit) := by
  intro d e he
  by_cases h : d.files path = .directory
  · rw [exec_writeText_directory h]
  · rw [exec_writeText h] at he
    cases he

theorem length_lt_of_mem_directoriesFrom {front rest : List Char} {p : String}
    (h : p ∈ directoriesFrom front rest) : p.length < front.length + rest.length := by
  induction rest generalizing front with
  | nil => cases h
  | cons c cs ih =>
    rw [directoriesFrom] at h
    have hlater (hp : p ∈ directoriesFrom (c :: front) cs) :
        p.length < front.length + (c :: cs).length := by
      have := ih hp
      simp only [List.length_cons] at this ⊢
      omega
    split at h
    · rcases List.mem_cons.mp h with rfl | hp
      · simp
      · exact hlater hp
    · exact hlater h

/-- No file is a directory around itself. -/
theorem not_mem_directories (path : String) : path ∉ directories path := by
  intro h
  have := length_lt_of_mem_directoriesFrom h
  rw [String.length_toList, List.length_nil, Nat.zero_add] at this
  exact Nat.lt_irrefl _ this

/-- The report is serialised before the file is opened, so that a value that cannot be written
leaves the file alone. -/
theorem keepsOnError_writeReport (path : String) (r : Report) (timestamp : String) :
    KeepsOnError path (writeReport path r timestamp : Job δ ε Unit) :=
  .bind (keeps_makeDirectories (not_mem_directories path)) fun _ =>
    .bind (.ofExcept _ _) fun _ => keepsOnError_writeText path _

/-- Once a report has been written, the file holds its text. -/
theorem files_of_writeReport {r : Report} {timestamp : String} {d d' : Desk}
    (h : (writeReport path r timestamp : Job δ ε Unit).exec d = (.ok (), d')) :
    ∃ text, r.text timestamp = .ok text ∧ d'.files path = .bytes text.toUTF8.toList := by
  rw [writeReport, exec_bind_eq_ok] at h
  obtain ⟨_, d₁, -, h⟩ := h
  rw [exec_bind_eq_ok] at h
  obtain ⟨text, d₂, htext, h⟩ := h
  refine ⟨text, (exec_ofExcept_eq_ok.mp htext).1, ?_⟩
  by_cases hdirectory : d₂.files path = .directory
  · rw [exec_writeText_directory hdirectory] at h
    cases h
  · rw [exec_writeText hdirectory] at h
    obtain rfl := (Prod.mk.inj h).2
    exact if_pos rfl

/-- What becomes of a report where it can be written. -/
theorem exec_writeReport (r : Report) (timestamp : String) {d : Desk}
    (haround : ∀ q ∈ directories path, ∀ bs, d.files q ≠ .bytes bs)
    (hplace : d.files path ≠ .directory) :
    ∃ d', (writeReport path r timestamp : Job δ ε Unit).exec d =
        (((r.text timestamp).map fun _ => ()).mapError .write, d') ∧
      d'.notices = d.notices ∧ d'.files path = match r.text timestamp with
        | .ok text => .bytes text.toUTF8.toList
        | .error _ => d.files path := by
  obtain ⟨d₁, hmake, hnotices⟩ := exec_makeDirectories haround
  have hkeeps : Keeps path (makeDirectories (directories path) : Job δ ε Unit) :=
    keeps_makeDirectories (not_mem_directories path)
  have hkept := hkeeps d
  rw [hmake] at hkept
  rw [writeReport, exec_bind_ok hmake]
  cases r.text timestamp with
  | error e => exact ⟨d₁, rfl, hnotices, hkept⟩
  | ok text =>
    have hplace : d₁.files path ≠ .directory := hkept ▸ hplace
    exact ⟨_, (exec_bind_ok (exec_ofExcept _ _ d₁)).trans (exec_writeText hplace), hnotices,
      if_pos rfl⟩

end Files

/-- A job goes through documents as the extractor does, and logs what is to be logged. -/
theorem exec_collectAll (x : Extractor Collector ε) (n : Nat) (before : Collector)
    (roots : List Value) (d : Desk) :
    (collectAll x n before roots : Job δ ε Collector).exec d =
      ((x.collectAll n before roots).1.mapError .walk,
        { d with notices := d.notices ++ (x.collectAll n before roots).2 }) := by
  induction roots generalizing n before d with
  | nil => simp [collectAll, Extractor.collectAll, exec_pure, Except.mapError]
  | cons root roots ih =>
    have hcollect : (collect x { before with document := n } root : Job δ ε Collector).exec d =
        ((x.collect { before with document := n } root).1.mapError .walk,
          { d with notices :=
            d.notices ++ (x.collect { before with document := n } root).2 }) := by
      rw [collect, exec_bind_ok (exec_log _ d), exec_ofExcept]
    rw [collectAll, Extractor.collectAll]
    rcases h : x.collect { before with document := n } root with ⟨e | after, notices⟩
    · rw [h] at hcollect
      exact exec_bind_error hcollect
    · rw [h] at hcollect
      rw [exec_bind_ok hcollect, ih]
      simp only [List.append_assoc]

end Job

namespace Pipeline

variable {β δ ε : Type} {p : Pipeline β δ ε} {c : PipelineCall} {d d' : Desk} {path : String}

theorem keeps_report (p : Pipeline β δ ε) (c : PipelineCall) (path : String) :
    Job.Keeps path (p.report c) := by
  refine .bind ?_ fun found => .bind ?_ fun _ => .bind (.log _) fun _ => .pure _
  · exact .bind (.ofExcept _ _) fun specs => .bind (.ofExcept _ _) fun x =>
      .bind (.ofExcept _ _) fun f => .bind .get fun d => .bind (.ofExcept _ _) fun roots => .pure _
  · intro d
    rw [Job.exec_collectAll]

theorem prepare_eq_ok {specs : List PathSpec} {x : Extractor Collector ε} {f : Format}
    {roots : List Value} (h : (p.prepare c).exec d = (.ok (specs, x, f, roots), d')) :
    p.specsFor c = .ok specs ∧ p.maker.make specs = .ok x ∧
      Format.choose (p.formatOf c) c.documents = .ok f ∧
      (d.files c.documents).load f = .ok roots ∧ d' = d := by
  simp only [prepare, exec_bind_eq_ok, Job.exec_ofExcept_eq_ok] at h
  obtain ⟨specs, _, ⟨hspecs, rfl⟩, x, _, ⟨hx, rfl⟩, f, _, ⟨hf, rfl⟩, _, _, hget, roots, _,
    ⟨hroots, rfl⟩, hend⟩ := h
  cases hget
  cases hend
  exact ⟨hspecs, hx, hf, hroots, rfl⟩

/-- What goes into the report of a call that succeeds. -/
theorem report_eq_ok {r : Report} (h : (p.report c).exec d = (.ok r, d')) :
    ∃ x roots found, p.maker.make r.settings.specs = .ok x ∧
      p.specsFor c = .ok r.settings.specs ∧
      Format.choose (p.formatOf c) c.documents = .ok r.format ∧
      (d.files c.documents).load r.format = .ok roots ∧ r.documents = roots.length ∧
      (x.collectAll 0 .empty roots).1 = .ok found ∧ r.records = found.records.reverse := by
  simp only [report, exec_bind_eq_ok] at h
  obtain ⟨⟨specs, x, f, roots⟩, d₁, hprepare, found, d₂, hfound, _, d₃, hlog, hend⟩ := h
  obtain ⟨hspecs, hx, hf, hroots, -⟩ := prepare_eq_ok hprepare
  rw [Job.exec_collectAll, Prod.mk.injEq, mapError_eq_ok] at hfound
  cases hend
  exact ⟨x, roots, found, hx, hspecs, hf, hroots, rfl, hfound.1, rfl⟩

theorem count_metadata (r : Report) (timestamp : String) :
    (r.metadata timestamp).field? "match_count" = some (.int r.records.length) ∧
      (r.metadata timestamp).field? "document_count" = some (.int r.documents) := by
  simp [Report.metadata, Value.record, Value.field?, Value.sameKey]

theorem run_of_output {timestamp : String} (hpath : c.output = some path) : p.run c timestamp =
    p.report c >>= fun r => Job.writeReport path r timestamp >>= fun _ => pure r.records := by
  rw [run, hpath]
  rfl

/-- A call with an output file writes all of its report or nothing. If it fails, whether at its
search paths, at the documents, at a match or at a value that cannot be written, the file is as
before. -/
theorem run_all_or_nothing (p : Pipeline β δ ε) (timestamp : String) (hpath : c.output = some path)
    (d : Desk) :
    (∀ e d', (p.run c timestamp).exec d = (.error e, d') → d'.files path = d.files path) ∧
    ∀ records d', (p.run c timestamp).exec d = (.ok records, d') →
      ∃ metadata f roots text,
        Format.choose (p.formatOf c) c.documents = .ok f ∧
        (d.files c.documents).load f = .ok roots ∧
        metadata.field? "match_count" = some (.int records.length) ∧
        metadata.field? "document_count" = some (.int roots.length) ∧
        Json.write (.record [("metadata", metadata),
          ("results", .list (records.map Record.toValue))]) = .ok text ∧
        d'.files path = .bytes text.toUTF8.toList := by
  constructor
  · intro e d' h
    have hkeeps : Job.KeepsOnError path (p.run c timestamp) := by
      rw [run_of_output hpath]
      exact .bind (keeps_report p c path) fun r =>
        (Job.keepsOnError_writeReport path r timestamp).bind_pure
    rw [← hkeeps d e (congrArg Prod.fst h), h]
  · intro records d' h
    rw [run_of_output hpath, exec_bind_eq_ok] at h
    obtain ⟨r, d₁, hreport, h⟩ := h
    rw [exec_bind_eq_ok] at h
    obtain ⟨_, d₂, hwrite, hend⟩ := h
    cases hend
    obtain ⟨x, roots, found, -, -, hf, hroots, hdocuments, -, -⟩ := report_eq_ok hreport
    obtain ⟨text, htext, hfile⟩ := Job.files_of_writeReport hwrite
    obtain ⟨hmatches, hcount⟩ := count_metadata r timestamp
    rw [hdocuments] at hcount
    exact ⟨r.metadata timestamp, r.format, roots, text, hf, hroots, hmatches, hcount, htext, hfile⟩

/-- Two documents, of which the first has bytes in it, and an output file of before. -/
def Sample.desk : Desk where
  files path :=
    if path = "d.yaml" then .bytes "a: !!binary aGk=\n---\nb: 1\n".toUTF8.toList
    else if path = "out/r.json" then .bytes [1, 2]
    else if path = "out" then .directory
    else .missing
  notices := []

def Sample.call (text : String) : PipelineCall :=
  ⟨"d.yaml", some "out/r.json", [.value (.str text)], none⟩

/-- Bytes cannot be written, but a number can. -/
theorem run_all_or_nothing_sample :
    ((Sample.call "(a)").output = some "out/r.json" ∧
      (Sample.call "(b)").output = some "out/r.json") ∧
    (∃ e d', ((ofSettings .standard).run (Sample.call "(a)") "now").exec Sample.desk =
      (.error e, d') ∧ d'.files "out/r.json" = .bytes [1, 2]) ∧
    ∃ records d' metadata text,
      ((ofSettings .standard).run (Sample.call "(b)") "now").exec Sample.desk = (.ok records, d') ∧
      metadata.field? "match_count" = some (.int 1) ∧
      metadata.field? "document_count" = some (.int 2) ∧
      Json.write (.record [("metadata", metadata),
        ("results", .list (records.map Record.toValue))]) = .ok text ∧
      d'.files "out/r.json" = .bytes text.toUTF8.toList := by
  refine ⟨⟨rfl, rfl⟩, ?_, ?_⟩
  · obtain ⟨hkept, -⟩ := run_all_or_nothing (c := Sample.call "(a)") (ofSettings .standard) "now"
      rfl Sample.desk
    have hfails : (((ofSettings .standard).run (Sample.call "(a)") "now").exec
        Sample.desk).1.toOption.isNone := by decide +kernel
    rcases h : ((ofSettings .standard).run (Sample.call "(a)") "now").exec Sample.desk with
      ⟨e | records, d'⟩
    · exact ⟨e, d', rfl, hkept e d' h⟩
    · rw [h] at hfails
      cases hfails
  · obtain ⟨-, hwritten⟩ := run_all_or_nothing (c := Sample.call "(b)") (ofSettings .standard) "now"
      rfl Sample.desk
    have hone : (((ofSettings .standard).run (Sample.call "(b)") "now").exec
        Sample.desk).1.toOption.map List.length = some 1 := by decide +kernel
    have htwo : ((Format.choose none "d.yaml").toOption.bind fun f =>
        ((Sample.desk.files "d.yaml").load f).toOption.map List.length) = some 2 := by
      decide +kernel
    rcases h : ((ofSettings .standard).run (Sample.call "(b)") "now").exec Sample.desk with
      ⟨e | records, d'⟩
    · rw [h] at hone
      cases hone
    · obtain ⟨metadata, f, roots, text, hf, hroots, hmatches, hdocuments, htext, hfile⟩ :=
        hwritten records d' h
      have hf : Format.choose none "d.yaml" = .ok f := hf
      have hroots : (Sample.desk.files "d.yaml").load f = .ok roots := hroots
      rw [h] at hone
      rw [hf, Except.toOption, Option.bind_some, hroots] at htwo
      rw [Option.some.inj hone] at hmatches
      rw [Option.some.inj htwo] at hdocuments
      exact ⟨records, d', metadata, text, rfl, hmatches, hdocuments, htext, hfile⟩

section Standard

theorem registerAll_standard {o : Options} (b : Builder Collector Empty) (ps : List PathSpec) :
    (Maker.standard o).registerAll b ps = b.registerAll ps := by
  induction ps generalizing b with
  | nil => rfl
  | cons p ps ih =>
    rw [Maker.registerAll, Builder.registerAll]
    exact bind_congr fun b' => ih b'

theorem make_standard (s : Settings) : (Maker.standard s.options).make s.specs = s.extractor := by
  rw [Maker.make, registerAll_standard]
  rfl

variable {s : Settings} {given : List PathSpec}

theorem formatOf_ofSettings (hformat : s.format ≠ some "") :
    (ofSettings s).formatOf c = ((s.withSpecs given).withFormat c.format).format := by
  show (c.format.filter (· ≠ "") <|> s.format).filter (· ≠ "") =
    (c.format.filter (· ≠ "") <|> s.format)
  cases hname : c.format.filter (· ≠ "") with
  | some name =>
    have hne : name ≠ "" := of_decide_eq_true (Option.filter_eq_some_iff.mp hname).2
    simp [hne]
  | none =>
    cases hs : s.format with
    | some name =>
      have hne : name ≠ "" := fun h => hformat (hs.trans (congrArg some h))
      simp [hne]
    | none => rfl

theorem mapM_resolve_spec (ps : List PathSpec) :
    (ps.map SpecArgument.spec).mapM SpecArgument.resolve = .ok ps := by
  induction ps with
  | nil => rfl
  | cons p ps ih =>
    rw [List.map_cons, List.mapM_cons, ih]
    rfl

theorem specsFor_ofSettings (hgiven : c.specs = given.map .spec) :
    (ofSettings s).specsFor c =
      if (s.specs ++ given).isEmpty then .error .noPaths else .ok (s.specs ++ given) := by
  rw [specsFor, hgiven, mapM_resolve_spec]
  rfl

/-- What settings prepare is what a pipeline of these settings prepares. -/
theorem exec_prepare_ofSettings (hformat : s.format ≠ some "") (hgiven : c.specs = given.map .spec)
    {t : Settings} (ht : t = (s.withSpecs given).withFormat c.format) (d : Desk) :
    ((ofSettings s).prepare c).exec d =
      (((t.prepare ⟨c.documents, d.files c.documents⟩).mapError .ofRun).map fun found =>
        (t.specs, found), d) := by
  have hspecs : t.specs = s.specs ++ given := by rw [ht]; rfl
  have hname : (ofSettings s).formatOf c = t.format := by rw [ht, formatOf_ofSettings hformat]
  have hmake : (ofSettings s).maker.make t.specs = t.extractor := by
    rw [← make_standard, ht]
    rfl
  rw [prepare, specsFor_ofSettings hgiven, ← hspecs, hname, Settings.prepare]
  by_cases hempty : t.specs.isEmpty
  · simp only [hempty, if_true]
    rfl
  rw [if_neg hempty, if_neg hempty, exec_bind_ok (Job.exec_ofExcept _ _ d), hmake]
  cases t.extractor with
  | error e => rfl
  | ok x =>
    rw [exec_bind_ok (Job.exec_ofExcept _ _ d)]
    cases Format.choose t.format c.documents with
    | error e => rfl
    | ok f =>
      rw [exec_bind_ok (Job.exec_ofExcept _ _ d), exec_bind_ok (exec_get d)]
      cases hload : (d.files c.documents).load f <;>
        simp only [Except.mapError, bind, Except.bind, hload] <;> rfl

/-- A call that gives a pipeline of settings more search paths reports what these settings with all
the search paths report. -/
theorem exec_report_ofSettings (hformat : s.format ≠ some "") (hgiven : c.specs = given.map .spec)
    {t : Settings} (ht : t = (s.withSpecs given).withFormat c.format) (d : Desk) :
    ((ofSettings s).report c).exec d =
      ((t.run ⟨c.documents, d.files c.documents⟩).1.mapError .ofRun,
        { d with notices := d.notices ++ (t.run ⟨c.documents, d.files c.documents⟩).2 }) := by
  have hname : (ofSettings s).formatOf c = t.format := by rw [ht, formatOf_ofSettings hformat]
  have hprepare := exec_prepare_ofSettings hformat hgiven ht d
  rw [Settings.run]
  cases hready : t.prepare ⟨c.documents, d.files c.documents⟩ with
  | error e =>
    rw [hready] at hprepare
    rw [report, exec_bind_error hprepare, List.append_nil]
    rfl
  | ok ready =>
    obtain ⟨x, f, roots⟩ := ready
    rw [hready] at hprepare
    obtain ⟨-, rfl⟩ := Settings.of_prepare hready
    rw [report, exec_bind_ok hprepare]
    dsimp only
    rw [exec_bind, Job.exec_collectAll]
    rcases (t.collecting : Extractor Collector Empty).collectAll 0 .empty roots with
      ⟨e | found, notices⟩
    · rfl
    · dsimp only [Except.mapError]
      rw [exec_bind_ok (Job.exec_log _ _), hname, List.append_assoc]
      rfl

/-- A call of a pipeline of settings with an output file gives what these settings give that are run
to a file, unless no file can be written at the path. -/
theorem exec_run_ofSettings (hformat : s.format ≠ some "") (hgiven : c.specs = given.map .spec)
    {timestamp : String} (hpath : c.output = some path) {d : Desk}
    (haround : ∀ q ∈ directories path, ∀ bs, d.files q ≠ .bytes bs)
    (hplace : d.files path ≠ .directory) {o : Settings.Outcome}
    (ho : ((s.withSpecs given).withFormat c.format).runTo ⟨c.documents, d.files c.documents⟩
      timestamp none = o) :
    ∃ d', ((ofSettings s).run c timestamp).exec d =
        ((o.answer.map (·.records)).mapError .ofRun, d') ∧
      d'.notices = d.notices ++ o.notices ∧
      d'.files path = match o.output with
        | some text => .bytes text.toUTF8.toList
        | none => d.files path := by
  have hreport := exec_report_ofSettings hformat hgiven rfl d
  subst ho
  rw [Settings.runTo, run_of_output hpath]
  generalize ((s.withSpecs given).withFormat c.format).run ⟨c.documents, d.files c.documents⟩ =
    answer at hreport
  obtain ⟨e | report, notices⟩ := answer
  · exact ⟨_, exec_bind_error hreport, rfl, rfl⟩
  rw [exec_bind_ok hreport]
  dsimp only
  obtain ⟨d', hwrite, hnotices, hfile⟩ := Job.exec_writeReport (δ := BuildError) (ε := Empty)
    (d := ⟨d.files, d.notices ++ notices⟩) report timestamp haround hplace
  cases htext : report.text timestamp with
  | error e =>
    rw [htext] at hwrite hfile
    exact ⟨d', exec_bind_error hwrite, hnotices, hfile⟩
  | ok text =>
    rw [htext] at hwrite hfile
    exact ⟨d', exec_bind_ok hwrite, hnotices, hfile⟩

end Standard

end Pipeline

end TreePaths
