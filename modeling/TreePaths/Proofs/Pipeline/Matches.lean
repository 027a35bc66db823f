import TreePaths.Pipeline.Run
import TreePaths.Proofs.Extraction.Nesting

/-!
What a run over several documents finds: in each of them what it finds there alone. The count with
which a search path is registered may be any: no run breaks the protocol for it.
-/

namespace TreePaths

open TreePaths.Action TreePaths.Effect

variable {ε : Type}

namespace PathSpec

def path? (p : PathSpec) : Option SearchPath :=
  (SearchPath.parse p.text).toOption

def recordAt (p : PathSpec) (document : Nat) (root : Value) (t : Trail) : Record :=
  ⟨document, p.text, (t.map (·.position)).reverse, (t.value root).annotations,
    (t.value root).plain⟩

end PathSpec

namespace Settings

def selecting (s : Settings) (root : Value) (t : Trail) : List PathSpec :=
  s.specs.filter fun p => p.path?.any (·.selects s.options root t)

/-- The records of the matches in a document, in the order of a sweep over it. After a match as many
containers are left as its search path says, or all of them if there are not so many. -/
def matchesIn (s : Settings) (document : Nat) (root : Value) : List Record :=
  (sweepBy (s.selecting root) (fun p t => min p.stepOut t.length) ([] :: root.preorder)).map
    fun e => e.1.recordAt document root e.2

def findings (s : Settings) (roots : List Value) : Except RunError (List Record) := do
  if s.specs.isEmpty then throw .noPaths
  let x : Extractor Collector Empty ← s.extractor.mapError .path
  let t ← (x.collectAll 0 .empty roots).1.mapError .walk
  return t.records.reverse

end Settings

namespace PathSpec

def recordOf (p : PathSpec) (document : Nat) (c : Cursor) : Record :=
  .ofCursor document p.text c (c.value.toOption.getD .null)

theorem exec_collect (p : PathSpec) {s : Session Collector} {v : Value}
    (h : s.cursor.value = .ok v) : exec (p.collect : Action Collector ε Value) s =
      (.ok (.int (min p.stepOut s.cursor.depth : Nat)), { s with state := { s.state with
        records := p.recordOf s.state.document s.cursor :: s.state.records } }) := by
  have hvalue : exec (Action.value : Action Collector ε Value) s = (.ok v, s) := by
    rw [exec_value, h]
    rfl
  rw [collect, exec_bind_ok (exec_look _ _), exec_bind_ok hvalue, recordOf, h]
  rfl

theorem exec_collect_eq_ok {p : PathSpec} {s s' : Session Collector} {v : Value}
    (h : exec (p.collect : Action Collector ε Value) s = (.ok v, s')) :
    v = .int (min p.stepOut s.cursor.depth : Nat) ∧ s' = { s with state := { s.state with
      records := p.recordOf s.state.document s.cursor :: s.state.records } } := by
  have hok := h
  rw [collect, exec_bind_ok (exec_look _ _), exec_bind_eq_ok] at hok
  obtain ⟨w, s₁, hvalue, -⟩ := hok
  rw [exec_value] at hvalue
  cases hcur : s.cursor.value with
  | ok w =>
    rw [exec_collect p hcur] at h
    obtain ⟨hv, hs⟩ := Prod.mk.inj h
    exact ⟨(Except.ok.inj hv).symm, hs.symm⟩
  | error fault =>
    rw [hcur] at hvalue
    cases hvalue

def registration (p : PathSpec) : Registration Collector ε :=
  ⟨p.path?.getD ⟨[], []⟩, p.collect⟩

theorem behaves {p : PathSpec} {s : Session Collector} {v : Value} (h : s.cursor.value = .ok v) :
    (p.registration : Registration Collector ε).Behaves 0 s :=
  ⟨_, _, p.exec_collect h, ⟨rfl, rfl⟩, min_le_right _ _⟩

end PathSpec

/-- Search paths that all parse are registered in their order. -/
theorem Builder.registerAll_eq (b : Builder Collector ε) {ps : List PathSpec}
    (h : ∀ p ∈ ps, p.path?.isSome) :
    b.registerAll ps = .ok ⟨b.registrations ++ ps.map PathSpec.registration, b.options⟩ := by
  induction ps generalizing b with
  | nil => rw [registerAll, List.map_nil, List.append_nil]
  | cons p ps ih =>
    have hregister : b.register (.value (.str p.text)) (some p.collect) .null =
        .ok ⟨b.registrations ++ [p.registration], b.options⟩ := by
      have hp := h p List.mem_cons_self
      rw [PathSpec.registration]
      rw [PathSpec.path?] at hp ⊢
      cases hparse : SearchPath.parse p.text with
      | ok path =>
        rw [register, PathArgument.resolve, hparse]
        · rfl
        · nofun
      | error e =>
        rw [hparse] at hp
        cases hp
    rw [registerAll, hregister]
    refine (ih _ fun q hq => h q (List.mem_cons_of_mem _ hq)).trans ?_
    rw [List.map_cons, List.append_assoc]
    rfl

namespace Settings

variable {s : Settings}

/-- The extractor of settings whose search paths all parse. -/
def collecting (s : Settings) : Extractor Collector ε :=
  ⟨s.specs.map PathSpec.registration, s.options⟩

theorem extractor_eq (h : ∀ p ∈ s.specs, p.path?.isSome) :
    s.extractor = .ok (s.collecting : Extractor Collector ε) := by
  rw [extractor, Builder.registerAll_eq _ h]
  rfl

def selectedAt (s : Settings) (root : Value) (t : Trail) : List (PathSpec × Nat) :=
  s.specs.zipIdx.filter fun e => e.1.path?.any (·.selects s.options root t)

theorem selecting_eq (s : Settings) (root : Value) (t : Trail) :
    s.selecting root t = (s.selectedAt root t).map (·.1) := by
  rw [selectedAt, Extractor.map_fst_filter_zipIdx s.specs fun p =>
    p.path?.any (·.selects s.options root t)]
  rfl

theorem getElem?_of_mem_selectedAt {root : Value} {t : Trail} {e : PathSpec × Nat}
    (he : e ∈ s.selectedAt root t) : s.specs[e.2]? = some e.1 :=
  List.mem_zipIdx_iff_getElem?.mp (List.mem_of_mem_filter he)

theorem chosen_collecting (h : ∀ p ∈ s.specs, p.path?.isSome) (root : Value) (t : Trail) :
    (s.collecting : Extractor Collector ε).chosen root t = (s.selectedAt root t).map (·.2) := by
  rw [Extractor.chosen, collecting, List.zipIdx_map, List.filter_map, List.map_map, selectedAt]
  refine congrArg (List.map _) (List.filter_congr fun e he => ?_)
  obtain ⟨path, hpath⟩ := Option.isSome_iff_exists.mp (h e.1 (List.fst_mem_of_mem_zipIdx he))
  simp only [Function.comp_apply, Prod.map_fst, PathSpec.registration, hpath, Option.getD_some,
    Option.any_some]

def labelOf (s : Settings) (k : Call) : Option PathSpec × Cursor :=
  (s.specs[k.order]?, k.before.cursor)

theorem getElem?_of_mem_registrations {e : Registration Collector ε × Nat}
    (he : e ∈ (s.collecting : Extractor Collector ε).registrations.zipIdx) :
    ∃ p, s.specs[e.2]? = some p ∧ e.1 = p.registration := by
  have hmem := List.mem_zipIdx_iff_getElem?.mp he
  rw [collecting, List.getElem?_map] at hmem
  obtain ⟨p, hp, hr⟩ := Option.map_eq_some_iff.mp hmem
  exact ⟨p, hp, hr.symm⟩

/-- How many containers the callback of the `i`-th search path asks to leave at a depth. -/
def leaving (s : Settings) (i depth : Nat) : Nat :=
  (s.specs[i]?.map fun p => min p.stepOut depth).getD 0

theorem leaving_eq {i : Nat} {p : PathSpec} (h : s.specs[i]? = some p) (depth : Nat) :
    s.leaving i depth = min p.stepOut depth := by
  rw [leaving, h]
  rfl

theorem count_of_mem_calls {t t' : Session Collector}
    (h : exec (s.collecting : Extractor Collector ε).run t = (.ok (), t')) :
    ∀ k ∈ (s.collecting : Extractor Collector ε).calls t,
      k.count = s.leaving k.order k.before.cursor.depth := by
  refine Extractor.forall_mem_calls_of_run (fun e he u v u' hcall => ?_) h
  obtain ⟨p, hp, hr⟩ := getElem?_of_mem_registrations he
  rw [hr] at hcall ⊢
  obtain ⟨rfl, -⟩ := PathSpec.exec_collect_eq_ok hcall
  have hexec : exec p.registration.callback u = _ := hcall
  refine Eq.trans ?_ (leaving_eq hp u.cursor.depth).symm
  rw [Call.count, Registration.call, hexec]
  rfl

/-- From the first session to the second one these calls were made, and all of them are noted. -/
def Noted (s : Settings) (u u' : Session (Collector × List Call)) : Prop :=
  ∃ L : List (PathSpec × Cursor),
    u'.state.2.map s.labelOf = u.state.2.map s.labelOf ++ L.map (fun e => (some e.1, e.2)) ∧
    u'.state.1 = ⟨u.state.1.document,
      (L.map fun e => e.1.recordOf u.state.1.document e.2).reverse ++ u.state.1.records⟩

/-- Throughout a walk every call is noted. -/
theorem respectsWalk_noted (s : Settings) (base : Nat) :
    (s.collecting : Extractor Collector ε).logged.RespectsWalk base s.Noted where
  refl u := ⟨[], (List.append_nil _).symm, rfl⟩
  trans := by
    rintro u u₁ u₂ ⟨L, hlabels, hstate⟩ ⟨L', hlabels', hstate'⟩
    refine ⟨L ++ L', ?_, ?_⟩
    · rw [hlabels', hlabels, List.map_append, List.append_assoc]
    · rw [hstate', hstate, List.map_append, List.reverse_append, List.append_assoc]
  call := by
    intro r hr u u' n h
    obtain ⟨⟨q, i⟩, he, rfl⟩ := List.mem_map.mp hr
    obtain ⟨p, hp, hq⟩ := getElem?_of_mem_registrations he
    obtain rfl : q = p.registration := hq
    obtain ⟨v, hcall, -⟩ := (Registration.exec_invoke_eq_ok base).mp h
    rw [Registration.exec_logged] at hcall
    obtain ⟨hok, rfl⟩ := Prod.mk.inj hcall
    obtain ⟨-, hafter⟩ := PathSpec.exec_collect_eq_ok (exec_eq_ok hok)
    refine ⟨[(p, u.cursor)], ?_, congrArg Session.state hafter⟩
    have hlabel : s.labelOf ((p.registration : Registration Collector ε).call i u.forget) =
        (some p, u.cursor) := congrArg (·, u.cursor) hp
    rw [List.map_singleton, ← hlabel]
    exact List.map_append
  next _ := ⟨[], (List.append_nil _).symm, rfl⟩
  log _ _ := ⟨[], (List.append_nil _).symm, rfl⟩
  inner _ h _ := h

theorem recordOf_along {p : PathSpec} {root : Value} {t : Trail} (ht : t.Leads root)
    (hfin : root.isFinite) (document : Nat) :
    p.recordOf document ((Cursor.ofRoot root).along root t) = p.recordAt document root t := by
  have hcur : ((Cursor.ofRoot root).along root t).current? = some (t.value root) :=
    Cursor.current?_along rfl ht
  have hvalue := Cursor.value_of_current? hcur (ht.isFinite hfin)
  rw [PathSpec.recordOf, Record.ofCursor, hvalue, Cursor.location_along ht,
    Cursor.annotations_of_current? hcur]
  rfl

section Document

variable {root : Value} (hfin : root.isFinite) (before : Collector)

include hfin

/-- A run over one document returns, and its calls are those of a sweep with their counts. -/
theorem sites_collecting :
    (exec (s.collecting : Extractor Collector ε).run (.start root true before)).1 = .ok () ∧
      ((s.collecting : Extractor Collector ε).calls (.start root true before)).map Call.site =
        (sweep ((s.collecting : Extractor Collector ε).chosen root) ([] :: root.preorder)
          (((s.collecting : Extractor Collector ε).calls (.start root true before)).map
            Call.count)).map fun e => (e.1, (Cursor.ofRoot root).along root e.2) := by
  have hcur : (Cursor.ofRoot root).current? = some root := rfl
  refine Extractor.run_of_behaves hcur hfin (.inl rfl) fun r hr u t ht hu => ?_
  obtain ⟨p, -, rfl⟩ := List.mem_map.mp hr
  have hnode : u.cursor.current? = some (t.value root) := by
    rw [hu]
    exact Cursor.current?_along hcur ht
  exact PathSpec.behaves (Cursor.value_of_current? hnode (ht.isFinite hfin))

variable (h : ∀ p ∈ s.specs, p.path?.isSome)

include h

/-- The calls of a run over one document. -/
theorem labels_collecting :
    ((s.collecting : Extractor Collector ε).calls (.start root true before)).map s.labelOf =
      (sweepBy (s.selecting root) (fun p t => min p.stepOut t.length) ([] :: root.preorder)).map
        fun e => (some e.1, (Cursor.ofRoot root).along root e.2) := by
  obtain ⟨hok, hsites⟩ := s.sites_collecting (ε := ε) hfin before
  have hcounts := List.map_congr_left (count_of_mem_calls (exec_eq_ok hok))
  generalize (s.collecting : Extractor Collector ε).calls (.start root true before) = calls
    at hsites hcounts ⊢
  have hcounts : calls.map Call.count = (sweep ((s.collecting : Extractor Collector ε).chosen root)
      ([] :: root.preorder) (calls.map Call.count)).map fun e => s.leaving e.1 e.2.length := by
    have hleaving := congrArg (List.map fun e : Nat × Cursor => s.leaving e.1 e.2.depth) hsites
    rw [List.map_map, List.map_map] at hleaving
    refine hcounts.trans (hleaving.trans (List.map_congr_left fun e _ => ?_))
    exact congrArg (s.leaving e.1) ((Cursor.depth_along _ root e.2).trans (Nat.zero_add _))
  have hswept := sweep_eq_sweepBy (fun i t => s.leaving i t.length) (chosen_collecting h root)
    (fun t a ha => leaving_eq (getElem?_of_mem_selectedAt ha) t.length) hcounts
  have hlabels := congrArg (List.map fun e : Nat × Cursor => (s.specs[e.1]?, e.2)) hsites
  rw [hswept, List.map_map, List.map_map, List.map_map] at hlabels
  have hselecting : s.selecting root = fun t => (s.selectedAt root t).map (·.1) :=
    funext (s.selecting_eq root)
  rw [hselecting, sweepBy_map, List.map_map]
  refine hlabels.trans (List.map_congr_left fun e he => ?_)
  exact congrArg (·, (Cursor.ofRoot root).along root e.2)
    (getElem?_of_mem_selectedAt (mem_of_mem_sweepBy he).1)

/-- The matches that a run over one document adds to those collected before. -/
theorem run_collecting : ∃ t,
    exec (s.collecting : Extractor Collector ε).run (.start root true before) = (.ok (), t) ∧
      t.state = ⟨before.document,
        (s.matchesIn before.document root).reverse ++ before.records⟩ := by
  let x : Extractor Collector ε := s.collecting
  let u : Session Collector := .start root true before
  have hrun : exec x.run u = (.ok (), (exec x.run u).2) :=
    exec_eq_ok (s.sites_collecting hfin before).1
  refine ⟨_, hrun, ?_⟩
  have hlogged := x.exec_run_logged u
  rw [hrun, Extractor.run_eq_runWithin] at hlogged
  obtain ⟨L, hlabels, hstate⟩ := (s.respectsWalk_noted _).run hlogged
  have hcalls := (s.labels_collecting hfin before h).symm.trans hlabels
  have hL : (sweepBy (s.selecting root) (fun p t => min p.stepOut t.length)
      ([] :: root.preorder)).map (fun e => (e.1, (Cursor.ofRoot root).along root e.2)) = L := by
    have hinjective : Function.Injective fun e : PathSpec × Cursor => (some e.1, e.2) := by
      rintro ⟨p, c⟩ ⟨q, d⟩ hpq
      cases hpq
      rfl
    refine List.map_injective_iff.mpr hinjective ?_
    rw [List.map_map]
    exact hcalls
  have hrecords : L.map (fun e => e.1.recordOf before.document e.2) =
      s.matchesIn before.document root := by
    rw [← hL, List.map_map, matchesIn]
    exact List.map_congr_left fun e he =>
      recordOf_along (Extractor.leads_of_mem_nodes (mem_of_mem_sweepBy he).2) hfin before.document
  exact hrecords ▸ hstate

/-- Going through a document adds the records of the matches in it. -/
theorem collect_collecting : ∃ notices,
    (s.collecting : Extractor Collector ε).collect before root = (.ok ⟨before.document,
      (s.matchesIn before.document root).reverse ++ before.records⟩, notices) := by
  obtain ⟨t, hrun, hstate⟩ := s.run_collecting (ε := ε) hfin before h
  have hrun : (s.collecting : Extractor Collector ε).run.run (.start root true before) =
      (.ok (), t) := hrun
  rw [← hstate, Extractor.collect, hrun]
  exact ⟨_, rfl⟩

end Document

/-- The matches in several documents, of which the first has the number `n`. -/
theorem collectAll_collecting (h : ∀ p ∈ s.specs, p.path?.isSome) {roots : List Value}
    (hfin : ∀ v ∈ roots, v.isFinite) (n : Nat) (before : Collector) : ∃ after notices,
      (s.collecting : Extractor Collector ε).collectAll n before roots = (.ok after, notices) ∧
      after.records =
        ((roots.zipIdx n).flatMap fun e => s.matchesIn e.2 e.1).reverse ++ before.records := by
  induction roots generalizing n before with
  | nil => exact ⟨before, [], rfl, rfl⟩
  | cons v vs ih =>
    obtain ⟨notices, hcollect⟩ := collect_collecting (ε := ε) (hfin v List.mem_cons_self)
      { before with document := n } h
    obtain ⟨after, more, hrest, hrecords⟩ := ih (fun w hw => hfin w (List.mem_cons_of_mem v hw))
      (n + 1) ⟨n, (s.matchesIn n v).reverse ++ before.records⟩
    refine ⟨after, notices ++ more, ?_, ?_⟩
    · rw [Extractor.collectAll, hcollect]
      dsimp only
      rw [hrest]
    · rw [hrecords, List.zipIdx_cons, List.flatMap_cons, List.reverse_append, List.append_assoc]

theorem matchesIn_eq (s : Settings) (document : Nat) (root : Value) :
    s.matchesIn document root = (s.matchesIn 0 root).map fun r => { r with document } := by
  rw [matchesIn, matchesIn, List.map_map]
  rfl

section Documents

variable (hne : s.specs ≠ []) (h : ∀ p ∈ s.specs, p.path?.isSome) {roots : List Value}
  (hfin : ∀ v ∈ roots, v.isFinite)

include hne h hfin

theorem findings_eq :
    s.findings roots = .ok (roots.zipIdx.flatMap fun e => s.matchesIn e.2 e.1) := by
  obtain ⟨after, notices, hcollect, hrecords⟩ :=
    collectAll_collecting (ε := Empty) h hfin 0 .empty
  have hempty : s.specs.isEmpty = false := List.isEmpty_eq_false_iff.mpr hne
  simp only [findings, hempty, extractor_eq h]
  change (((s.collecting : Extractor Collector Empty).collectAll 0 .empty roots).1.mapError
    RunError.walk).bind (fun t => .ok t.records.reverse) = _
  rw [hcollect]
  change Except.ok after.records.reverse = _
  rw [hrecords, Collector.empty, List.append_nil, List.reverse_reverse]

omit hfin in
theorem prepare_eq {file : DocumentFile} {f : Format}
    (hformat : Format.choose s.format file.path = .ok f) (hload : file.content.load f = .ok roots) :
    s.prepare file = .ok (s.collecting, f, roots) := by
  have hempty : s.specs.isEmpty = false := List.isEmpty_eq_false_iff.mpr hne
  simp only [prepare, hempty, extractor_eq h, hformat]
  change ((file.content.load f).mapError (RunError.file f file.path)).bind
    (fun roots => .ok (s.collecting, f, roots)) = _
  rw [hload]
  rfl

/-- A run reports what is found in the documents. -/
theorem run_eq_findings {file : DocumentFile} {f : Format}
    (hformat : Format.choose s.format file.path = .ok f) (hload : file.content.load f = .ok roots) :
    ∃ report notices, s.run file = (.ok report, notices) ∧
      s.findings roots = .ok report.records := by
  obtain ⟨after, notices, hcollect, hrecords⟩ :=
    collectAll_collecting (ε := Empty) h hfin 0 .empty
  rw [run, prepare_eq hne h hformat hload, findings_eq hne h hfin]
  dsimp only
  rw [hcollect]
  refine ⟨_, _, rfl, ?_⟩
  dsimp only
  rw [hrecords, Collector.empty, List.append_nil, List.reverse_reverse]

end Documents

/-- Whatever counts search paths are registered with, a run over documents returns and finds in each
of them what it finds there alone, document by document. -/
theorem finds_by_document (hne : s.specs ≠ []) (h : ∀ p ∈ s.specs, p.path?.isSome)
    {roots : List Value} (hfin : ∀ v ∈ roots, v.isFinite) :
    (∀ v ∈ roots, s.findings [v] = .ok (s.matchesIn 0 v)) ∧
      s.findings roots = .ok (roots.zipIdx.flatMap fun e =>
        (s.matchesIn 0 e.1).map fun r => { r with document := e.2 }) ∧
      ∀ file f, Format.choose s.format file.path = .ok f → file.content.load f = .ok roots →
        ∃ report notices, s.run file = (.ok report, notices) ∧
          s.findings roots = .ok report.records := by
  refine ⟨fun v hv => ?_, ?_, fun file f => run_eq_findings hne h hfin⟩
  · have hone : ∀ w ∈ [v], w.isFinite := fun w hw => List.mem_singleton.mp hw ▸ hfin v hv
    have hfindings := findings_eq hne h hone
    rw [hfindings]
    exact congrArg Except.ok (List.append_nil _)
  · rw [findings_eq hne h hfin]
    exact congrArg Except.ok (List.flatMap_congr fun e _ => s.matchesIn_eq e.2 e.1)

/-- Counts that are larger than the depth of some matches, one of them that of the empty path. -/
def Sample.settings : Settings :=
  ⟨{}, [⟨"(a *)", 5⟩, ⟨"()", 3⟩, ⟨"(* a)", 1⟩], some "jsonl"⟩

def Sample.lines : DocumentFile :=
  ⟨"documents",
    .bytes "\x7b\"a\":[1,2]\x7d\n[7,\x7b\"a\":3,\"b\":5\x7d,\x7b\"a\":4\x7d]\n".toUTF8.toList⟩

def Sample.loaded : List Value :=
  (Sample.lines.content.load .jsonLines).toOption.getD []

theorem Sample.load_lines : Sample.lines.content.load .jsonLines = .ok Sample.loaded := by
  have hok : (Sample.lines.content.load .jsonLines).toOption.isSome := by decide +kernel
  cases h : Sample.lines.content.load .jsonLines with
  | ok roots => rw [Sample.loaded, h]; rfl
  | error e =>
    rw [h] at hok
    cases hok

theorem finds_by_document_sample :
    (Sample.settings.specs ≠ [] ∧ (∀ p ∈ Sample.settings.specs, p.path?.isSome) ∧
      (∀ v ∈ Sample.loaded, v.isFinite) ∧
      Format.choose Sample.settings.format Sample.lines.path = .ok .jsonLines ∧
      Sample.lines.content.load .jsonLines = .ok Sample.loaded) ∧
    ∃ report notices, Sample.settings.run Sample.lines = (.ok report, notices) ∧
      report.records.map (fun r => (r.document, r.path, r.location)) =
        [(0, "()", []), (0, "(a *)", [.name "a", .index 0]), (1, "()", []),
          (1, "(* a)", [.index 1, .name "a"]), (1, "(* a)", [.index 2, .name "a"])] := by
  have hne : Sample.settings.specs ≠ [] := List.cons_ne_nil _ _
  have hparse : ∀ p ∈ Sample.settings.specs, p.path?.isSome := by decide +kernel
  have hfin : ∀ v ∈ Sample.loaded, v.isFinite := by decide +kernel
  have hformat : Format.choose Sample.settings.format Sample.lines.path = .ok .jsonLines := by
    decide +kernel
  obtain ⟨-, -, hrun⟩ := finds_by_document hne hparse hfin
  obtain ⟨report, notices, hreport, hfindings⟩ := hrun _ _ hformat Sample.load_lines
  have hrecords : (Sample.settings.findings Sample.loaded).toOption.map
      (·.map fun r : Record => (r.document, r.path, r.location)) =
        some [(0, "()", []), (0, "(a *)", [.name "a", .index 0]), (1, "()", []),
          (1, "(* a)", [.index 1, .name "a"]), (1, "(* a)", [.index 2, .name "a"])] := by
    decide +kernel
  rw [hfindings] at hrecords
  exact ⟨⟨hne, hparse, hfin, hformat, Sample.load_lines⟩, report, notices, hreport,
    Option.some.inj hrecords⟩

end Settings
end TreePaths
