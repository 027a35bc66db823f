import TreePaths.Proofs.Outcome
import TreePaths.Proofs.Pipeline.Matches
import TreePaths.Proofs.Value.Located

/-!
The location of a record leads to the value of the record, in the plain data of the document that it
was found in, and no search path finds one location twice.
-/

namespace TreePaths

open TreePaths.Action TreePaths.Effect

variable {ε : Type}

theorem Builder.isSome_of_registerAll {b b' : Builder Collector ε} {ps : List PathSpec}
    (h : b.registerAll ps = .ok b') : ∀ p ∈ ps, p.path?.isSome := by
  induction ps generalizing b with
  | nil => exact fun p hp => absurd hp List.not_mem_nil
  | cons p ps ih =>
    obtain ⟨c, hregister, hrest⟩ := bind_eq_ok.mp h
    have hp : p.path?.isSome := by
      rw [register, PathArgument.resolve] at hregister
      · rw [PathSpec.path?]
        cases hparse : SearchPath.parse p.text with
        | error e =>
          rw [hparse] at hregister
          cases hregister
        | ok path => rfl
      · intro hnull
        cases hnull
    intro q hq
    rcases List.mem_cons.mp hq with rfl | hq
    · exact hp
    · exact ih hrest q hq

structure Record.Notes (s : Settings) (document : Nat) (r : Record) (k : Call) : Prop where
  document : r.document = document
  path : s.specs[k.order]?.map (·.text) = some r.path
  location : r.location = k.before.cursor.location
  annotations : r.annotations = k.before.cursor.annotations
  value : k.before.cursor.value = .ok r.value

namespace Settings

variable {s : Settings} {root : Value}

/-- A run that could be prepared has search paths that all parse. -/
theorem of_prepare {file : DocumentFile} {x : Extractor Collector Empty} {f : Format}
    {roots : List Value} (h : s.prepare file = .ok (x, f, roots)) :
    (∀ p ∈ s.specs, p.path?.isSome) ∧ x = s.collecting := by
  cases hempty : s.specs.isEmpty with
  | true =>
    rw [prepare, hempty] at h
    cases h
  | false =>
    have hprepare : s.prepare file = s.extractor.mapError RunError.path >>= fun x => do
        let f ← (Format.choose s.format file.path).mapError .format
        let roots ← (file.content.load f).mapError (.file f file.path)
        return (x, f, roots) := by
      rw [prepare, hempty]
      rfl
    rw [hprepare] at h
    obtain ⟨y, hy, h⟩ := bind_eq_ok.mp h
    obtain ⟨g, -, h⟩ := bind_eq_ok.mp h
    obtain ⟨vs, -, h⟩ := bind_eq_ok.mp h
    obtain rfl : y = x := congrArg Prod.fst (Except.ok.inj h)
    rw [mapError_eq_ok] at hy
    obtain ⟨b, hb, -⟩ := bind_eq_ok.mp hy
    have hall := Builder.isSome_of_registerAll hb
    exact ⟨hall, Except.ok.inj (hy.symm.trans (extractor_eq hall))⟩

/-- What the run over one document adds, whatever it is, to the records collected before. -/
theorem collect_eq_ok (h : ∀ p ∈ s.specs, p.path?.isSome) {before after : Collector}
    {notices : List Notice}
    (hcollect : (s.collecting : Extractor Collector ε).collect before root = (.ok after, notices)) :
    ∃ rs : List Record, after.records = rs.reverse ++ before.records ∧
      (∀ r ∈ rs, r.document = before.document) ∧
      (root.isFinite → rs = s.matchesIn before.document root) := by
  let x : Extractor Collector ε := s.collecting
  have hanswer := congrArg Prod.fst hcollect
  rcases hrun : exec x.run (.start root true before) with ⟨e | _, t⟩
  · have hfail : (x.collect before root).1 = .error e := by
      rw [Extractor.collect, show x.run.run (.start root true before) = _ from hrun]
    cases hfail.symm.trans hanswer
  · have hstate : (x.collect before root).1 = .ok t.state := by
      rw [Extractor.collect, show x.run.run (.start root true before) = _ from hrun]
    obtain rfl := Except.ok.inj (hstate.symm.trans hanswer)
    have hlogged := x.exec_run_logged (.start root true before)
    rw [hrun, Extractor.run_eq_runWithin] at hlogged
    obtain ⟨L, -, hstate⟩ := (s.respectsWalk_noted _).run hlogged
    have hrecords : t.state.records =
        (L.map fun e => e.1.recordOf before.document e.2).reverse ++ before.records :=
      congrArg Collector.records hstate
    refine ⟨_, hrecords, fun r hr => ?_, fun hfin => ?_⟩
    · obtain ⟨e, -, rfl⟩ := List.mem_map.mp hr
      rfl
    · obtain ⟨u, hu, hfound⟩ := s.run_collecting hfin before h
      obtain rfl : t = u := congrArg Prod.snd (hrun.symm.trans hu)
      rw [hfound] at hrecords
      exact (List.reverse_injective (List.append_cancel_right hrecords)).symm

/-- The records of one of several documents, of which the first has the number `n`. -/
theorem collectAll_eq_ok (h : ∀ p ∈ s.specs, p.path?.isSome) {n : Nat} {before after : Collector}
    {roots : List Value} {notices : List Notice}
    (hcollect : (s.collecting : Extractor Collector ε).collectAll n before roots =
      (.ok after, notices)) :
    ∃ rs : List Record, after.records = rs.reverse ++ before.records ∧
      (∀ r ∈ rs, n ≤ r.document) ∧
      ∀ m root, roots[m]? = some root → root.isFinite →
        rs.filter (·.document = n + m) = s.matchesIn (n + m) root := by
  induction roots generalizing n before notices with
  | nil =>
    obtain rfl := Except.ok.inj (Prod.mk.inj hcollect).1
    exact ⟨[], rfl, fun r hr => absurd hr List.not_mem_nil, fun m root hroot => by cases hroot⟩
  | cons v vs ih =>
    rw [Extractor.collectAll] at hcollect
    split at hcollect
    next => cases hcollect
    next mid notices₁ hv =>
    dsimp only at hcollect
    rcases hvs : (s.collecting : Extractor Collector ε).collectAll (n + 1) mid vs with ⟨_, more⟩
    rw [hvs] at hcollect
    obtain rfl := (Prod.mk.inj hcollect).1
    obtain ⟨rs₁, hrecords₁, hdocument, hmatches⟩ := collect_eq_ok h hv
    obtain ⟨rs₂, hrecords₂, hlater, hrest⟩ := ih hvs
    refine ⟨rs₁ ++ rs₂, ?_, fun r hr => ?_, fun m root hroot hfin => ?_⟩
    · rw [hrecords₂, hrecords₁, List.reverse_append, List.append_assoc]
    · rcases List.mem_append.mp hr with hr | hr
      · exact (hdocument r hr).ge
      · exact Nat.le_of_succ_le (hlater r hr)
    · rw [List.filter_append]
      cases m with
      | zero =>
        obtain rfl := Option.some.inj hroot
        have hnone : rs₂.filter (·.document = n) = [] := by
          refine List.filter_eq_nil_iff.mpr fun r hr => ?_
          have hle := hlater r hr
          simp only [decide_eq_true_eq]
          omega
        have hall : rs₁.filter (·.document = n) = rs₁ :=
          List.filter_eq_self.mpr fun r hr => decide_eq_true (hdocument r hr)
        rw [Nat.add_zero, hall, hnone, List.append_nil]
        exact hmatches hfin
      | succ m =>
        have hnone : rs₁.filter (·.document = n + (m + 1)) = [] := by
          refine List.filter_eq_nil_iff.mpr fun r hr => ?_
          have heq : r.document = n := hdocument r hr
          simp only [decide_eq_true_eq]
          omega
        rw [hnone, List.nil_append, Nat.add_comm m 1, ← Nat.add_assoc]
        exact hrest m root hroot hfin

theorem mem_matchesIn {document : Nat} {r : Record} (hr : r ∈ s.matchesIn document root) :
    ∃ (p : PathSpec) (t : Trail), t.Leads root ∧ r = p.recordAt document root t := by
  obtain ⟨e, he, rfl⟩ := List.mem_map.mp hr
  exact ⟨e.1, e.2, Extractor.leads_of_mem_nodes (mem_of_mem_sweepBy he).2, rfl⟩

section Document

variable (hfin : root.isFinite) (h : ∀ p ∈ s.specs, p.path?.isSome) (before : Collector)

include hfin

include h in
/-- The records of a document note the calls of the run over it, one each. -/
theorem notes_matchesIn (document : Nat) :
    List.Forall₂ (Record.Notes s document) (s.matchesIn document root)
      ((s.collecting : Extractor Collector ε).calls (.start root true before)) := by
  have hlabels := s.labels_collecting (ε := ε) hfin before h
  rw [← List.forall₂_eq_eq_eq, List.forall₂_map_left_iff, List.forall₂_map_right_iff] at hlabels
  have hpairs := (List.forall₂_and_left _ _).mpr
    ⟨fun e he => (mem_of_mem_sweepBy he).2, hlabels.flip⟩
  rw [matchesIn, List.forall₂_map_left_iff]
  refine hpairs.imp fun e k hpair => ?_
  obtain ⟨hnode, hlabel⟩ := hpair
  have ht : e.2.Leads root := Extractor.leads_of_mem_nodes hnode
  obtain ⟨hpath, hcursor⟩ := Prod.mk.inj hlabel
  have hcur : k.before.cursor.current? = some (e.2.value root) := by
    rw [hcursor]
    exact Cursor.current?_along rfl ht
  refine ⟨rfl, ?_, ?_, ?_, ?_⟩
  · rw [hpath]
    rfl
  · rw [hcursor, Cursor.location_along ht]
    rfl
  · exact (Cursor.annotations_of_current? hcur).symm
  · exact Cursor.value_of_current? hcur (ht.isFinite hfin)

/-- No search path is called twice at one location. -/
theorem nodup_locations (hnames : root.NamesApart) :
    (((s.collecting : Extractor Collector ε).calls (.start root true before)).map
      fun k => (k.order, k.before.cursor.location)).Nodup := by
  let x : Extractor Collector ε := s.collecting
  obtain ⟨-, hsites⟩ := s.sites_collecting (ε := ε) hfin before
  have hlocations : (x.calls (.start root true before)).map
      (fun k => (k.order, k.before.cursor.location)) = _ :=
    (List.map_map (f := Call.site) (g := fun e => (e.1, e.2.location))).symm.trans
      (congrArg _ hsites)
  rw [hlocations, List.map_map]
  have hsweep : (sweep (x.chosen root) ([] :: root.preorder)
      ((x.calls (.start root true before)).map Call.count)).Sublist (x.selections root) :=
    sweep_sublist _
  have hdistinct := (List.Nodup.of_map _ (x.nodup_selections root)).sublist hsweep
  refine hdistinct.map_on fun e he d hd hed => ?_
  have hleads {e : Nat × Trail} (he : e ∈ sweep (x.chosen root) ([] :: root.preorder)
      ((x.calls (.start root true before)).map Call.count)) : e.2.Leads root :=
    Extractor.leads_of_mem_nodes (mem_of_mem_sweep he)
  obtain ⟨horder, hlocation⟩ := Prod.mk.inj hed
  rw [Cursor.location_along (hleads he), Cursor.location_along (hleads hd)] at hlocation
  exact Prod.ext horder (Trail.eq_of_location_eq hnames (hleads he) (hleads hd) hlocation)

end Document

/-- In a document in which no container has two children of one name, the location of each record
that a run finds there leads to the value of the record, and the records note the calls over the
document one by one, of which no two of one search path are at one location. -/
theorem locations_find_values {file : DocumentFile} {x : Extractor Collector Empty} {f : Format}
    {roots : List Value} {report : Report} {notices : List Notice}
    (hprepare : s.prepare file = .ok (x, f, roots)) (hrun : s.run file = (.ok report, notices))
    {number : Nat} (hroot : roots[number]? = some root) (hfin : root.isFinite)
    (hnames : root.NamesApart) :
    (∀ r ∈ report.records, r.document = number → root.plain.locate? r.location = some r.value) ∧
    ∀ before : Collector,
      List.Forall₂ (Record.Notes s number) (report.records.filter (·.document = number))
        (x.calls (.start root true before)) ∧
      ((x.calls (.start root true before)).map
        fun k => (k.order, k.before.cursor.location)).Nodup := by
  obtain ⟨hall, rfl⟩ := of_prepare hprepare
  have hrecords : report.records.filter (·.document = number) = s.matchesIn number root := by
    rw [run, hprepare] at hrun
    dsimp only at hrun
    split at hrun
    next => cases hrun
    next after _ hcollect =>
    obtain ⟨rs, hafter, -, hdocument⟩ := collectAll_eq_ok hall hcollect
    have hreport : report.records = rs := by
      rw [← Except.ok.inj (Prod.mk.inj hrun).1]
      dsimp only
      rw [hafter, Collector.empty, List.append_nil, List.reverse_reverse]
    rw [hreport, ← Nat.zero_add number]
    exact hdocument number root hroot hfin
  refine ⟨fun r hr hnumber => ?_, fun before => ?_⟩
  · have hmem : r ∈ report.records.filter (·.document = number) :=
      List.mem_filter.mpr ⟨hr, decide_eq_true hnumber⟩
    rw [hrecords] at hmem
    obtain ⟨p, t, ht, rfl⟩ := mem_matchesIn hmem
    exact Trail.locate?_plain hnames ht
  · rw [hrecords]
    exact ⟨notes_matchesIn hfin hall before number, nodup_locations hfin before hnames⟩

/-- One path registered twice, and one that leads to nodes below others. -/
def Sample.relative : Settings :=
  ⟨{ relative := true }, [⟨"(a)", 0⟩, ⟨"(a)", 0⟩, ⟨"(* a)", 1⟩], some "jsonl"⟩

theorem locations_find_values_sample : ∃ report notices root,
    (Sample.relative.prepare Sample.lines =
        .ok (Sample.relative.collecting, .jsonLines, Sample.loaded) ∧
      Sample.relative.run Sample.lines = (.ok report, notices) ∧
      Sample.loaded[1]? = some root ∧ root.isFinite ∧ root.NamesApart) ∧
    (∀ r ∈ report.records, r.document = 1 → root.plain.locate? r.location = some r.value) ∧
    report.records.map (fun r => (r.document, r.path, r.location)) =
      [(0, "(a)", [.name "a"]), (0, "(a)", [.name "a"]), (1, "(a)", [.index 1, .name "a"]),
        (1, "(a)", [.index 1, .name "a"]), (1, "(* a)", [.index 1, .name "a"]),
        (1, "(a)", [.index 2, .name "a"]), (1, "(a)", [.index 2, .name "a"]),
        (1, "(* a)", [.index 2, .name "a"])] := by
  have hne : Sample.relative.specs ≠ [] := List.cons_ne_nil _ _
  have hparse : ∀ p ∈ Sample.relative.specs, p.path?.isSome := by decide +kernel
  have hfin : ∀ v ∈ Sample.loaded, v.isFinite := by decide +kernel
  have hnames : ∀ v ∈ Sample.loaded, v.NamesApart := by decide +kernel
  have hformat : Format.choose Sample.relative.format Sample.lines.path = .ok .jsonLines := by
    decide +kernel
  obtain ⟨root, hroot⟩ : ∃ root, Sample.loaded[1]? = some root :=
    Option.isSome_iff_exists.mp (by decide +kernel)
  have hmem : root ∈ Sample.loaded := List.mem_of_getElem? hroot
  have hprepare := prepare_eq hne hparse hformat Sample.load_lines
  obtain ⟨report, notices, hreport, hfindings⟩ :=
    run_eq_findings hne hparse hfin hformat Sample.load_lines
  obtain ⟨hvalues, -⟩ :=
    locations_find_values hprepare hreport hroot (hfin root hmem) (hnames root hmem)
  have hrecords := hfindings.symm.trans (findings_eq hne hparse hfin)
  refine ⟨report, notices, root,
    ⟨hprepare, hreport, hroot, hfin root hmem, hnames root hmem⟩, hvalues, ?_⟩
  rw [Except.ok.inj hrecords]
  decide +kernel

end Settings
end TreePaths
