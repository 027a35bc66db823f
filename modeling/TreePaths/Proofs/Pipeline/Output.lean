import TreePaths.Pipeline.Run
import TreePaths.Proofs.Json.RoundTrip

/-!
What a run writes to its output file: a JSON document from which its results are read back.
-/

namespace TreePaths

namespace Report

/-- All that is told of a run besides its results can be stored. -/
theorem storable_metadata {r : Report} (hdocuments : Text.isWritable r.documents)
    (hrecords : Text.isWritable r.records.length) (timestamp : String) :
    (r.metadata timestamp).Storable := by
  unfold metadata
  refine .record (by simp) fun f hf => ?_
  simp only [List.mem_cons, List.not_mem_nil, or_false] at hf
  rcases hf with rfl | rfl | rfl | rfl | rfl | rfl | rfl | rfl | rfl
  · exact .str _
  · exact .str _
  · exact .int hdocuments
  · exact .int hrecords
  · refine .list fun v hv => ?_
    obtain ⟨p, -, rfl⟩ := List.mem_map.mp hv
    exact .str _
  · exact .bool _
  · exact .bool _
  · exact .str _
  · exact .str _

end Report

namespace Record

/-- A record whose value can be stored can be stored itself. -/
theorem storable_toValue {r : Record} (hdocument : Text.isWritable r.document)
    (hlocation : ∀ p ∈ r.location, p.toValue.Storable) (hvalue : r.value.Storable) :
    r.toValue.Storable := by
  unfold toValue
  refine .record (by simp) fun f hf => ?_
  simp only [List.mem_cons, List.not_mem_nil, or_false] at hf
  rcases hf with rfl | rfl | rfl | rfl | rfl
  · exact .int hdocument
  · exact .str _
  · refine .list fun v hv => ?_
    obtain ⟨p, hp, rfl⟩ := List.mem_map.mp hv
    exact hlocation p hp
  · refine .list fun v hv => ?_
    obtain ⟨a, -, rfl⟩ := List.mem_map.mp hv
    exact .str a
  · exact hvalue

end Record

namespace Report

/-- Results that can be stored are read back from the file in which they are written: it is loaded
as one root, whose only results are the written ones, with ISO texts for their dates. -/
theorem output_reads_back {metadata : Value} {results : List Value} (hmetadata : metadata.Storable)
    (hresults : ∀ v ∈ results, v.Storable) :
    ∃ text root found,
      Json.write (.record [("metadata", metadata), ("results", .list results)]) = .ok text ∧
      Format.json.load text = .ok [root] ∧ root.fieldsNamed "results" = [found] ∧
      found.plain = (Value.list results).undated ∧
      ∀ (report : Report) (timestamp : String), report.metadata timestamp = metadata →
        report.results = .list results → ∀ (s : Settings) file notices before,
          s.run file = (.ok report, notices) →
          s.runTo file timestamp before = ⟨.ok report, notices, some text⟩ := by
  have hlist : (Value.list results).Storable := .list hresults
  have hwhole : (Value.record [("metadata", metadata), ("results", .list results)]).Storable := by
    refine .record (by simp) fun f hf => ?_
    simp only [List.mem_cons, List.not_mem_nil, or_false] at hf
    rcases hf with rfl | rfl
    · exact hmetadata
    · exact hlist
  obtain ⟨text, hwrite, hread⟩ := Json.read_write hwhole
  rw [Value.reread_record] at hread
  refine ⟨text, .struct [("metadata", metadata.reread), ("results", (Value.list results).reread)],
    (Value.list results).reread, hwrite, ?_, rfl, Value.plain_reread hlist, ?_⟩
  · show (Format.loadJson none text.toList).map _ = _
    rw [Format.loadJson, hread]
    rfl
  · intro report timestamp hmeta hres s file notices before hrun
    have htext : report.text timestamp = .ok text := by
      rw [Report.text, hmeta, hres, hwrite]
    rw [Settings.runTo, hrun]
    dsimp only
    rw [htext]

/-- A match with characters that are escaped, empty containers and dates. -/
def Sample.match : Record :=
  ⟨2, "(a *)", [.name "a\"\n", .index 3], ["x"],
    .record [("k\\\x01", .list [.null, .bool true, .int (-120), .list [], .record [], .str "ä\t"]),
      ("day", .date ⟨2024, 2, 9⟩), ("at", .moment ⟨⟨2024, 2, 9⟩, 5, 6, 7, 80, some (-90)⟩)]⟩

def Sample.report : Report :=
  ⟨⟨{}, [⟨"(a *)", 1⟩], none⟩, "documents.yaml", .yaml, 3, [Sample.match]⟩

theorem Sample.storable_match : Sample.match.toValue.Storable := by
  refine Record.storable_toValue (by decide) (fun p hp => ?_) ?_
  · rcases List.mem_pair.mp hp with rfl | rfl
    · exact .str _
    · exact .int (by decide)
  · refine .record (by decide) fun f hf => ?_
    simp only [List.mem_cons, List.not_mem_nil, or_false] at hf
    rcases hf with rfl | rfl | rfl
    · refine .list fun v hv => ?_
      simp only [List.mem_cons, List.not_mem_nil, or_false] at hv
      rcases hv with rfl | rfl | rfl | rfl | rfl | rfl
      · exact .null
      · exact .bool true
      · exact .int (by decide)
      · exact .list fun v hv => absurd hv List.not_mem_nil
      · exact .record .nil fun f hf => absurd hf List.not_mem_nil
      · exact .str _
    · exact .date _
    · exact .moment _

theorem output_reads_back_sample :
    ((Sample.report.metadata "now").Storable ∧ ∀ v ∈ [Sample.match.toValue], v.Storable) ∧
    ∃ text root found, Sample.report.text "now" = .ok text ∧
      Format.json.load text = .ok [root] ∧ root.fieldsNamed "results" = [found] ∧
      found.plain = .list [.record [("document", .int 2), ("search_path", .str "(a *)"),
        ("location", .list [.str "a\"\n", .int 3]), ("annotations", .list [.str "x"]),
        ("value", .record [
          ("k\\\x01",
            .list [.null, .bool true, .int (-120), .list [], .record [], .str "ä\t"]),
          ("day", .str "2024-02-09"),
          ("at", .str "2024-02-09T05:06:07.000080-01:30")])]] := by
  have hmetadata : (Sample.report.metadata "now").Storable :=
    storable_metadata (by decide) (by decide) "now"
  have hresults : ∀ v ∈ [Sample.match.toValue], v.Storable := by
    intro v hv
    rw [List.mem_singleton.mp hv]
    exact Sample.storable_match
  obtain ⟨text, root, found, hwrite, hload, hfound, hplain, -⟩ :=
    output_reads_back hmetadata hresults
  refine ⟨⟨hmetadata, hresults⟩, text, root, found, hwrite, hload, hfound, hplain.trans ?_⟩
  rfl

end Report

end TreePaths
