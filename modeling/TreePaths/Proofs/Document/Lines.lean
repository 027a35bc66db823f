import TreePaths.Document.Format
import TreePaths.Proofs.Json.Extent
import TreePaths.Proofs.Text.Lines

/-!
JSON lines: what is loaded of JSON documents that are joined with line feeds. A line ends at every
line end, and some of these may stand in a string of JSON: the next line, the line separator and the
paragraph separator.
-/

namespace TreePaths

namespace Json

section Blanks

variable {c : Char}

theorem Visible.not_isBlank (h : Visible c) : Text.isBlank c = false := by
  obtain ⟨hlow, hhigh⟩ := h
  rw [Bool.eq_false_iff]
  intro hblank
  obtain ⟨r, hr, hfirst, hlast⟩ := Text.isBlank_iff.mp hblank
  simp only [Text.blanks, List.mem_cons, List.not_mem_nil, or_false] at hr
  rcases hr with rfl | rfl | rfl | rfl | rfl | rfl | rfl | rfl | rfl | rfl
  all_goals
    dsimp only at hfirst hlast
    omega

theorem Visible.not_isLineEnd (h : Visible c) : Text.isLineEnd c = false := by
  obtain ⟨hlow, hhigh⟩ := h
  simp only [Text.isLineEnd, List.mem_cons, List.not_mem_nil, or_false, decide_eq_false_iff_not]
  omega

theorem isBlank_of_isSpace (h : isSpace c) : Text.isBlank c := by
  simp only [isSpace, Bool.or_eq_true, decide_eq_true_eq] at h
  rcases h with ((rfl | rfl) | rfl) | rfl <;> decide

theorem isBlank_of_isWideLineEnd (h : Text.isWideLineEnd c) :
    Text.isBlank c ∧ isSpace c = false := by
  simp only [Text.isWideLineEnd, List.mem_cons, List.not_mem_nil, or_false,
    decide_eq_true_eq] at h
  refine ⟨Text.isBlank_iff.mpr ?_, ?_⟩
  · rcases h with h | h | h
    · exact ⟨(0x85, 0x85), by decide, by omega, by omega⟩
    · exact ⟨(0x2028, 0x2029), by decide, by omega, by omega⟩
    · exact ⟨(0x2028, 0x2029), by decide, by omega, by omega⟩
  · rw [Bool.eq_false_iff]
    intro hspace
    simp only [isSpace, Bool.or_eq_true, decide_eq_true_eq] at hspace
    rcases hspace with ((rfl | rfl) | rfl) | rfl <;> exact absurd h (by decide)

/-- Blanks do not go on with a number. -/
theorem endsNumber_of_isBlank {ws : List Char} (hws : ∀ d ∈ ws, Text.isBlank d)
    (hc : Text.isBlank c) (cs : List Char) : EndsNumber (ws ++ c :: cs) := by
  have hcons (d : Char) (hd : Text.isBlank d) (ds : List Char) : EndsNumber (d :: ds) := by
    have hvisible : ¬Visible d := fun h => Bool.false_ne_true (h.not_isBlank.symm.trans hd)
    refine endsNumber_cons ⟨fun h => hvisible (visible_of_isDigit h), ?_, ?_, ?_⟩ ds
    all_goals
      rintro rfl
      exact hvisible (by decide)
  cases ws with
  | nil => exact hcons c hc cs
  | cons d ws => exact hcons d (hws d List.mem_cons_self) _

end Blanks

section Trimmed

variable {cs front back : List Char} {c : Char} {v : Value}

/-- A document without the blanks at its ends is the same document. -/
theorem read_trimBy (h : read cs = .ok v) :
    Text.trimBy Text.isBlank cs ≠ [] ∧ read (Text.trimBy Text.isBlank cs) = .ok v := by
  obtain ⟨lead, text, trail, rfl, hlead, htrail, hstands⟩ := read_eq_ok.mp h
  obtain ⟨c, tail, rfl, hc⟩ := id hstands.starts
  obtain ⟨_, d, hlast, hd⟩ := hstands.ends
  rw [Text.trimBy_append (fun d hd => isBlank_of_isSpace (hlead d hd))
    (fun d hd => isBlank_of_isSpace (htrail d hd)) ⟨c, tail, rfl, hc.1.not_isBlank⟩
    ⟨_, d, hlast, hd.not_isBlank⟩]
  exact ⟨List.cons_ne_nil c tail,
    read_eq_ok.mpr ⟨[], _, [], (List.append_nil _).symm, nofun, nofun, hstands⟩⟩

/-- If two texts of values start at the same place, they end at the same place. -/
theorem Stands.unique {text text' rest rest' : List Char} {v v' : Value}
    (h : Stands readValue text v) (h' : Stands readValue text' v')
    (heq : text ++ rest = text' ++ rest') (hrest : EndsNumber rest) (hrest' : EndsNumber rest') :
    v = v' ∧ rest = rest' := by
  have hread := h.reads (2 * text.length + 2 * text'.length) rest (by omega) hrest
  rw [heq, h'.reads _ rest' (by omega) hrest'] at hread
  obtain ⟨hv, hrest⟩ := Prod.mk.inj (Except.ok.inj hread)
  exact ⟨hv.symm, hrest.symm⟩

theorem Stands.dropWhile_isBlank {text lead : List Char} (h : Stands readValue text v)
    (hlead : ∀ d ∈ lead, Text.isBlank d) (rest : List Char) :
    (lead ++ (text ++ rest)).dropWhile Text.isBlank = text ++ rest := by
  obtain ⟨c, tail, rfl, hc⟩ := h.starts
  rw [List.dropWhile_append_of_pos hlead]
  exact List.dropWhile_cons_of_neg (by simp [hc.1.not_isBlank])

/-- What stands in front of a blank is no document if the whole is one and JSON does not know the
blank. -/
theorem read_trimBy_front (h : read (front ++ c :: back) = .ok v) (hblank : Text.isBlank c)
    (hspace : isSpace c = false) :
    Text.trimBy Text.isBlank front ≠ [] ∧
      ∃ e, read (Text.trimBy Text.isBlank front) = .error e := by
  obtain ⟨lead, text, trail, hwhole, hlead, htrail, hstands⟩ := read_eq_ok.mp h
  obtain ⟨ahead, behind, hfront, hahead, hbehind⟩ := Text.trimBy_split Text.isBlank front
  have hskip := hstands.dropWhile_isBlank (fun d hd => isBlank_of_isSpace (hlead d hd)) trail
  have hnot {ws : List Char} (hws : ∀ d ∈ ws, isSpace d) : c ∉ ws :=
    fun hc => Bool.false_ne_true (hspace.symm.trans (hws c hc))
  refine ⟨fun hnil => hnot hlead ?_, ?_⟩
  · -- The blanks in front of the value are those that JSON knows.
    have hlead' : (front ++ c :: back).takeWhile Text.isBlank = lead := by
      have hsplit := List.takeWhile_append_dropWhile (p := Text.isBlank) (l := front ++ c :: back)
      rw [hwhole, hskip] at hsplit
      rw [hwhole]
      exact List.append_cancel_right hsplit
    have hfront' : ∀ d ∈ front, Text.isBlank d := by
      rw [hfront, hnil, List.nil_append]
      exact List.forall_mem_append.mpr ⟨hahead, hbehind⟩
    rw [← hlead', List.takeWhile_append_of_pos hfront', List.takeWhile_cons_of_pos hblank]
    exact List.mem_append_right _ List.mem_cons_self
  · cases hread : read (Text.trimBy Text.isBlank front) with
    | error e => exact ⟨e, rfl⟩
    | ok w =>
      exfalso
      obtain ⟨lead', text', trail', htrim, hlead', htrail', hstands'⟩ := read_eq_ok.mp hread
      have hws : ∀ d ∈ ahead ++ lead', Text.isBlank d :=
        List.forall_mem_append.mpr ⟨hahead, fun d hd => isBlank_of_isSpace (hlead' d hd)⟩
      have hws' : ∀ d ∈ trail' ++ behind, Text.isBlank d :=
        List.forall_mem_append.mpr ⟨fun d hd => isBlank_of_isSpace (htrail' d hd), hbehind⟩
      have hsplit : lead ++ (text ++ trail) =
          (ahead ++ lead') ++ (text' ++ (trail' ++ behind ++ c :: back)) := by
        rw [← hwhole, hfront, htrim]
        simp only [List.append_assoc]
      -- Both values start at the first character that is no blank, so they end at one place.
      rw [hsplit, hstands'.dropWhile_isBlank hws] at hskip
      obtain ⟨-, hrest⟩ := hstands.unique hstands' hskip.symm (endsNumber_of_isSpace htrail)
        (endsNumber_of_isBlank hws' hblank back)
      exact hnot htrail (hrest ▸ List.mem_append_right _ List.mem_cons_self)

theorem plain_of_read (h : read cs = .ok v) : Plain cs := by
  obtain ⟨lead, text, trail, rfl, hlead, htrail, hstands⟩ := read_eq_ok.mp h
  exact plain_append.mpr ⟨plain_of_isSpace hlead,
    plain_append.mpr ⟨hstands.plain, plain_of_isSpace htrail⟩⟩

/-- In a document on one line only the line ends that JSON does not know are line ends. -/
theorem isWideLineEnd_of_read (h : read cs = .ok v) (hline : '\n' ∉ cs ∧ '\r' ∉ cs) (hc : c ∈ cs)
    (hend : Text.isLineEnd c) : Text.isWideLineEnd c := by
  simp only [Text.isLineEnd, List.mem_cons, List.not_mem_nil, or_false, decide_eq_true_eq] at hend
  simp only [Text.isWideLineEnd, List.mem_cons, List.not_mem_nil, or_false, decide_eq_true_eq]
  rcases plain_of_read h c hc with hplain | hspace
  · omega
  · simp only [isSpace, Bool.or_eq_true, decide_eq_true_eq] at hspace
    rcases hspace with ((rfl | rfl) | rfl) | rfl
    · exact absurd hend (by decide)
    · exact absurd hend (by decide)
    · exact absurd hc hline.1
    · exact absurd hc hline.2

/-- A document with a line end is cut at the first one. -/
theorem exists_cut_of_read (h : read cs = .ok v) (hline : '\n' ∉ cs ∧ '\r' ∉ cs) (hc : c ∈ cs)
    (hend : Text.isLineEnd c) : ∃ front d back, cs = front ++ d :: back ∧
      (∀ e ∈ front, Text.isLineEnd e = false) ∧ Text.isWideLineEnd d := by
  have hsplit := List.takeWhile_append_dropWhile (p := fun e => !Text.isLineEnd e) (l := cs)
  cases hback : cs.dropWhile fun e => !Text.isLineEnd e with
  | nil =>
    have hnone := List.dropWhile_eq_nil_iff.mp hback c hc
    rw [hend] at hnone
    cases hnone
  | cons d back =>
    rw [hback] at hsplit
    refine ⟨_, d, back, hsplit.symm, fun e he => ?_, ?_⟩
    · simpa using List.mem_takeWhile_imp he
    · have hd : d ∈ cs := hsplit ▸ List.mem_append_right _ List.mem_cons_self
      refine isWideLineEnd_of_read h hline hd ?_
      have hhead := List.head?_dropWhile_not (fun e => !Text.isLineEnd e) cs
      rw [hback] at hhead
      simpa using hhead

end Trimmed

end Json

namespace Format

section Lines

variable {cs : List Char} {texts : List (List Char)} {v : Value} {vs : List Value}

theorem loadLines_cons_of_read (h : Json.read cs = .ok v) (n : Nat) (ls : List (List Char)) :
    loadLines n (cs :: ls) = (loadLines (n + 1) ls).map (v :: ·) := by
  obtain ⟨hne, hread⟩ := Json.read_trimBy h
  rw [loadLines]
  split
  next heq => exact absurd heq hne
  next =>
    rw [loadJson, hread]
    cases loadLines (n + 1) ls <;> rfl

/-- If the first line is not blank and cannot be read, nothing is loaded. -/
theorem loadLines_cons_of_error (hne : Text.trimBy Text.isBlank cs ≠ [])
    (herror : ∃ e, Json.read (Text.trimBy Text.isBlank cs) = .error e) (n : Nat)
    (ls : List (List Char)) : ∃ e, loadLines n (cs :: ls) = .error e := by
  obtain ⟨e, he⟩ := herror
  rw [loadLines]
  split
  next heq => exact absurd heq hne
  next =>
    rw [loadJson, he]
    cases e <;> exact ⟨_, rfl⟩

/-- The first of several texts that are joined with line feeds is the first line, if it is one. -/
theorem lines_joined (hcs : ∀ d ∈ cs, Text.isLineEnd d = false) (hne : cs ≠ []) :
    Text.lines (['\n'].intercalate (cs :: texts)) =
      cs :: Text.lines (['\n'].intercalate texts) := by
  cases texts with
  | nil =>
    rw [List.intercalate_singleton, Text.lines_of_forall hcs hne]
    rfl
  | cons text texts =>
    rw [List.intercalate_cons_cons, List.append_assoc, List.singleton_append,
      Text.lines_append hcs (by decide) (by decide)]

/-- A text that is cut by a line end: the first line is what stands in front of it. -/
theorem lines_joined_cut {front back : List Char} {d : Char}
    (hfront : ∀ e ∈ front, Text.isLineEnd e = false) (hd : Text.isWideLineEnd d) :
    ∃ ls, Text.lines (['\n'].intercalate ((front ++ d :: back) :: texts)) = front :: ls := by
  obtain ⟨more, hmore⟩ : ∃ more,
      ['\n'].intercalate ((front ++ d :: back) :: texts) = front ++ d :: more := by
    cases texts with
    | nil => exact ⟨back, List.intercalate_singleton⟩
    | cons text texts =>
      rw [List.intercalate_cons_cons, List.append_assoc, List.append_assoc, List.cons_append]
      exact ⟨_, rfl⟩
  refine ⟨_, hmore ▸ Text.lines_append hfront (Text.isLineEnd_of_wide hd) ?_⟩
  rintro rfl
  revert hd
  decide

/-- The documents of joined texts are loaded one after another, up to the first text that is cut by
a line end. -/
theorem loadLines_joined (hread : List.Forall₂ (fun cs v => Json.read cs = .ok v) texts vs)
    (hline : ∀ cs ∈ texts, '\n' ∉ cs ∧ '\r' ∉ cs) (n : Nat) :
    ((∀ cs ∈ texts, ∀ c ∈ cs, Text.isWideLineEnd c = false) →
      loadLines n (Text.lines (['\n'].intercalate texts)) = .ok vs) ∧
    ((∃ cs ∈ texts, ∃ c ∈ cs, Text.isWideLineEnd c) →
      ∃ e, loadLines n (Text.lines (['\n'].intercalate texts)) = .error e) := by
  induction hread generalizing n with
  | nil => exact ⟨fun _ => rfl, nofun⟩
  | @cons cs v texts vs hcs hrest ih =>
    obtain ⟨hhead, htail⟩ := List.forall_mem_cons.mp hline
    obtain ⟨hok, herror⟩ := ih htail (n + 1)
    by_cases hcut : ∃ c ∈ cs, Text.isLineEnd c
    · obtain ⟨c, hc, hend⟩ := hcut
      have hwide := Json.isWideLineEnd_of_read hcs hhead hc hend
      refine ⟨fun hnone => ?_, fun _ => ?_⟩
      · rw [hnone cs List.mem_cons_self c hc] at hwide
        cases hwide
      · obtain ⟨front, d, back, rfl, hfront, hd⟩ := Json.exists_cut_of_read hcs hhead hc hend
        obtain ⟨hblank, hspace⟩ := Json.isBlank_of_isWideLineEnd hd
        obtain ⟨hne, hfails⟩ := Json.read_trimBy_front hcs hblank hspace
        obtain ⟨ls, hls⟩ := lines_joined_cut hfront hd
        rw [hls]
        exact loadLines_cons_of_error hne hfails n ls
    · have huncut : ∀ c ∈ cs, Text.isLineEnd c = false :=
        fun c hc => Bool.eq_false_iff.mpr fun hend => hcut ⟨c, hc, hend⟩
      have hne : cs ≠ [] := by
        rintro rfl
        exact (Json.read_trimBy hcs).1 rfl
      rw [lines_joined huncut hne, loadLines_cons_of_read hcs]
      refine ⟨fun hnone => ?_, fun hsome => ?_⟩
      · rw [hok fun t ht => hnone t (List.mem_cons_of_mem cs ht)]
        rfl
      · have hlater : ∃ t ∈ texts, ∃ c ∈ t, Text.isWideLineEnd c := by
          obtain ⟨t, ht, c, hc, hd⟩ := hsome
          rcases List.mem_cons.mp ht with rfl | ht
          · exact absurd ⟨c, hc, Text.isLineEnd_of_wide hd⟩ hcut
          · exact ⟨t, ht, c, hc, hd⟩
        obtain ⟨e, he⟩ := herror hlater
        exact ⟨e, by rw [he]; rfl⟩

/-- The roots of JSON documents are those that are read of their texts. -/
theorem exists_read_of_load {texts : List String} {roots : List (List Value)}
    (hload : List.Forall₂ (fun text vs => json.load text = .ok vs) texts roots) :
    ∃ vs, List.Forall₂ (fun cs v => Json.read cs = .ok v) (texts.map String.toList) vs ∧
      roots.flatten = vs := by
  induction hload with
  | nil => exact ⟨[], .nil, rfl⟩
  | @cons text root texts roots htext hrest ih =>
    obtain ⟨vs, hvs, rfl⟩ := ih
    have hjson : (loadJson none text.toList).map (fun v => [v]) = .ok root := htext
    unfold loadJson at hjson
    split at hjson
    next v hread =>
      obtain rfl := Except.ok.inj hjson
      exact ⟨v :: roots.flatten, .cons hread hvs, rfl⟩
    · cases hjson
    · cases hjson

/-- JSON documents, each on one line, that are joined with line feeds are loaded as JSON lines
exactly if no next line, line separator or paragraph separator stands in them; otherwise nothing is
loaded. -/
theorem load_joined {texts : List String} {roots : List (List Value)}
    (hload : List.Forall₂ (fun text vs => json.load text = .ok vs) texts roots)
    (hline : ∀ text ∈ texts, '\n' ∉ text.toList ∧ '\r' ∉ text.toList) :
    (jsonLines.load ("\n".intercalate texts) = .ok roots.flatten ↔
      ∀ text ∈ texts, ∀ c ∈ text.toList, Text.isWideLineEnd c = false) ∧
    ((∃ text ∈ texts, ∃ c ∈ text.toList, Text.isWideLineEnd c) →
      ∃ e, jsonLines.load ("\n".intercalate texts) = .error e) := by
  obtain ⟨vs, hread, hvs⟩ := exists_read_of_load hload
  obtain ⟨hok, herror⟩ := loadLines_joined hread (List.forall_mem_map.mpr hline) 1
  have hjoined : jsonLines.load ("\n".intercalate texts) =
      loadLines 1 (Text.lines (['\n'].intercalate (texts.map String.toList))) := by
    have hfeed : "\n".toList = ['\n'] := rfl
    show loadLines 1 (Text.lines ("\n".intercalate texts).toList) = _
    rw [String.toList_intercalate, hfeed]
  have hfails : (∃ text ∈ texts, ∃ c ∈ text.toList, Text.isWideLineEnd c) →
      ∃ e, jsonLines.load ("\n".intercalate texts) = .error e := by
    rintro ⟨text, htext, hwide⟩
    rw [hjoined]
    exact herror ⟨text.toList, List.mem_map_of_mem htext, hwide⟩
  refine ⟨⟨fun h text htext c hc => Bool.eq_false_iff.mpr fun hwide => ?_, fun hnone => ?_⟩, hfails⟩
  · obtain ⟨e, he⟩ := hfails ⟨text, htext, c, hc, hwide⟩
    rw [he] at h
    cases h
  · rw [hjoined, hvs]
    exact hok (List.forall_mem_map.mpr hnone)

theorem load_joined_sample :
    (List.Forall₂ (fun text vs => json.load text = .ok vs) [" \"a\" ", "null", "\"\\u2028\""]
        [[.str "a"], [.null], [.str "\u2028"]] ∧
      ∀ text ∈ [" \"a\" ", "null", "\"\\u2028\""], '\n' ∉ text.toList ∧ '\r' ∉ text.toList) ∧
    jsonLines.load ("\n".intercalate [" \"a\" ", "null", "\"\\u2028\""]) =
      .ok [.str "a", .null, .str "\u2028"] := by
  have hload : List.Forall₂ (fun text vs => json.load text = .ok vs)
      [" \"a\" ", "null", "\"\\u2028\""] [[.str "a"], [.null], [.str "\u2028"]] :=
    .cons rfl (.cons rfl (.cons rfl .nil))
  have hline : ∀ text ∈ [" \"a\" ", "null", "\"\\u2028\""],
      '\n' ∉ text.toList ∧ '\r' ∉ text.toList := by decide
  have hnarrow : [" \"a\" ", "null", "\"\\u2028\""].all fun text =>
      text.toList.all fun c => !Text.isWideLineEnd c := rfl
  exact ⟨⟨hload, hline⟩, (load_joined hload hline).1.mpr (by simpa using hnarrow)⟩

/-- A string with a line separator in it is a document, but no line of JSON. -/
theorem load_lineSeparator :
    ('\n' ∉ "\"a\u2028b\"".toList ∧ '\r' ∉ "\"a\u2028b\"".toList) ∧
      json.load "\"a\u2028b\"" = .ok [.str "a\u2028b"] ∧
      jsonLines.load ("\n".intercalate ["\"a\u2028b\""]) =
        .error (.json (some 1) .unterminatedString (.after [])) :=
  ⟨by decide, rfl, rfl⟩

end Lines

end Format

end TreePaths
