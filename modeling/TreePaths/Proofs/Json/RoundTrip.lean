import TreePaths.Proofs.Json.Steps
import TreePaths.Proofs.Json.Text
import TreePaths.Proofs.Value.Plain
import TreePaths.Proofs.Value.Trail

/-!
Values in JSON: plain data that has been written is read back, as structs for its maps and texts for
its dates.
-/

namespace TreePaths

namespace Value

/-- Data that a JSON text can hold: without floating-point numbers, with integers that are not too
long, and with maps under different texts and lists as the only containers. -/
inductive Storable : Value → Prop where
  | null : Storable .null
  | bool (b : Bool) : Storable (.bool b)
  | int {i : Int} (hi : Text.isWritable i) : Storable (.int i)
  | str (s : String) : Storable (.str s)
  | date (d : Date) : Storable (.date d)
  | moment (t : Moment) : Storable (.moment t)
  | list {vs : List Value} (hvs : ∀ v ∈ vs, Storable v) : Storable (.list vs)
  | record {fields : List (String × Value)} (hnames : (fields.map (·.1)).Nodup)
      (hfields : ∀ f ∈ fields, Storable f.2) : Storable (.record fields)

mutual

def undated : Value → Value
  | date d => str d.iso
  | moment t => str t.iso
  | list vs => list (undatedAll vs)
  | map es => map (undatedEntries es)
  | v => v

def undatedAll : List Value → List Value
  | [] => []
  | v :: vs => undated v :: undatedAll vs

def undatedEntries : List (Value × Value) → List (Value × Value)
  | [] => []
  | (k, v) :: es => (k, undated v) :: undatedEntries es

end

mutual

/-- What a JSON text in which the value has been written is read as. -/
def reread : Value → Value
  | date d => str d.iso
  | moment t => str t.iso
  | list vs => list (rereadAll vs)
  | map es => struct (rereadEntries es)
  | v => v

def rereadAll : List Value → List Value
  | [] => []
  | v :: vs => reread v :: rereadAll vs

def rereadEntries : List (Value × Value) → List (String × Value)
  | [] => []
  | (k, v) :: es => (k.label, reread v) :: rereadEntries es

end

theorem undatedAll_eq (vs : List Value) : undatedAll vs = vs.map undated := by
  induction vs with
  | nil => rfl
  | cons v vs ih => rw [undatedAll, ih, List.map_cons]

theorem rereadAll_eq (vs : List Value) : rereadAll vs = vs.map reread := by
  induction vs with
  | nil => rfl
  | cons v vs ih => rw [rereadAll, ih, List.map_cons]

theorem undated_record (fields : List (String × Value)) :
    (record fields).undated = record (fields.map fun f => (f.1, f.2.undated)) := by
  have hentries : undatedEntries (fields.map fun f => (str f.1, f.2)) =
      (fields.map fun f => (f.1, f.2.undated)).map fun f => (str f.1, f.2) := by
    induction fields with
    | nil => rfl
    | cons f fields ih =>
      simp only [List.map_cons, undatedEntries]
      rw [ih]
  exact congrArg map hentries

theorem reread_record (fields : List (String × Value)) :
    (record fields).reread = struct (fields.map fun f => (f.1, f.2.reread)) := by
  have hentries : rereadEntries (fields.map fun f => (str f.1, f.2)) =
      fields.map fun f => (f.1, f.2.reread) := by
    induction fields with
    | nil => rfl
    | cons f fields ih =>
      simp only [List.map_cons, rereadEntries]
      rw [ih]
      rfl
  exact congrArg struct hentries

/-- What is read back is the value as plain data. -/
theorem plain_reread {v : Value} (h : v.Storable) : v.reread.plain = v.undated := by
  induction h with
  | null | bool | int | str | date | moment => rfl
  | @list vs hvs ih =>
    have hmap : (vs.map reread).map plain = vs.map undated := by
      rw [List.map_map]
      exact List.map_congr_left ih
    rw [reread, undated, rereadAll_eq, undatedAll_eq, plain, plainAll_eq, hmap]
  | @record fields hnames hfields ih =>
    have hmap : (fields.map fun f => (f.1, f.2.reread)).map (fun f => (f.1, f.2.plain)) =
        fields.map fun f => (f.1, f.2.undated) := by
      rw [List.map_map]
      exact List.map_congr_left fun f hf => congrArg (Prod.mk f.1) (ih f hf)
    have hnodup : ((fields.map fun f => (f.1, f.2.undated)).map (·.1)).Nodup := by
      rw [List.map_map]
      exact hnames
    rw [reread_record, undated_record, plain, plainFields_eq, hmap, ofFields_of_nodup hnodup]

end Value

namespace Json

/-- The text goes on as it does behind a value in a document. -/
def EndsValue (rest : List Char) : Prop :=
  ∀ c cs, rest = c :: cs → c = ',' ∨ c = '\n'

theorem EndsValue.endsNumber {rest : List Char} (h : EndsValue rest) : EndsNumber rest := by
  intro c cs hcs
  rcases h c cs hcs with rfl | rfl <;> exact ⟨by decide, by decide, by decide, by decide⟩

theorem endsValue_nil : EndsValue [] := by
  intro c cs h
  cases h

theorem endsValue_comma (rest : List Char) : EndsValue (',' :: rest) := by
  intro c cs h
  cases h
  exact .inl rfl

theorem endsValue_newLine (level : Nat) (rest : List Char) :
    EndsValue (newLine level ++ rest) := by
  intro c cs h
  cases h
  exact .inr rfl

/-- Blanks, the end of a list and a byte order mark are no starts of a value. -/
def isStart (c : Char) : Bool :=
  !isSpace c && c ≠ ']' && c ≠ '\ufeff'

theorem isSpace_of_isStart {c : Char} (h : isStart c) : isSpace c = false := by
  simp only [isStart, Bool.and_eq_true, Bool.not_eq_true'] at h
  exact h.1.1

theorem ne_of_isStart {c d : Char} (h : isStart c) (hd : isStart d = false) : c ≠ d := by
  rintro rfl
  rw [h] at hd
  cases hd

/-- The text of a value: it is read as `w` wherever a value may end behind it. -/
structure Spells (text : List Char) (w : Value) : Prop where
  starts : ∃ c cs, text = c :: cs ∧ isStart c
  reads : ∀ fuel rest, 2 * text.length ≤ fuel → EndsValue rest →
    readValue fuel (text ++ rest) = .ok (w, rest)

theorem skipSpace_newLine {level : Nat} {c : Char} {cs : List Char} (hc : isSpace c = false) :
    skipSpace (newLine level ++ c :: cs) = c :: cs := by
  have hblank : ∀ d ∈ newLine level, isSpace d := by
    intro d hd
    rcases List.mem_cons.mp hd with rfl | hd
    · rfl
    · rw [List.eq_of_mem_replicate hd]
      rfl
  rw [skipSpace, List.dropWhile_append_of_pos hblank,
    List.dropWhile_cons_of_neg (by rw [hc]; exact Bool.false_ne_true)]

theorem skipSpace_of_not_isSpace {c : Char} {cs : List Char} (hc : isSpace c = false) :
    skipSpace (c :: cs) = c :: cs :=
  List.dropWhile_cons_of_neg (by rw [hc]; exact Bool.false_ne_true)

/-- A value that is neither a string nor a container. -/
theorem spells_of_readAtom {text : List Char} {w : Value} {c : Char} {cs : List Char}
    (htext : text = c :: cs) (hstart : isStart c) (hquote : c ≠ '"') (hlist : c ≠ '[')
    (hmap : c ≠ '\x7b')
    (hatom : ∀ rest, EndsValue rest → readAtom (text ++ rest) = .ok (w, rest)) :
    Spells text w := by
  refine ⟨⟨c, cs, htext, hstart⟩, fun fuel rest hfuel hrest => ?_⟩
  rw [← hatom rest hrest]
  subst htext
  obtain ⟨fuel, rfl⟩ : ∃ n, fuel = n + 1 :=
    Nat.exists_eq_add_one_of_ne_zero (by rw [List.length_cons] at hfuel; omega)
  rw [List.cons_append]
  conv => lhs; unfold readValue
  split
  next heq => exact absurd (List.cons.inj heq).1 hquote
  next heq => exact absurd (List.cons.inj heq).1 hlist
  next heq => exact absurd (List.cons.inj heq).1 hmap
  next => rfl

theorem spells_string (s : String) : Spells (writeString s) (.str s) := by
  refine ⟨⟨'"', _, rfl, rfl⟩, fun fuel rest hfuel _ => ?_⟩
  obtain ⟨fuel, rfl⟩ : ∃ n, fuel = n + 1 :=
    Nat.exists_eq_add_one_of_ne_zero (by simp only [writeString, List.length_cons] at hfuel; omega)
  have hquoted := readQuoted_writeString s rest
  rw [writeString, List.cons_append] at hquoted ⊢
  unfold readValue
  rw [hquoted]
  rfl

section Containers

/-- The first of several texts between separators starts the whole. -/
theorem head_intercalate (separator : List Char) {text : List Char} (texts : List (List Char))
    {c : Char} {cs : List Char} (h : text = c :: cs) :
    ∃ ds, separator.intercalate (text :: texts) = c :: ds := by
  subst h
  cases texts with
  | nil => exact ⟨cs, List.intercalate_singleton⟩
  | cons t texts =>
    rw [List.intercalate_cons_cons]
    exact ⟨_, rfl⟩

/-- Items between commas and new lines are read back. -/
theorem readItems_spelled (level inner : Nat) (rest : List Char) {texts : List (List Char)}
    {ws : List Value} (hspells : List.Forall₂ Spells texts ws) (hne : texts ≠ []) (fuel : Nat)
    (done : List Value)
    (hfuel : 2 * ((',' :: newLine inner).intercalate texts).length < fuel) :
    readItems fuel done
      ((',' :: newLine inner).intercalate texts ++ (newLine level ++ ']' :: rest)) =
        .ok (.list (done.reverse ++ ws), rest) := by
  induction hspells generalizing fuel done with
  | nil => exact absurd rfl hne
  | @cons text w texts ws hw hws ih =>
    obtain ⟨fuel, rfl⟩ := Nat.exists_eq_add_one_of_ne_zero (Nat.ne_of_gt (Nat.zero_lt_of_lt hfuel))
    rw [readItems]
    cases hws with
    | nil =>
      rw [List.intercalate_singleton] at hfuel ⊢
      rw [hw.reads fuel _ (by omega) (endsValue_newLine level _)]
      dsimp only
      rw [skipSpace_newLine rfl, List.reverse_cons]
      rfl
    | @cons text' w' texts ws hw' hws =>
      obtain ⟨c, cs, hc, hstart⟩ := hw'.starts
      obtain ⟨ds, hds⟩ := head_intercalate (',' :: newLine inner) texts hc
      rw [List.intercalate_cons_cons] at hfuel ⊢
      have ih := ih (List.cons_ne_nil _ _) fuel (w :: done)
        (by simp only [List.length_append, List.length_cons] at hfuel; omega)
      rw [List.append_assoc, List.append_assoc, List.cons_append, hw.reads fuel _
        (by simp only [List.length_append] at hfuel; omega) (endsValue_comma _)]
      dsimp only
      rw [skipSpace_of_not_isSpace rfl]
      rw [hds, List.cons_append] at ih ⊢
      show readItems fuel (w :: done) (skipSpace (newLine inner ++ _)) = _
      rw [skipSpace_newLine (isSpace_of_isStart hstart), ih, List.reverse_cons, List.append_assoc]
      rfl

def memberText (name : String) (text : List Char) : List Char :=
  writeString name ++ ':' :: ' ' :: text

def SpellsMember (text : List Char) (field : String × Value) : Prop :=
  ∃ value, text = memberText field.1 value ∧ Spells value field.2

/-- The name, the colon and the blank are read, and then the value; what stands behind it decides
how it goes on. -/
theorem readMembers_memberText {fuel : Nat} {name : String} {value more : List Char} {v : Value}
    (hvalue : Spells value v) (hmore : EndsValue more)
    (hlength : 2 * (memberText name value).length ≤ fuel) (done : List (String × Value)) :
    readMembers (fuel + 1) done (memberText name value ++ more) =
      readBehind '\x7d' (.struct ((name, v) :: done).reverse) (readMembers fuel ((name, v) :: done))
        (skipSpace more) := by
  obtain ⟨c, cs, rfl, hstart⟩ := hvalue.starts
  have hquoted := readQuoted_writeString name (':' :: ' ' :: c :: cs ++ more)
  have hread := hvalue.reads fuel more
    (by simp only [memberText, List.length_append, List.length_cons] at hlength ⊢; omega) hmore
  have hblank : skipSpace (' ' :: c :: (cs ++ more)) = c :: (cs ++ more) :=
    skipSpace_of_not_isSpace (isSpace_of_isStart hstart)
  rw [memberText, List.append_assoc]
  rw [writeString, List.cons_append] at hquoted ⊢
  dsimp only [List.cons_append] at hquoted hread ⊢
  rw [readMembers_eq hquoted (skipSpace_of_not_isSpace rfl), hblank, hread]

/-- Members between commas and new lines are read back. -/
theorem readMembers_spelled (level inner : Nat) (rest : List Char) {texts : List (List Char)}
    {fields : List (String × Value)} (hspells : List.Forall₂ SpellsMember texts fields)
    (hne : texts ≠ []) (fuel : Nat) (done : List (String × Value))
    (hfuel : 2 * ((',' :: newLine inner).intercalate texts).length < fuel) :
    readMembers fuel done
      ((',' :: newLine inner).intercalate texts ++ (newLine level ++ '\x7d' :: rest)) =
        .ok (.struct (done.reverse ++ fields), rest) := by
  induction hspells generalizing fuel done with
  | nil => exact absurd rfl hne
  | @cons text field texts fields hfield hfields ih =>
    obtain ⟨fuel, rfl⟩ := Nat.exists_eq_add_one_of_ne_zero (Nat.ne_of_gt (Nat.zero_lt_of_lt hfuel))
    obtain ⟨value, rfl, hvalue⟩ := hfield
    cases hfields with
    | nil =>
      rw [List.intercalate_singleton] at hfuel ⊢
      rw [readMembers_memberText hvalue (endsValue_newLine level _) (by omega),
        skipSpace_newLine rfl, List.reverse_cons]
      rfl
    | @cons text' field' texts fields hfield' hfields =>
      obtain ⟨value', rfl, -⟩ := hfield'
      obtain ⟨ds, hds⟩ := head_intercalate (',' :: newLine inner) texts
        (show memberText field'.1 value' = '"' :: _ from rfl)
      rw [List.intercalate_cons_cons] at hfuel ⊢
      have ih := ih (List.cons_ne_nil _ _) fuel (field :: done)
        (by simp only [List.length_append, List.length_cons] at hfuel; omega)
      rw [List.append_assoc, List.append_assoc, List.cons_append,
        readMembers_memberText hvalue (endsValue_comma _)
          (by simp only [List.length_append] at hfuel; omega),
        skipSpace_of_not_isSpace rfl]
      rw [hds, List.cons_append] at ih ⊢
      show readMembers fuel (field :: done) (skipSpace (newLine inner ++ _)) = _
      rw [skipSpace_newLine rfl, ih, List.reverse_cons, List.append_assoc]
      rfl

theorem length_block (opening closing : Char) (level : Nat) {texts : List (List Char)}
    (hne : texts ≠ []) :
    ((',' :: newLine (level + 1)).intercalate texts).length + 4 ≤
      (block opening closing level texts).length := by
  unfold block
  split
  next => exact absurd rfl hne
  next =>
    simp only [newLine, List.length_append, List.length_cons, List.length_nil]
    omega

/-- A block of texts between brackets spells the list of what the texts spell. -/
theorem spells_list {texts : List (List Char)} {ws : List Value} (level : Nat)
    (hspells : List.Forall₂ Spells texts ws) : Spells (block '[' ']' level texts) (.list ws) := by
  have hstart : ∃ cs, block '[' ']' level texts = '[' :: cs := by
    unfold block
    split <;> exact ⟨_, rfl⟩
  obtain ⟨cs, hcs⟩ := hstart
  refine ⟨⟨'[', cs, hcs, rfl⟩, fun fuel rest hfuel _ => ?_⟩
  obtain ⟨fuel, rfl⟩ : ∃ n, fuel = n + 1 :=
    Nat.exists_eq_add_one_of_ne_zero (by rw [hcs, List.length_cons] at hfuel; omega)
  cases hspells with
  | nil => rfl
  | @cons text w texts ws hw hws =>
    obtain ⟨c, ds, hc, hstart⟩ := hw.starts
    obtain ⟨es, hes⟩ := head_intercalate (',' :: newLine (level + 1)) texts hc
    have hne : text :: texts ≠ [] := List.cons_ne_nil _ _
    have hlength := length_block '[' ']' level hne
    have hitems := readItems_spelled level (level + 1) rest
      (.cons hw hws) hne fuel [] (by omega)
    have htext : block '[' ']' level (text :: texts) ++ rest = '[' :: (newLine (level + 1) ++
        ((',' :: newLine (level + 1)).intercalate (text :: texts) ++
          (newLine level ++ ']' :: rest))) := by
      simp only [block, List.append_assoc, List.cons_append, List.nil_append]
    rw [hes, List.cons_append] at hitems htext
    rw [List.reverse_nil, List.nil_append] at hitems
    rw [htext, ← hitems]
    rw [readValue_list, skipSpace_newLine (isSpace_of_isStart hstart)]
    exact if_neg (ne_of_isStart hstart rfl)

/-- A block of members between braces spells the struct of these members. -/
theorem spells_struct {texts : List (List Char)} {fields : List (String × Value)} (level : Nat)
    (hspells : List.Forall₂ SpellsMember texts fields) :
    Spells (block '\x7b' '\x7d' level texts) (.struct fields) := by
  have hstart : ∃ cs, block '\x7b' '\x7d' level texts = '\x7b' :: cs := by
    unfold block
    split <;> exact ⟨_, rfl⟩
  obtain ⟨cs, hcs⟩ := hstart
  refine ⟨⟨'\x7b', cs, hcs, rfl⟩, fun fuel rest hfuel _ => ?_⟩
  obtain ⟨fuel, rfl⟩ : ∃ n, fuel = n + 1 :=
    Nat.exists_eq_add_one_of_ne_zero (by rw [hcs, List.length_cons] at hfuel; omega)
  cases hspells with
  | nil => rfl
  | @cons text field texts fields hfield hfields =>
    obtain ⟨value, hvalue, -⟩ := id hfield
    obtain ⟨es, hes⟩ := head_intercalate (',' :: newLine (level + 1)) texts
      (show text = '"' :: _ from hvalue)
    have hne : text :: texts ≠ [] := List.cons_ne_nil _ _
    have hlength := length_block '\x7b' '\x7d' level hne
    have hmembers := readMembers_spelled level (level + 1) rest
      (.cons hfield hfields) hne fuel [] (by omega)
    have htext : block '\x7b' '\x7d' level (text :: texts) ++ rest = '\x7b' ::
        (newLine (level + 1) ++ ((',' :: newLine (level + 1)).intercalate (text :: texts) ++
          (newLine level ++ '\x7d' :: rest))) := by
      simp only [block, List.append_assoc, List.cons_append, List.nil_append]
    rw [hes, List.cons_append] at hmembers htext
    rw [List.reverse_nil, List.nil_append] at hmembers
    rw [htext, ← hmembers]
    rw [readValue_struct, skipSpace_newLine rfl]
    rfl

end Containers

section Values

theorem spells_null : Spells "null".toList .null :=
  spells_of_readAtom (c := 'n') rfl rfl (by decide) (by decide) (by decide) fun _ _ => rfl

theorem spells_bool (b : Bool) : Spells (if b then "true" else "false").toList (.bool b) := by
  cases b with
  | true =>
    exact spells_of_readAtom (c := 't') rfl rfl (by decide) (by decide) (by decide) fun _ _ => rfl
  | false =>
    exact spells_of_readAtom (c := 'f') rfl rfl (by decide) (by decide) (by decide) fun _ _ => rfl

inductive StartsNumber : List Char → Prop where
  | digit {d : Char} {cs : List Char} (hd : d.isDigit) : StartsNumber (d :: cs)
  | minus {d : Char} {cs : List Char} (hd : d.isDigit) : StartsNumber ('-' :: d :: cs)

theorem startsNumber_toString (i : Int) : StartsNumber (toString i).toList := by
  obtain ⟨d, ds, hds⟩ : ∃ d ds, Nat.toDigits 10 i.natAbs = d :: ds :=
    List.exists_cons_of_ne_nil Nat.toDigits_ne_nil
  have hd : d.isDigit := isDigit_of_mem_toDigits d (hds ▸ List.mem_cons_self)
  rw [toList_toString, hds]
  by_cases hneg : i < 0
  · rw [if_pos hneg]
    exact .minus hd
  · rw [if_neg hneg]
    exact .digit hd

theorem StartsNumber.eq_cons {cs : List Char} (h : StartsNumber cs) : ∃ d ds, cs = d :: ds := by
  cases h with
  | digit => exact ⟨_, _, rfl⟩
  | minus => exact ⟨_, _, rfl⟩

theorem StartsNumber.append {cs : List Char} (h : StartsNumber cs) (rest : List Char) :
    StartsNumber (cs ++ rest) := by
  cases h with
  | digit hd => exact .digit hd
  | minus hd => exact .minus hd

theorem StartsNumber.ne {c d : Char} {cs : List Char} (h : StartsNumber (c :: cs))
    (hd : d.isDigit = false) (hminus : d ≠ '-') : c ≠ d := by
  rintro rfl
  cases h with
  | digit h =>
    rw [hd] at h
    cases h
  | minus => exact hminus rfl

theorem readAtom_of_startsNumber {cs : List Char} (h : StartsNumber cs) :
    readAtom cs = readNumber cs := by
  unfold readAtom
  split
  next => exact absurd rfl (h.ne (d := 'n') rfl (by decide))
  next => exact absurd rfl (h.ne (d := 't') rfl (by decide))
  next => exact absurd rfl (h.ne (d := 'f') rfl (by decide))
  next => exact absurd rfl (h.ne (d := 'N') rfl (by decide))
  next => exact absurd rfl (h.ne (d := 'I') rfl (by decide))
  next =>
    cases h with
    | digit hd => cases hd
    | minus hd => cases hd
  next => rfl

theorem spells_int {i : Int} (hi : Text.isWritable i) : Spells (toString i).toList (.int i) := by
  have hnumber := startsNumber_toString i
  obtain ⟨c, cs, hcs⟩ := hnumber.eq_cons
  rw [hcs] at hnumber
  have hstart : isStart c := by
    simp only [isStart, isSpace, Bool.and_eq_true, Bool.not_eq_true', Bool.or_eq_false_iff,
      decide_eq_false_iff_not, decide_eq_true_eq]
    exact ⟨⟨⟨⟨⟨hnumber.ne rfl (by decide), hnumber.ne rfl (by decide)⟩,
      hnumber.ne rfl (by decide)⟩, hnumber.ne rfl (by decide)⟩, hnumber.ne rfl (by decide)⟩,
      hnumber.ne rfl (by decide)⟩
  refine spells_of_readAtom hcs hstart (hnumber.ne rfl (by decide)) (hnumber.ne rfl (by decide))
    (hnumber.ne rfl (by decide)) fun rest hrest => ?_
  rw [readAtom_of_startsNumber ((startsNumber_toString i).append rest),
    readNumber_toString hi hrest.endsNumber]

theorem writeItems_spells {level : Nat} {vs : List Value}
    (h : ∀ v ∈ vs, ∃ text, writeValue level v = .ok text ∧ Spells text v.reread) :
    ∃ texts, writeItems level vs = .ok texts ∧ List.Forall₂ Spells texts (vs.map Value.reread) := by
  induction vs with
  | nil => exact ⟨[], rfl, .nil⟩
  | cons v vs ih =>
    obtain ⟨text, hwrite, hspells⟩ := h v List.mem_cons_self
    obtain ⟨texts, hwrites, hall⟩ := ih fun w hw => h w (List.mem_cons_of_mem v hw)
    refine ⟨text :: texts, ?_, .cons hspells hall⟩
    rw [writeItems, hwrite, hwrites]
    rfl

theorem writeMembers_spells {level : Nat} {fields : List (String × Value)}
    (h : ∀ f ∈ fields, ∃ text, writeValue level f.2 = .ok text ∧ Spells text f.2.reread) :
    ∃ texts, writeMembers level (fields.map fun f => (.str f.1, f.2)) = .ok texts ∧
      List.Forall₂ SpellsMember texts (fields.map fun f => (f.1, f.2.reread)) := by
  induction fields with
  | nil => exact ⟨[], rfl, .nil⟩
  | cons f fields ih =>
    obtain ⟨text, hwrite, hspells⟩ := h f List.mem_cons_self
    obtain ⟨texts, hwrites, hall⟩ := ih fun g hg => h g (List.mem_cons_of_mem f hg)
    refine ⟨memberText f.1 text :: texts, ?_, .cons ⟨text, rfl, hspells⟩ hall⟩
    rw [List.map_cons, writeMembers, hwrite, hwrites]
    rfl

/-- Data that can be stored is written at every level, with a text that is read back. -/
theorem writeValue_spells {v : Value} (h : v.Storable) (level : Nat) :
    ∃ text, writeValue level v = .ok text ∧ Spells text v.reread := by
  induction h generalizing level with
  | null => exact ⟨_, rfl, spells_null⟩
  | bool b => exact ⟨_, rfl, spells_bool b⟩
  | @int i hi => exact ⟨_, if_pos hi, spells_int hi⟩
  | str s => exact ⟨_, rfl, spells_string s⟩
  | date d => exact ⟨_, rfl, spells_string d.iso⟩
  | moment t => exact ⟨_, rfl, spells_string t.iso⟩
  | @list vs _ ih =>
    obtain ⟨texts, hwrite, hspells⟩ := writeItems_spells fun v hv => ih v hv (level + 1)
    refine ⟨block '[' ']' level texts, ?_, ?_⟩
    · rw [writeValue, hwrite]
      rfl
    · rw [Value.reread, Value.rereadAll_eq]
      exact spells_list level hspells
  | @record fields _ _ ih =>
    obtain ⟨texts, hwrite, hspells⟩ := writeMembers_spells fun f hf => ih f hf (level + 1)
    refine ⟨block '\x7b' '\x7d' level texts, ?_, ?_⟩
    · rw [Value.record, writeValue, hwrite]
      rfl
    · rw [Value.reread_record]
      exact spells_struct level hspells

/-- Data that can be stored is read back from the document in which it is written. -/
theorem read_write {v : Value} (h : v.Storable) :
    ∃ text, write v = .ok text ∧ read text.toList = .ok v.reread := by
  obtain ⟨text, hwrite, hspells⟩ := writeValue_spells h 0
  refine ⟨.ofList text, by rw [write, hwrite]; rfl, ?_⟩
  obtain ⟨c, cs, hcs, hstart⟩ := hspells.starts
  have hread := hspells.reads (2 * text.length + 2) [] (by omega) endsValue_nil
  have hdocument : readDocument text = .ok v.reread := by
    rw [List.append_nil] at hread
    subst hcs
    unfold readDocument
    split
    next heq => exact absurd (List.cons.inj heq).1 (ne_of_isStart hstart rfl)
    next =>
      rw [skipSpace_of_not_isSpace (isSpace_of_isStart hstart), hread]
      rfl
  rw [String.toList_ofList, read, hdocument]

end Values

end Json

end TreePaths
