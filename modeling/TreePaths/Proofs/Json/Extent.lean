import TreePaths.Proofs.Json.Locality

/-!
The texts of values: a document is read exactly when it is the text of a value between blanks. The
readers of values, of items and of members are taken together; each of them goes on behind a part of
the text that it has read, so that the text of a container is put together part by part.
-/

namespace TreePaths.Json

section Blanks

variable {c : Char} {cs ws : List Char}

theorem Visible.not_isSpace (h : Visible c) : isSpace c = false := by
  have hne (d : Char) (hd : ¬Visible d) : c ≠ d := fun heq => hd (heq ▸ h)
  simp only [isSpace, decide_eq_false (hne ' ' (by decide)), decide_eq_false (hne '\t' (by decide)),
    decide_eq_false (hne '\n' (by decide)), decide_eq_false (hne '\r' (by decide)), Bool.or_false]

theorem skipSpace_append (hws : ∀ d ∈ ws, isSpace d) (hc : isSpace c = false) :
    skipSpace (ws ++ c :: cs) = c :: cs := by
  rw [skipSpace, List.dropWhile_append_of_pos hws]
  exact skipSpace_of_not_isSpace hc

/-- The blanks that are skipped. -/
theorem skipSpace_split (cs : List Char) :
    ∃ ws, cs = ws ++ skipSpace cs ∧ ∀ d ∈ ws, isSpace d :=
  ⟨cs.takeWhile isSpace, List.takeWhile_append_dropWhile.symm,
    fun _ hd => List.mem_takeWhile_imp hd⟩

theorem skipSpace_eq_nil : skipSpace cs = [] ↔ ∀ d ∈ cs, isSpace d :=
  List.dropWhile_eq_nil_iff

/-- A text that starts with a character that is neither a digit, a point nor the letter e. -/
theorem endsNumber_cons (hc : ¬c.isDigit ∧ c ≠ '.' ∧ c ≠ 'e' ∧ c ≠ 'E') (cs : List Char) :
    EndsNumber (c :: cs) := by
  intro d ds heq
  obtain ⟨rfl, rfl⟩ := List.cons.inj heq
  exact hc

theorem endsNumber_append (hws : ∀ d ∈ ws, isSpace d) (hcs : EndsNumber cs) :
    EndsNumber (ws ++ cs) := by
  cases ws with
  | nil => exact hcs
  | cons d ws =>
    have hd : isSpace d := hws d List.mem_cons_self
    simp only [isSpace, Bool.or_eq_true, decide_eq_true_eq] at hd
    refine endsNumber_cons ?_ (ws ++ cs)
    rcases hd with ((rfl | rfl) | rfl) | rfl <;> decide

theorem endsNumber_of_isSpace (hws : ∀ d ∈ ws, isSpace d) : EndsNumber ws := by
  have hnil : EndsNumber [] := nofun
  have hends := endsNumber_append hws hnil
  rwa [List.append_nil] at hends

/-- Without control characters but those that are blanks. -/
def Plain (text : List Char) : Prop :=
  ∀ c ∈ text, 0x20 ≤ c.toNat ∨ isSpace c

theorem plain_append {text text' : List Char} :
    Plain (text ++ text') ↔ Plain text ∧ Plain text' :=
  List.forall_mem_append

theorem plain_cons {text : List Char} :
    Plain (c :: text) ↔ (0x20 ≤ c.toNat ∨ isSpace c) ∧ Plain text :=
  List.forall_mem_cons

theorem plain_of_isSpace (hws : ∀ d ∈ ws, isSpace d) : Plain ws :=
  fun d hd => .inr (hws d hd)

theorem plain_of_visible {text : List Char} (h : ∀ d ∈ text, Visible d) : Plain text :=
  fun d hd => .inl (Nat.le_of_lt (h d hd).1)

end Blanks

/-- The character may stand first in the text of a value. -/
def Opens (c : Char) : Prop :=
  Visible c ∧ c ≠ ']' ∧ c ≠ '\x7d'

instance (c : Char) : Decidable (Opens c) :=
  inferInstanceAs (Decidable (_ ∧ _))

variable {reader next : Nat → List Char → Reading Value} {text front ws : List Char} {v w : Value}

/-- A reader takes these characters as the text of a value, wherever a number may end behind
them. -/
structure Stands (reader : Nat → List Char → Reading Value) (text : List Char) (v : Value) :
    Prop where
  starts : ∃ c cs, text = c :: cs ∧ Opens c
  ends : ∃ cs c, text = cs ++ [c] ∧ Visible c
  plain : Plain text
  reads : ∀ fuel rest, 2 * text.length ≤ fuel → EndsNumber rest →
    reader fuel (text ++ rest) = .ok (v, rest)

theorem Stands.length_pos (h : Stands reader text v) : 0 < text.length := by
  obtain ⟨c, cs, rfl, -⟩ := h.starts
  exact Nat.succ_pos _

theorem stands_of_visible (hstarts : ∃ c cs, text = c :: cs ∧ Opens c)
    (hvisible : ∀ c ∈ text, Visible c)
    (hreads : ∀ fuel rest, 2 * text.length ≤ fuel → EndsNumber rest →
      reader fuel (text ++ rest) = .ok (v, rest)) : Stands reader text v := by
  obtain ⟨c, cs, rfl, hc⟩ := hstarts
  have hlast := (List.dropLast_append_getLast (List.cons_ne_nil c cs)).symm
  exact ⟨⟨c, cs, rfl, hc⟩,
    ⟨_, _, hlast, hvisible _ (List.getLast_mem (List.cons_ne_nil c cs))⟩,
    plain_of_visible hvisible, hreads⟩

/-- Behind these characters and blanks a reader goes on with `goOn`, if `behind` holds of what
follows them. -/
structure Leads (reader : Nat → List Char → Reading Value) (behind : List Char → Prop)
    (front : List Char) (goOn : Nat → List Char → Reading Value) : Prop where
  starts : ∃ c cs, front = c :: cs ∧ Opens c
  plain : Plain front
  reads : ∀ fuel more, 2 * front.length ≤ fuel → behind more →
    reader (fuel + 1) (front ++ more) = goOn fuel (skipSpace more)

section Leads

variable {goOn : Nat → List Char → Reading Value} {behind : List Char → Prop} {c : Char}

theorem Leads.exists_cons (h : Leads reader behind front goOn) (more : List Char) :
    ∃ c cs, front ++ more = c :: cs ∧ Opens c := by
  obtain ⟨c, cs, rfl, hc⟩ := h.starts
  exact ⟨c, cs ++ more, rfl, hc⟩

theorem Leads.ne_nil (h : Leads reader behind front goOn) : front ≠ [] := by
  obtain ⟨c, cs, rfl, -⟩ := h.starts
  exact List.cons_ne_nil c cs

/-- The character that ends a container. -/
theorem Leads.close (h : Leads reader behind front goOn)
    (hbehind : ∀ more, EndsNumber more → behind more) (hws : ∀ d ∈ ws, isSpace d) (hc : Visible c)
    (hends : ∀ rest, EndsNumber (c :: rest))
    (hgoOn : ∀ fuel rest, goOn fuel (c :: rest) = .ok (v, rest)) :
    Stands reader (front ++ (ws ++ [c])) v where
  starts := h.exists_cons _
  ends := ⟨front ++ ws, c, (List.append_assoc ..).symm, hc⟩
  plain := plain_append.mpr ⟨h.plain, plain_append.mpr
    ⟨plain_of_isSpace hws, plain_of_visible fun d hd => List.mem_singleton.mp hd ▸ hc⟩⟩
  reads := by
    intro fuel rest hfuel _
    simp only [List.length_append, List.length_singleton] at hfuel
    obtain ⟨fuel, rfl⟩ : ∃ n, fuel = n + 1 := Nat.exists_eq_add_one_of_ne_zero (by omega)
    rw [List.append_assoc, List.append_assoc, List.singleton_append,
      h.reads fuel _ (by omega) (hbehind _ (endsNumber_append hws (hends rest))),
      skipSpace_append hws hc.not_isSpace, hgoOn]

/-- A character behind which the reader goes on with what comes next. -/
theorem Leads.pass (h : Leads reader behind front goOn)
    (hbehind : ∀ more, EndsNumber more → behind more) (hws : ∀ d ∈ ws, isSpace d) (hc : Visible c)
    (hends : ∀ rest, EndsNumber (c :: rest))
    (hgoOn : ∀ fuel rest, goOn fuel (c :: rest) = next fuel (skipSpace rest)) :
    Leads reader (fun _ => True) (front ++ (ws ++ [c])) next where
  starts := h.exists_cons _
  plain := plain_append.mpr ⟨h.plain, plain_append.mpr
    ⟨plain_of_isSpace hws, plain_of_visible fun d hd => List.mem_singleton.mp hd ▸ hc⟩⟩
  reads := by
    intro fuel more hfuel _
    simp only [List.length_append, List.length_singleton] at hfuel
    rw [List.append_assoc, List.append_assoc, List.singleton_append,
      h.reads fuel _ (by omega) (hbehind _ (endsNumber_append hws (hends more))),
      skipSpace_append hws hc.not_isSpace, hgoOn]

/-- The rest of a value is the text that comes next. -/
theorem Leads.into (h : Leads reader (fun _ => True) front goOn) (hws : ∀ d ∈ ws, isSpace d)
    (htext : Stands next text v)
    (hgoOn : ∀ fuel c cs, Opens c → goOn fuel (c :: cs) = next fuel (c :: cs)) :
    Stands reader (front ++ (ws ++ text)) v where
  starts := h.exists_cons _
  ends := by
    obtain ⟨cs, c, rfl, hc⟩ := htext.ends
    exact ⟨front ++ (ws ++ cs), c, by simp only [List.append_assoc], hc⟩
  plain := plain_append.mpr ⟨h.plain, plain_append.mpr ⟨plain_of_isSpace hws, htext.plain⟩⟩
  reads := by
    intro fuel rest hfuel hrest
    have hfront := List.length_pos_of_ne_nil h.ne_nil
    simp only [List.length_append] at hfuel
    obtain ⟨fuel, rfl⟩ : ∃ n, fuel = n + 1 := Nat.exists_eq_add_one_of_ne_zero (by omega)
    have hread := htext.reads fuel rest (by omega) hrest
    have hgone := h.reads fuel (ws ++ (text ++ rest)) (by have := htext.length_pos; omega) trivial
    obtain ⟨c, cs, rfl, hc⟩ := htext.starts
    rw [List.append_assoc, List.append_assoc, hgone, List.cons_append,
      skipSpace_append hws hc.1.not_isSpace, hgoOn fuel c _ hc]
    exact hread

end Leads

section Parts

variable {cs rest body : List Char} {name : String}

theorem leads_list : Leads readValue (fun _ => True) ['[']
    (fun fuel => readOpened ']' (.list []) (readItems fuel [])) where
  starts := ⟨_, _, rfl, by decide⟩
  plain := plain_of_visible (visible_of_all rfl)
  reads := fun fuel more _ _ => readValue_list fuel more

theorem leads_struct : Leads readValue (fun _ => True) ['\x7b']
    (fun fuel => readOpened '\x7d' (.struct []) (readMembers fuel [])) where
  starts := ⟨_, _, rfl, by decide⟩
  plain := plain_of_visible (visible_of_all rfl)
  reads := fun fuel more _ _ => readValue_struct fuel more

theorem leads_item (h : Stands readValue text w) (done : List Value) :
    Leads (fun fuel => readItems fuel done) EndsNumber text
      (fun fuel => readBehind ']' (.list (w :: done).reverse) (readItems fuel (w :: done))) where
  starts := h.starts
  plain := h.plain
  reads := by
    intro fuel more hfuel hmore
    rw [readItems_eq, h.reads fuel more hfuel hmore]

def member (body ws ws' text : List Char) : List Char :=
  '"' :: (body ++ '"' :: (ws ++ ':' :: (ws' ++ text)))

theorem leads_member {ws' : List Char} (hbody : ∀ c ∈ body, 0x20 ≤ c.toNat)
    (hname : ∀ rest, readQuoted ('"' :: (body ++ '"' :: rest)) = .ok (name, rest))
    (hws : ∀ d ∈ ws, isSpace d) (hws' : ∀ d ∈ ws', isSpace d) (h : Stands readValue text w)
    (done : List (String × Value)) :
    Leads (fun fuel => readMembers fuel done) EndsNumber (member body ws ws' text)
      (fun fuel => readBehind '\x7d' (.struct ((name, w) :: done).reverse)
        (readMembers fuel ((name, w) :: done))) where
  starts := ⟨_, _, rfl, by decide⟩
  plain := by
    simp only [member, plain_cons, plain_append]
    exact ⟨by decide, fun c hc => .inl (hbody c hc), by decide, plain_of_isSpace hws, by decide,
      plain_of_isSpace hws', h.plain⟩
  reads := by
    intro fuel more hfuel hmore
    have htext : member body ws ws' text ++ more =
        '"' :: (body ++ '"' :: (ws ++ ':' :: (ws' ++ (text ++ more)))) := by
      simp only [member, List.cons_append, List.append_assoc]
    have hread := h.reads fuel more (by
      simp only [member, List.length_cons, List.length_append] at hfuel
      omega) hmore
    obtain ⟨c, tail, rfl, hc⟩ := h.starts
    rw [htext, readMembers_eq (hname _) (skipSpace_append hws rfl), List.cons_append,
      skipSpace_append hws' hc.1.not_isSpace]
    rw [List.cons_append] at hread
    rw [hread]

theorem stands_quoted (hbody : ∀ c ∈ body, 0x20 ≤ c.toNat)
    (hname : ∀ rest, readQuoted ('"' :: (body ++ '"' :: rest)) = .ok (name, rest)) :
    Stands readValue ('"' :: (body ++ ['"'])) (.str name) where
  starts := ⟨_, _, rfl, by decide⟩
  ends := ⟨'"' :: body, '"', rfl, by decide⟩
  plain := by
    simp only [plain_cons, plain_append]
    exact ⟨by decide, fun c hc => .inl (hbody c hc), by decide, nofun⟩
  reads := by
    intro fuel rest hfuel _
    rw [List.length_cons] at hfuel
    obtain ⟨fuel, rfl⟩ : ∃ n, fuel = n + 1 := Nat.exists_eq_add_one_of_ne_zero (by omega)
    rw [List.cons_append, List.append_assoc, List.singleton_append, readValue, hname]

/-- An atom is read from the same characters, whatever follows in which a number may end. -/
theorem readAtom_local (h : readAtom cs = .ok (v, rest)) :
    ∃ text, cs = text ++ rest ∧
      (∃ c tail, text = c :: tail ∧ Opens c ∧ c ≠ '"' ∧ c ≠ '[' ∧ c ≠ '\x7b') ∧
      (∀ c ∈ text, Visible c) ∧
      ∀ rest', EndsNumber rest' → readAtom (text ++ rest') = .ok (v, rest') := by
  unfold readAtom at h
  split at h
  next =>
    obtain ⟨rfl, rfl⟩ := Prod.mk.inj (Except.ok.inj h)
    exact ⟨"null".toList, rfl, ⟨_, _, rfl, by decide⟩, visible_of_all rfl, fun _ _ => rfl⟩
  next =>
    obtain ⟨rfl, rfl⟩ := Prod.mk.inj (Except.ok.inj h)
    exact ⟨"true".toList, rfl, ⟨_, _, rfl, by decide⟩, visible_of_all rfl, fun _ _ => rfl⟩
  next =>
    obtain ⟨rfl, rfl⟩ := Prod.mk.inj (Except.ok.inj h)
    exact ⟨"false".toList, rfl, ⟨_, _, rfl, by decide⟩, visible_of_all rfl, fun _ _ => rfl⟩
  next =>
    obtain ⟨rfl, rfl⟩ := Prod.mk.inj (Except.ok.inj h)
    exact ⟨"NaN".toList, rfl, ⟨_, _, rfl, by decide⟩, visible_of_all rfl, fun _ _ => rfl⟩
  next =>
    obtain ⟨rfl, rfl⟩ := Prod.mk.inj (Except.ok.inj h)
    exact ⟨"Infinity".toList, rfl, ⟨_, _, rfl, by decide⟩, visible_of_all rfl, fun _ _ => rfl⟩
  next =>
    obtain ⟨rfl, rfl⟩ := Prod.mk.inj (Except.ok.inj h)
    exact ⟨"-Infinity".toList, rfl, ⟨_, _, rfl, by decide⟩, visible_of_all rfl, fun _ _ => rfl⟩
  next =>
    obtain ⟨text, rfl, hnumber, hvisible, hread⟩ := readNumber_local h
    obtain ⟨c, tail, rfl⟩ := hnumber.eq_cons
    refine ⟨c :: tail, rfl, ⟨c, tail, rfl, ⟨hvisible c List.mem_cons_self, ?_, ?_⟩, ?_, ?_, ?_⟩,
      hvisible, fun rest' hrest => ?_⟩
    · exact hnumber.ne rfl (by decide)
    · exact hnumber.ne rfl (by decide)
    · exact hnumber.ne rfl (by decide)
    · exact hnumber.ne rfl (by decide)
    · exact hnumber.ne rfl (by decide)
    · rw [readAtom_of_startsNumber (hnumber.append rest')]
      exact hread rest' hrest

theorem readValue_atom {c : Char} (hc : c ≠ '"' ∧ c ≠ '[' ∧ c ≠ '\x7b') (fuel : Nat)
    (cs : List Char) : readValue (fuel + 1) (c :: cs) = readAtom (c :: cs) := by
  conv => lhs; unfold readValue
  split
  next heq => exact absurd (List.cons.inj heq).1 hc.1
  next heq => exact absurd (List.cons.inj heq).1 hc.2.1
  next heq => exact absurd (List.cons.inj heq).1 hc.2.2
  next => rfl

theorem stands_atom (h : readAtom cs = .ok (v, rest)) :
    ∃ text, cs = text ++ rest ∧ Stands readValue text v := by
  obtain ⟨text, rfl, ⟨c, tail, rfl, hopens, hc⟩, hvisible, hread⟩ := readAtom_local h
  refine ⟨c :: tail, rfl, stands_of_visible ⟨c, tail, rfl, hopens⟩ hvisible
    fun fuel rest' hfuel hrest => ?_⟩
  rw [List.length_cons] at hfuel
  obtain ⟨fuel, rfl⟩ : ∃ n, fuel = n + 1 := Nat.exists_eq_add_one_of_ne_zero (by omega)
  rw [List.cons_append, readValue_atom hc]
  exact hread rest' hrest

end Parts

section Values

variable {cs after rest : List Char} {closing : Char} {whole : Value} {fuel : Nat}

/-- A container that has been opened is closed at once, or goes on with its first part. -/
theorem Leads.opened (h : Leads reader (fun _ => True) front
      fun fuel => readOpened closing whole (next fuel))
    (hclosing : Visible closing) (hends : ∀ rest, EndsNumber (closing :: rest))
    (hopens : ¬Opens closing)
    (hread : readOpened closing whole (next fuel) (skipSpace after) = .ok (v, rest))
    (hnext : ∀ cs, next fuel cs = .ok (v, rest) → ∃ text, cs = text ++ rest ∧ Stands next text v) :
    ∃ text, front ++ after = text ++ rest ∧ Stands reader text v := by
  obtain ⟨ws, hafter, hws⟩ := skipSpace_split after
  rcases readOpened_cases hread with ⟨hclose, rfl⟩ | hmore
  · refine ⟨front ++ (ws ++ [closing]), ?_, h.close (fun _ _ => trivial) hws hclosing hends
      fun fuel rest => if_pos rfl⟩
    rw [hafter, hclose]
    simp only [List.append_assoc, List.singleton_append]
  · obtain ⟨text, htext, hstands⟩ := hnext _ hmore
    refine ⟨front ++ (ws ++ text), ?_, h.into hws hstands fun fuel c cs hc => if_neg ?_⟩
    · rw [hafter, htext]
      simp only [List.append_assoc]
    · rintro rfl
      exact hopens hc

/-- Behind a part a container is closed, or goes on with the next part. -/
theorem Leads.behind (h : Leads reader EndsNumber front
      fun fuel => readBehind closing whole (next fuel))
    (hclosing : Visible closing) (hends : ∀ rest, EndsNumber (closing :: rest))
    (hcomma : closing ≠ ',')
    (hread : readBehind closing whole (next fuel) (skipSpace after) = .ok (v, rest))
    (hnext : ∀ cs, next fuel cs = .ok (v, rest) → ∃ text, cs = text ++ rest ∧ Stands next text v) :
    ∃ text, front ++ after = text ++ rest ∧ Stands reader text v := by
  obtain ⟨ws, hafter, hws⟩ := skipSpace_split after
  rcases readBehind_cases hread with ⟨hclose, rfl⟩ | ⟨tail, hcomma', hmore⟩
  · refine ⟨front ++ (ws ++ [closing]), ?_, h.close (fun _ => id) hws hclosing hends
      fun fuel rest => if_pos rfl⟩
    rw [hafter, hclose]
    simp only [List.append_assoc, List.singleton_append]
  · obtain ⟨ws', htail, hws'⟩ := skipSpace_split tail
    obtain ⟨text, htext, hstands⟩ := hnext _ hmore
    have hpass := h.pass (c := ',') (fun _ => id) hws (by decide) (endsNumber_cons (by decide))
      fun fuel rest => by rw [readBehind, if_neg hcomma.symm, if_pos rfl]
    refine ⟨front ++ (ws ++ [',']) ++ (ws' ++ text), ?_, hpass.into hws' hstands fun _ _ _ _ => rfl⟩
    rw [hafter, hcomma', htail, htext]
    simp only [List.append_assoc, List.cons_append, List.nil_append]

/-- What a reader takes stands in front of the rest, and it takes it from every such text. -/
theorem stands_of_read (fuel : Nat) :
    (∀ cs v rest, readValue fuel cs = .ok (v, rest) →
      ∃ text, cs = text ++ rest ∧ Stands readValue text v) ∧
    (∀ done cs v rest, readItems fuel done cs = .ok (v, rest) →
      ∃ text, cs = text ++ rest ∧ Stands (fun fuel => readItems fuel done) text v) ∧
    (∀ done cs v rest, readMembers fuel done cs = .ok (v, rest) →
      ∃ text, cs = text ++ rest ∧ Stands (fun fuel => readMembers fuel done) text v) := by
  induction fuel with
  | zero => exact ⟨nofun, nofun, nofun⟩
  | succ fuel ih =>
    obtain ⟨hvalue, hitems, hmembers⟩ := ih
    refine ⟨fun cs v rest h => ?_, fun done cs v rest h => ?_, fun done cs v rest h => ?_⟩
    · by_cases hquote : ∃ tail, cs = '"' :: tail
      · obtain ⟨tail, rfl⟩ := hquote
        rw [readValue] at h
        split at h
        · cases h
        next s behind hs =>
          obtain ⟨rfl, rfl⟩ := Prod.mk.inj (Except.ok.inj h)
          obtain ⟨body, rfl, hbody, hname⟩ := readQuoted_local hs
          exact ⟨'"' :: (body ++ ['"']), by simp, stands_quoted hbody hname⟩
      by_cases hlist : ∃ tail, cs = '[' :: tail
      · obtain ⟨tail, rfl⟩ := hlist
        rw [readValue_list] at h
        exact leads_list.opened (by decide) (endsNumber_cons (by decide)) (by decide) h
          fun cs => hitems [] cs v rest
      by_cases hstruct : ∃ tail, cs = '\x7b' :: tail
      · obtain ⟨tail, rfl⟩ := hstruct
        rw [readValue_struct] at h
        exact leads_struct.opened (by decide) (endsNumber_cons (by decide)) (by decide) h
          fun cs => hmembers [] cs v rest
      · cases cs with
        | nil => exact stands_atom h
        | cons c cs =>
          rw [readValue_atom ⟨fun hc => hquote ⟨cs, by rw [hc]⟩, fun hc => hlist ⟨cs, by rw [hc]⟩,
            fun hc => hstruct ⟨cs, by rw [hc]⟩⟩] at h
          exact stands_atom h
    · obtain ⟨w, behind, hw, hbehind⟩ := readItems_cases h
      obtain ⟨text, rfl, hstands⟩ := hvalue cs w behind hw
      exact (leads_item hstands done).behind (by decide) (endsNumber_cons (by decide)) (by decide)
        hbehind fun cs => hitems (w :: done) cs v rest
    · obtain ⟨tail, name, behind, value, w, after, rfl, hname, hcolon, hw, hbehind⟩ :=
        readMembers_cases h
      obtain ⟨body, rfl, hbody, hquoted⟩ := readQuoted_local hname
      obtain ⟨ws, hws, hspaces⟩ := skipSpace_split behind
      obtain ⟨ws', hws', hspaces'⟩ := skipSpace_split value
      obtain ⟨text, htext, hstands⟩ := hvalue _ w after hw
      have hmember : '"' :: (body ++ '"' :: behind) = member body ws ws' text ++ after := by
        rw [hws, hcolon, hws', htext]
        simp only [member, List.cons_append, List.append_assoc]
      rw [hmember]
      exact (leads_member hbody hquoted hspaces hspaces' hstands done).behind (by decide)
        (endsNumber_cons (by decide)) (by decide) hbehind
        fun cs => hmembers ((name, w) :: done) cs v rest

/-- No byte order mark stands in front of a value. -/
theorem ne_mark {c : Char} {lead tail : List Char} (hlead : ∀ d ∈ lead, isSpace d) (hc : Opens c)
    (more : List Char) : lead ++ c :: tail ≠ '\ufeff' :: more := by
  intro heq
  cases lead with
  | nil =>
    obtain rfl : c = '\ufeff' := (List.cons.inj heq).1
    revert hc
    decide
  | cons d lead =>
    obtain rfl : d = '\ufeff' := (List.cons.inj heq).1
    exact absurd (hlead _ List.mem_cons_self) (by decide)

theorem Stands.skipSpace (h : Stands readValue text v) {lead : List Char}
    (hlead : ∀ d ∈ lead, isSpace d) (trail : List Char) :
    Json.skipSpace (lead ++ (text ++ trail)) = text ++ trail ∧
      ∀ more, lead ++ (text ++ trail) ≠ '\ufeff' :: more := by
  obtain ⟨c, tail, rfl, hc⟩ := h.starts
  exact ⟨skipSpace_append hlead hc.1.not_isSpace, ne_mark hlead hc⟩

/-- A document is read as a value exactly if it is the text of the value between blanks. -/
theorem read_eq_ok : read cs = .ok v ↔ ∃ lead text trail, cs = lead ++ (text ++ trail) ∧
    (∀ d ∈ lead, isSpace d) ∧ (∀ d ∈ trail, isSpace d) ∧ Stands readValue text v := by
  constructor
  · intro h
    unfold read at h
    split at h
    next w hdocument =>
      obtain rfl : w = v := Except.ok.inj h
      unfold readDocument at hdocument
      split at hdocument
      · cases hdocument
      split at hdocument
      · cases hdocument
      next behind hw =>
      split at hdocument
      next htrail =>
        obtain rfl := Except.ok.inj hdocument
        obtain ⟨lead, hlead, hspaces⟩ := skipSpace_split cs
        obtain ⟨text, htext, hstands⟩ := (stands_of_read _).1 _ _ _ hw
        exact ⟨lead, text, behind, by rw [← htext]; exact hlead, hspaces,
          skipSpace_eq_nil.mp htrail, hstands⟩
      · cases hdocument
    · cases h
  · rintro ⟨lead, text, trail, rfl, hlead, htrail, hstands⟩
    obtain ⟨hskip, hmark⟩ := hstands.skipSpace hlead trail
    have hread := hstands.reads (2 * (lead ++ (text ++ trail)).length + 2) trail
      (by simp only [List.length_append]; omega) (endsNumber_of_isSpace htrail)
    have hdocument : readDocument (lead ++ (text ++ trail)) = .ok v := by
      unfold readDocument
      split
      next heq => exact absurd heq (hmark _)
      next => rw [hskip, hread]; dsimp only; rw [skipSpace_eq_nil.mpr htrail]
    rw [read, hdocument]

end Values

end TreePaths.Json
