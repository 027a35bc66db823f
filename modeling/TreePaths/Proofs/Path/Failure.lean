import TreePaths.Command.Execute
import TreePaths.Extraction.Builder
import TreePaths.Proofs.Path.Reading

/-!
How the reading of a path fails: with a fault of this very text, unless an integer with too many
digits stands where an index is read.
-/

namespace TreePaths

/-- The item is an integer of `n` digits, more than can be read. -/
def Item.Overlong (i : Item) (n : Nat) : Prop :=
  ¬i.IsName ∧ ∃ negative digits, IntegerText i.atom.text negative digits ∧ digits.length = n ∧
    Text.digitLimit < n

/-- In a list, behind items that are read, stands an overlong one. What comes after it is open. -/
inductive Exceeds : List Token → Nat → Prop
  | here {us rest : List Token} {t : Token} {as : List Atom} {a : Atom} {n : Nat} :
      Annotates us as → t.Denotes a → (∀ s ∈ rest.head?, s.kind ≠ .separator) →
      Item.Overlong ⟨as, a⟩ n → Exceeds (us ++ t :: rest) n
  | later {us rest : List Token} {t : Token} {as : List Atom} {a : Atom} {n : Nat} :
      Annotates us as → t.Denotes a → ¬Item.Refused ⟨as, a⟩ → Exceeds rest n →
      Exceeds (us ++ t :: rest) n

def Overlong (text : String) (n : Nat) : Prop :=
  ∃ us as o rest, Token.Splits 0 text.toList (us ++ o :: rest) ∧ Annotates us as ∧
    o.kind = .opening ∧ Exceeds rest n

namespace Item

variable {i : Item} {source : String} {e : PathError} {n : Nat}

theorem component_overlong (h : i.Overlong n) :
    i.atom.component i.annotations source = .error (.digits n) := by
  obtain ⟨hname, negative, digits, htext, rfl, hlimit⟩ := h
  have hstar : i.atom.text ≠ "*" := fun hs => not_integerText_star _ _ (hs ▸ htext)
  have hselector : Atom.selector i.atom.text source = .error (.digits digits.length) := by
    rw [Atom.selector, if_neg hstar, Atom.integer?_eq_some_iff.mpr htext]
    exact if_pos hlimit
  rw [Atom.component, if_neg (mt isName_iff.mp hname), hselector]
  rfl

theorem component_error (h : i.atom.component i.annotations source = .error e) :
    (∃ fault, e = .malformed fault source) ∨ ∃ n, e = .digits n ∧ i.Overlong n := by
  rw [Atom.component] at h
  split at h
  next => cases h
  next hname =>
    rcases bind_eq_error.mp h with hselector | ⟨k, -, hk⟩
    · rw [Atom.selector] at hselector
      split at hselector
      next => cases hselector
      split at hselector
      next => cases hselector
      next negative digits hinteger =>
        rw [Atom.integer?_eq_some_iff] at hinteger
        dsimp only at hselector
        split at hselector
        next hlimit =>
          cases hselector
          exact .inr ⟨_, rfl, mt isName_iff.mpr hname, negative, digits, hinteger, rfl, hlimit⟩
        next =>
          split at hselector
          · cases hselector
            exact .inl ⟨_, rfl⟩
          · cases hselector
    · cases hk

/-- What is read of an item means that it is not refused. -/
theorem not_refused_of_component {c : Component}
    (h : i.atom.component i.annotations source = .ok c) : ¬i.Refused :=
  not_refused_of_selects (component_eq_ok_iff.mp h).1

end Item

namespace SearchPath

variable {source : String} {ts : List Token} {e : PathError} {n : Nat}

theorem readAnnotations_error (h : readAnnotations source ts = .error e) :
    ∃ fault, e = .malformed fault source := by
  fun_induction readAnnotations source ts with
  | case2 t s ts a _ _ _ ih => exact ih (map_eq_error.mp h)
  | case1 | case4 => cases h; exact ⟨_, rfl⟩
  | _ => cases h

/-- The annotations have all been read: what stands behind them is followed by no separator. -/
theorem head_of_readAnnotations {rest : List Token} {as : List Atom} {t : Token} {a : Atom}
    (h : readAnnotations source ts = .ok (as, t :: rest)) (ht : t.atom? = some a) :
    ∀ s ∈ rest.head?, s.kind ≠ .separator := by
  fun_induction readAnnotations source ts generalizing as with
  | case1 | case4 | case6 => cases h
  | case2 u s ts b _ _ _ ih =>
    obtain ⟨⟨bs, rest'⟩, hread, heq⟩ := map_eq_ok.mp h
    cases heq
    exact ih hread
  | case3 u s ts _ hopen =>
    cases h
    rintro s ⟨⟩ hs
    exact hopen a ht hs
  | case5 => cases h; simp

theorem readComponents_error (hts : ∀ t ∈ ts, Token.Lexeme t.kind t.text)
    (h : readComponents source ts = .error e) :
    (∃ fault, e = .malformed fault source) ∨ ∃ n, e = .digits n ∧ Exceeds ts n := by
  fun_induction readComponents source ts with
  | case1 => cases h; exact .inl ⟨_, rfl⟩
  | case2 => cases h
  | case3 t tail _ e' hread => cases h; exact .inl (readAnnotations_error hread)
  | case4 => cases h; exact .inl ⟨_, rfl⟩
  | case5 => cases h; exact .inl ⟨_, rfl⟩
  | case6 t tail _ as u rest hread _ a ha ih =>
    obtain ⟨us, hus, hannotates⟩ := readAnnotations_sound hts hread
    have hhead := head_of_readAnnotations hread ha
    rw [hus] at hts ⊢
    have hu := Token.denotes_of_atom? (hts u (by simp)) ha
    rcases bind_eq_error.mp h with hc | ⟨c, hc, h⟩
    · rcases Item.component_error (i := ⟨as, a⟩) hc with hfault | ⟨n, rfl, hn⟩
      · exact .inl hfault
      · exact .inr ⟨n, rfl, .here hannotates hu hhead hn⟩
    · rcases bind_eq_error.mp h with hcs | ⟨p, -, hp⟩
      · rcases ih (fun t ht => hts t (by simp [ht])) hcs with hfault | ⟨n, rfl, hn⟩
        · exact .inl hfault
        · have haccepted := Item.not_refused_of_component (i := ⟨as, a⟩) hc
          exact .inr ⟨n, rfl, .later hannotates hu haccepted hn⟩
      · cases hp

/-- Annotations may begin where an overlong item is to come, but no separator stands there. -/
theorem head_ne_of_exceeds (h : Exceeds ts n) : ∀ s ∈ ts.head?, s.kind ≠ .separator := by
  cases h with
  | @here us rest t as a n hus ht _ _ =>
    obtain ⟨u, v, huv, hne, -⟩ := head_ne_of_annotates hus ht rest
    rw [huv]
    rintro s ⟨⟩
    exact hne
  | @later us rest t as a n hus ht _ _ =>
    obtain ⟨u, v, huv, hne, -⟩ := head_ne_of_annotates hus ht rest
    rw [huv]
    rintro s ⟨⟩
    exact hne

theorem readComponents_exceeds (h : Exceeds ts n) :
    readComponents source ts = .error (.digits n) := by
  induction h with
  | @here us rest t as a n hus ht hrest hover =>
    rw [readComponents_item hus ht hrest, Item.component_overlong (i := ⟨as, a⟩) hover]
    rfl
  | @later us rest t as a n hus ht haccepted hexceeds ih =>
    obtain ⟨c, hc⟩ := Item.exists_means haccepted
    rw [readComponents_item hus ht (head_ne_of_exceeds hexceeds),
      Item.component_eq_ok_iff (i := ⟨as, a⟩) |>.mpr hc, ih]
    rfl

/-- Reading a path from tokens fails with a fault in the text, or at an overlong item. -/
theorem ofTokens_error (hts : ∀ t ∈ ts, Token.Lexeme t.kind t.text)
    (h : ofTokens source ts = .error e) :
    (∃ fault, e = .malformed fault source) ∨ ∃ n us as o rest, e = .digits n ∧
      ts = us ++ o :: rest ∧ Annotates us as ∧ o.kind = .opening ∧ Exceeds rest n := by
  rcases bind_eq_error.mp h with hread | ⟨⟨as, rest⟩, hread, hlist⟩
  · exact .inl (readAnnotations_error hread)
  obtain ⟨us, rfl, hus⟩ := readAnnotations_sound hts hread
  cases rest with
  | nil => cases hlist; exact .inl ⟨_, rfl⟩
  | cons o rest =>
    dsimp only at hlist
    split at hlist
    next ho =>
      rcases bind_eq_error.mp hlist with hcs | ⟨⟨cs, rest'⟩, -, hend⟩
      · have hrest : ∀ t ∈ rest, Token.Lexeme t.kind t.text := fun t ht => hts t (by simp [ht])
        rcases readComponents_error hrest hcs with hfault | ⟨n, rfl, hn⟩
        · exact .inl hfault
        · exact .inr ⟨n, us, as, o, rest, rfl, rfl, hus, ho, hn⟩
      · cases rest' with
        | nil => cases hend
        | cons u rest' => cases hend; exact .inl ⟨_, rfl⟩
    next => cases hlist; exact .inl ⟨_, rfl⟩

variable {text : String}

theorem parse_error (h : parse text = .error e) :
    (∃ fault, e = .malformed fault text) ∨ ∃ n, e = .digits n ∧ Overlong text n := by
  rw [parse] at h
  split at h
  next => cases h; exact .inl ⟨_, rfl⟩
  next ts hscan =>
    have hsplits := Token.scan_eq_ok_iff.mp hscan
    rcases ofTokens_error hsplits.lexeme h with hfault | ⟨n, us, as, o, rest, rfl, rfl, hrest⟩
    · exact .inl hfault
    · exact .inr ⟨n, rfl, us, as, o, rest, hsplits, hrest⟩

theorem parse_overlong (h : Overlong text n) : parse text = .error (.digits n) := by
  obtain ⟨us, as, o, rest, hsplits, hus, ho, hexceeds⟩ := h
  have hread : readAnnotations text (us ++ o :: rest) = .ok (as, o :: rest) :=
    readAnnotations_complete hus (annotationsEnd_of_opening ho rest)
  rw [parse, Token.scan_eq_ok_iff.mpr hsplits]
  dsimp only
  rw [ofTokens, hread]
  refine bind_eq_error.mpr (.inr ⟨_, rfl, ?_⟩)
  dsimp only
  rw [if_pos ho, readComponents_exceeds hexceeds]
  rfl

end SearchPath

/-- Whoever reads the text gets a path or is told what is wrong with this very text: the reader, a
builder, and the command that checks paths. -/
structure Reported (text : String) : Prop where
  parse : ∀ e, SearchPath.parse text = .error e → ∃ fault, e = .malformed fault text
  register : ∀ {σ ε : Type} (b : Builder σ ε) (callback : Action σ ε Value) (annotations : Value) e,
    b.register (.value (.str text)) (some callback) annotations = .error e →
      (∃ fault, e = .path (.malformed fault text)) ∨ e = .refused .annotationsBesideText
  check : ∀ files timestamp e, SearchPath.parse text = .error e →
    (Command.execute files timestamp (.check text)).ending = .failed ("Invalid: " ++ e.message)

/-- A builder refuses a text with the error of the reader, or because annotations are given beside
it. -/
theorem register_text_error {σ ε : Type} {b : Builder σ ε} {callback : Action σ ε Value}
    {text : String} {annotations : Value} {e : BuildError}
    (h : b.register (.value (.str text)) (some callback) annotations = .error e) :
    (∃ d, SearchPath.parse text = .error d ∧ e = .path d) ∨
      e = .refused .annotationsBesideText := by
  have hresolve := map_eq_error.mp h
  by_cases hnull : annotations = .null
  · subst hnull
    obtain ⟨d, hd, rfl⟩ := mapError_eq_error.mp hresolve
    exact .inl ⟨d, hd, rfl⟩
  · rw [PathArgument.resolve] at hresolve
    · cases hresolve
      exact .inr rfl
    · exact hnull

theorem reported_of_parse {text : String}
    (h : ∀ e, SearchPath.parse text = .error e → ∃ fault, e = .malformed fault text) :
    Reported text where
  parse := h
  register b callback annotations e he := by
    rcases register_text_error he with ⟨d, hd, rfl⟩ | rfl
    · obtain ⟨fault, rfl⟩ := h d hd
      exact .inl ⟨fault, rfl⟩
    · exact .inr rfl
  check files timestamp e he := by
    obtain ⟨fault, rfl⟩ := h e he
    rw [Command.execute, Command.executeCheck, he]
    rfl

/-- Every text is reported for what it is, except for those with an overlong item. For these the
limit of digits is told, and the command that checks paths ends in a way of its own. -/
theorem reported_iff (text : String) :
    (Reported text ↔ ¬∃ n, Overlong text n) ∧
      ∀ n, Overlong text n → SearchPath.parse text = .error (.digits n) ∧
        (∀ {σ ε : Type} (b : Builder σ ε) (callback : Action σ ε Value),
          b.register (.value (.str text)) (some callback) .null = .error (.path (.digits n))) ∧
        ∀ files timestamp, (Command.execute files timestamp (.check text)).ending =
          .crashed (.path (.digits n)) := by
  constructor
  · constructor
    · rintro h ⟨n, hn⟩
      obtain ⟨fault, hfault⟩ := h.parse _ (SearchPath.parse_overlong hn)
      cases hfault
    · refine fun h => reported_of_parse fun e he => ?_
      rcases SearchPath.parse_error he with hfault | ⟨n, -, hn⟩
      · exact hfault
      · exact absurd ⟨n, hn⟩ h
  · intro n hn
    have hparse := SearchPath.parse_overlong hn
    refine ⟨hparse, fun b callback => ?_, fun files timestamp => ?_⟩
    · simp [Builder.register, PathArgument.resolve, hparse, Except.mapError, Except.map]
    · simp [Command.execute, Command.executeCheck, hparse, PathError.isReported]

/-- A path of nothing but the digit one, as often as can just not be read. -/
theorem overlong_ones {n : Nat} (h : Text.digitLimit < n) :
    Overlong (.ofList ('(' :: (List.replicate n '1' ++ [')']))) n := by
  have hne : List.replicate n '1' ≠ [] := by
    rw [Ne, List.replicate_eq_nil_iff]
    omega
  have hbare : ∀ c ∈ List.replicate n '1', Token.isBareChar c := by
    intro c hc
    rw [List.eq_of_mem_replicate hc]
    decide
  have hsplits : Token.Splits 0 (['('] ++ (List.replicate n '1' ++ ([')'] ++ []))) _ :=
    .token Token.longest_opening (.token (Token.longest_bare hne hbare (by rintro c ⟨⟩; decide))
      (.token Token.longest_closing .nil))
  refine ⟨[], [], _, _, by simpa using hsplits, .nil, rfl, ?_⟩
  rw [← List.nil_append (_ :: _)]
  refine .here .nil .bare (by simp) ⟨?_, false, List.replicate n '1', ?_, ?_, h⟩
  · simp [Item.IsName]
  · refine ⟨by simp, hne, fun d hd => ?_⟩
    rw [List.eq_of_mem_replicate hd]
    decide
  · simp

/-- So many digits make the reading fail otherwise than with a fault of the text. -/
theorem not_reported_ones :
    SearchPath.parse (.ofList ('(' :: (List.replicate 4301 '1' ++ [')']))) = .error (.digits 4301) ∧
      ¬Reported (.ofList ('(' :: (List.replicate 4301 '1' ++ [')']))) := by
  have hparse := SearchPath.parse_overlong (overlong_ones (n := 4301) (by decide))
  refine ⟨hparse, fun h => ?_⟩
  obtain ⟨fault, hfault⟩ := h.parse _ hparse
  cases hfault

end TreePaths
