import TreePaths.Proofs.Outcome
import TreePaths.Proofs.Path.Derivation

/-!
Reading a path accepts what the grammar derives, unless an item is refused, and gives what the
derivation means.
-/

namespace TreePaths

namespace SearchPath

variable {source : String} {ts rest us : List Token} {as : List Atom} {t : Token} {a : Atom}

/-- No annotation begins here, and no separator stands here. -/
def AnnotationsEnd : List Token → Prop
  | [] => True
  | [t] => t.kind ≠ .separator
  | t :: s :: _ => t.kind ≠ .separator ∧ (s.kind = .separator → t.atom? = none)

/-- What is read as annotations is a row of atoms with separators. -/
theorem readAnnotations_sound (hts : ∀ t ∈ ts, Token.Lexeme t.kind t.text)
    (h : readAnnotations source ts = .ok (as, rest)) : ∃ us, ts = us ++ rest ∧ Annotates us as := by
  fun_induction readAnnotations source ts generalizing as rest with
  | case1 => cases h
  | case2 t s ts a hs ha ht ih =>
    cases hread : readAnnotations source ts with
    | error e =>
      rw [hread] at h
      cases h
    | ok p =>
      obtain ⟨bs, rest'⟩ := p
      rw [hread] at h
      cases h
      obtain ⟨us, rfl, hus⟩ :=
        ih (fun u hu => hts u (List.mem_cons_of_mem _ (List.mem_cons_of_mem _ hu))) hread
      have hdenotes := Token.denotes_of_atom? (hts t List.mem_cons_self) ha
      exact ⟨t :: s :: us, rfl, .cons hdenotes hs hus⟩
  | case3 => cases h; exact ⟨[], rfl, .nil⟩
  | case4 => cases h
  | case5 => cases h; exact ⟨[], rfl, .nil⟩
  | case6 => cases h; exact ⟨[], rfl, .nil⟩

/-- All annotations are read, up to where none begins. -/
theorem readAnnotations_complete (h : Annotates us as) (hrest : AnnotationsEnd rest) :
    readAnnotations source (us ++ rest) = .ok (as, rest) := by
  induction h with
  | nil =>
    rw [List.nil_append]
    match rest, hrest with
    | [], _ => rfl
    | [t], ht => rw [readAnnotations, if_neg ht]
    | t :: s :: ts, ⟨ht, hs⟩ =>
      unfold readAnnotations
      split
      next h => exact absurd h ht
      next hatom hsep _ => rw [hs hsep] at hatom; cases hatom
      next => rfl
  | @cons t s a ts as ht hs _ ih =>
    rw [List.cons_append, List.cons_append]
    unfold readAnnotations
    split
    next h => exact absurd h ht.kind_ne.1
    next hatom _ _ =>
      rw [ht.atom?] at hatom
      cases hatom
      rw [ih]
      rfl
    next h => exact absurd hs (h a ht.atom?)

theorem annotationsEnd_of_denotes (ht : t.Denotes a)
    (hrest : ∀ s ∈ rest.head?, s.kind ≠ .separator) : AnnotationsEnd (t :: rest) := by
  cases rest with
  | nil => exact ht.kind_ne.1
  | cons s rest => exact ⟨ht.kind_ne.1, fun h => absurd h (hrest s rfl)⟩

theorem head_ne_of_annotates (h : Annotates us as) (ht : t.Denotes a) (ts : List Token) :
    ∃ u v, us ++ t :: ts = u :: v ∧ u.kind ≠ .separator ∧ u.kind ≠ .closing := by
  cases h with
  | nil => exact ⟨t, ts, rfl, ht.kind_ne.1, ht.kind_ne.2.2⟩
  | @cons u s _ us _ hu _ _ => exact ⟨u, s :: (us ++ t :: ts), rfl, hu.kind_ne.1, hu.kind_ne.2.2⟩

/-- No separator stands behind an item: the next item or the end of the list begins there. -/
theorem head_ne_of_itemizes {items : List Item} (h : Itemizes ts items)
    (hrest : ∀ s ∈ rest.head?, s.kind ≠ .separator) :
    ∀ s ∈ (ts ++ rest).head?, s.kind ≠ .separator := by
  cases h with
  | nil => exact hrest
  | @cons us ts t as a items hus ht _ =>
    obtain ⟨u, v, huv, hne, -⟩ := head_ne_of_annotates hus ht ts
    rw [huv, List.cons_append, List.head?_cons]
    rintro s ⟨⟩
    exact hne

/-- What is read as components is a row of items that mean these, and a closing parenthesis. -/
theorem readComponents_sound {cs : List Component} (hts : ∀ t ∈ ts, Token.Lexeme t.kind t.text)
    (h : readComponents source ts = .ok (cs, rest)) :
    ∃ vs c items, ts = vs ++ c :: rest ∧ c.kind = .closing ∧ Itemizes vs items ∧
      List.Forall₂ Item.Means items cs := by
  fun_induction readComponents source ts generalizing cs rest with
  | case1 => cases h
  | case2 t tail hclosing =>
    cases h
    exact ⟨[], t, [], rfl, hclosing, .nil, .nil⟩
  | case3 => cases h
  | case4 => cases h
  | case5 => cases h
  | case6 t tail _ as u rest' hread _ a ha ih =>
    obtain ⟨c, hc, h⟩ := bind_eq_ok.mp h
    obtain ⟨⟨cs', rest''⟩, hcs, h⟩ := bind_eq_ok.mp h
    cases h
    obtain ⟨us, hus, hannotates⟩ := readAnnotations_sound hts hread
    rw [hus] at hts ⊢
    have hu := Token.denotes_of_atom? (hts u (by simp)) ha
    obtain ⟨vs, d, items, rfl, hd, hitems, hmeans⟩ := ih (fun t ht => hts t (by simp [ht])) hcs
    refine ⟨us ++ u :: vs, d, ⟨as, a⟩ :: items, by simp, hd, .cons hannotates hu hitems, ?_⟩
    exact .cons (Item.component_eq_ok_iff.mp hc) hmeans

theorem readComponents_of_item {tail : List Token} (ht : t.kind ≠ .closing) {u : Token}
    (hread : readAnnotations source (t :: tail) = .ok (as, u :: rest)) (hu : u.atom? = some a) :
    readComponents source (t :: tail) = (do
      let c ← a.component as source
      let (cs, rest) ← readComponents source rest
      return (c :: cs, rest)) := by
  rw [readComponents, if_neg ht]
  split
  next h => rw [hread] at h; cases h
  next h => rw [hread] at h; cases h
  next h =>
    rw [hread] at h
    cases h
    rw [hu]

/-- One item forward. -/
theorem readComponents_item (hus : Annotates us as) (ht : t.Denotes a)
    (hrest : ∀ s ∈ rest.head?, s.kind ≠ .separator) : readComponents source (us ++ t :: rest) = (do
      let c ← a.component as source
      let (cs, rest) ← readComponents source rest
      return (c :: cs, rest)) := by
  have hread : readAnnotations source (us ++ t :: rest) = .ok (as, t :: rest) :=
    readAnnotations_complete hus (annotationsEnd_of_denotes ht hrest)
  obtain ⟨u, v, huv, -, hne⟩ := head_ne_of_annotates hus ht rest
  rw [huv] at hread ⊢
  exact readComponents_of_item hne hread ht.atom?

/-- Items that mean components are read as these, up to the closing parenthesis. -/
theorem readComponents_complete {vs : List Token} {c : Token} {items : List Item}
    {cs : List Component} (h : Itemizes vs items) (hmeans : List.Forall₂ Item.Means items cs)
    (hc : c.kind = .closing) : readComponents source (vs ++ c :: rest) = .ok (cs, rest) := by
  induction h generalizing cs with
  | nil =>
    cases hmeans
    rw [List.nil_append, readComponents, if_pos hc]
  | @cons us ts t as a items hus ht hts ih =>
    cases hmeans with
    | @cons _ k _ ks hk hks =>
      have hend : ∀ s ∈ (ts ++ c :: rest).head?, s.kind ≠ .separator := by
        apply head_ne_of_itemizes hts
        rintro s ⟨⟩
        rw [hc]
        exact TokenKind.noConfusion
      rw [List.append_assoc, List.cons_append, readComponents_item hus ht hend,
        Item.component_eq_ok_iff.mpr hk, ih hks]
      rfl

theorem annotationsEnd_of_itemizes {items : List Item} (ht : t.Denotes a) (h : Itemizes ts items) :
    AnnotationsEnd (t :: ts) := by
  apply annotationsEnd_of_denotes ht
  have hnil : ∀ s ∈ ([] : List Token).head?, s.kind ≠ .separator := by simp
  have hhead := head_ne_of_itemizes h hnil
  rwa [List.append_nil] at hhead

theorem annotationsEnd_of_opening {o : Token} (ho : o.kind = .opening) (rest : List Token) :
    AnnotationsEnd (o :: rest) := by
  have hne : o.kind ≠ .separator := by
    rw [ho]
    exact TokenKind.noConfusion
  cases rest with
  | nil => exact hne
  | cons s rest => exact ⟨hne, fun _ => Token.atom?_of_opening ho⟩

/-- Tokens are read as a path exactly if they can be derived, in a way that means this path. -/
theorem ofTokens_eq_ok_iff (hts : ∀ t ∈ ts, Token.Lexeme t.kind t.text) {p : SearchPath} :
    ofTokens source ts = .ok p ↔ ∃ d, Derives ts d ∧ d.Means p := by
  constructor
  · intro h
    obtain ⟨⟨as, rest⟩, hread, hlist⟩ := bind_eq_ok.mp h
    obtain ⟨us, rfl, hus⟩ := readAnnotations_sound hts hread
    cases rest with
    | nil => cases hlist
    | cons o rest =>
      dsimp only at hlist
      split at hlist
      next ho =>
        obtain ⟨⟨cs, rest'⟩, hcs, hend⟩ := bind_eq_ok.mp hlist
        have hrest : ∀ t ∈ rest, Token.Lexeme t.kind t.text := fun t ht => hts t (by simp [ht])
        obtain ⟨vs, c, items, rfl, hc, hitems, hmeans⟩ := readComponents_sound hrest hcs
        cases rest' with
        | nil =>
          cases hend
          exact ⟨⟨as, items⟩, .list hus ho hitems hc, rfl, hmeans⟩
        | cons u rest' => cases hend
      next => cases hlist
  · rintro ⟨d, hd, hanchor, hmeans⟩
    cases hd with
    | @list us vs o c as items hus ho hitems hc =>
      have hread : readAnnotations source (us ++ o :: (vs ++ [c])) = _ :=
        readAnnotations_complete hus (annotationsEnd_of_opening ho _)
      have hcs : readComponents source (vs ++ [c]) = .ok (p.components, []) :=
        readComponents_complete hitems hmeans hc
      unfold ofTokens
      rw [hread]
      refine bind_eq_ok.mpr ⟨_, rfl, ?_⟩
      dsimp only
      rw [if_pos ho]
      refine bind_eq_ok.mpr ⟨_, hcs, ?_⟩
      dsimp only at hanchor ⊢
      rw [← hanchor]
      rfl

end SearchPath

section Unique

variable {ts : List Token}

theorem Itemizes.unique {items items' : List Item} (h : Itemizes ts items)
    (h' : Itemizes ts items') : items = items' := by
  induction h generalizing items' with
  | nil =>
    generalize hw : ([] : List Token) = w at h'
    cases h' with
    | nil => rfl
    | cons => simp at hw
  | @cons us ts t as a items hus ht hts ih =>
    generalize hw : us ++ t :: ts = w at h'
    cases h' with
    | nil => simp at hw
    | @cons us' ts' t' as' a' items' hus' ht' hts' =>
      -- Where the annotations of the first item end is decided by reading them, so both rows begin
      -- with the same item.
      have hread : SearchPath.readAnnotations "" _ = _ :=
        SearchPath.readAnnotations_complete hus (SearchPath.annotationsEnd_of_itemizes ht hts)
      have hread' : SearchPath.readAnnotations "" _ = _ :=
        SearchPath.readAnnotations_complete hus' (SearchPath.annotationsEnd_of_itemizes ht' hts')
      rw [hw, hread'] at hread
      cases hread
      rw [ht.unique ht', ih hts']

/-- The grammar is unambiguous. -/
theorem Derives.unique {d d' : Outline} (h : Derives ts d) (h' : Derives ts d') : d = d' := by
  generalize hw : ts = w at h'
  cases h with
  | @list us vs o c as items hus ho hitems hc =>
    cases h' with
    | @list us' vs' o' c' as' items' hus' ho' hitems' hc' =>
      have hread : SearchPath.readAnnotations "" (us ++ o :: (vs ++ [c])) = _ :=
        SearchPath.readAnnotations_complete hus (SearchPath.annotationsEnd_of_opening ho _)
      have hread' : SearchPath.readAnnotations "" (us' ++ o' :: (vs' ++ [c'])) = _ :=
        SearchPath.readAnnotations_complete hus' (SearchPath.annotationsEnd_of_opening ho' _)
      rw [hw, hread'] at hread
      simp only [Except.ok.injEq, Prod.mk.injEq, List.cons.injEq] at hread
      obtain ⟨rfl, rfl, happend⟩ := hread
      obtain ⟨rfl, -⟩ := List.append_inj' happend rfl
      rw [hitems.unique hitems']

end Unique

namespace SearchPath

variable {text : String} {p : SearchPath}

theorem parse_sound (h : parse text = .ok p) :
    ∃ ts d, Token.Splits 0 text.toList ts ∧ Derives ts d ∧ d.Means p := by
  unfold parse at h
  split at h
  next => cases h
  next ts hscan =>
    have hsplits := Token.scan_eq_ok_iff.mp hscan
    obtain ⟨d, hd, hmeans⟩ := (ofTokens_eq_ok_iff hsplits.lexeme).mp h
    exact ⟨ts, d, hsplits, hd, hmeans⟩

theorem parse_complete {ts : List Token} {d : Outline} (hsplits : Token.Splits 0 text.toList ts)
    (hd : Derives ts d) (hmeans : d.Means p) : parse text = .ok p := by
  unfold parse
  rw [Token.scan_eq_ok_iff.mpr hsplits]
  exact (ofTokens_eq_ok_iff hsplits.lexeme).mpr ⟨d, hd, hmeans⟩

/-- An outline means a path if none of its items is refused. -/
theorem exists_means_iff (d : Outline) :
    (∃ p, d.Means p) ↔ ∀ i ∈ d.items, ¬i.Refused := by
  have hitems (items : List Item) :
      (∃ cs, List.Forall₂ Item.Means items cs) ↔ ∀ i ∈ items, ¬i.Refused := by
    induction items with
    | nil => exact ⟨fun _ i hi => absurd hi List.not_mem_nil, fun _ => ⟨[], .nil⟩⟩
    | cons i items ih =>
      rw [List.forall_mem_cons, ← ih]
      constructor
      · rintro ⟨_, h⟩
        cases h with
        | cons hi hrest => exact ⟨Item.not_refused_of_selects hi.1, _, hrest⟩
      · rintro ⟨hi, cs, hrest⟩
        obtain ⟨c, hc⟩ := Item.exists_means hi
        exact ⟨c :: cs, .cons hc hrest⟩
  rw [← hitems]
  constructor
  · rintro ⟨p, -, hp⟩
    exact ⟨p.components, hp⟩
  · rintro ⟨cs, hcs⟩
    exact ⟨⟨_, cs⟩, rfl, hcs⟩

/-- Reading a text succeeds just if the text splits into tokens that the grammar derives and no item
is refused. It gives what the derivation means, and there is only one derivation. -/
theorem parse_eq_ok_iff (text : String) :
    ((∃ p, parse text = .ok p) ↔
      ∃ ts d, Token.Splits 0 text.toList ts ∧ Derives ts d ∧ ∀ i ∈ d.items, ¬i.Refused) ∧
    (∀ p, parse text = .ok p ↔
      ∃ ts d, Token.Splits 0 text.toList ts ∧ Derives ts d ∧ d.Means p) ∧
    ∀ ts d ts' d', Token.Splits 0 text.toList ts → Derives ts d →
      Token.Splits 0 text.toList ts' → Derives ts' d' → ts = ts' ∧ d = d' := by
  refine ⟨⟨?_, ?_⟩, fun p => ⟨parse_sound, ?_⟩, ?_⟩
  · rintro ⟨p, hp⟩
    obtain ⟨ts, d, hsplits, hd, hmeans⟩ := parse_sound hp
    exact ⟨ts, d, hsplits, hd, (exists_means_iff d).mp ⟨p, hmeans⟩⟩
  · rintro ⟨ts, d, hsplits, hd, haccepted⟩
    obtain ⟨p, hmeans⟩ := (exists_means_iff d).mpr haccepted
    exact ⟨p, parse_complete hsplits hd hmeans⟩
  · rintro ⟨ts, d, hsplits, hd, hmeans⟩
    exact parse_complete hsplits hd hmeans
  · intro ts d ts' d' hsplits hd hsplits' hd'
    obtain rfl := hsplits.unique hsplits'
    exact ⟨rfl, hd.unique hd'⟩

end SearchPath

end TreePaths
