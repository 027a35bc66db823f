import TreePaths.Proofs.Yaml.Drawing

/-!
Building a document step by step: what has been made of nodes, and what is still to be filled.
-/

namespace TreePaths.Yaml

def Tag.isLocal : Tag → Bool
  | localTag _ => true
  | _ => false

def Piece.isAnnotated : Piece → Bool
  | annotated .. => true
  | _ => false

/-- A document of which the order of building does not matter, with the ranks of its nodes, in which
no key is annotated. -/
structure Graph.InOrder (g : Graph) (r : Reading) (root : NodeId) (rank : NodeId → Nat) : Prop where
  document : g.IsDocument root
  ranked : g.Ranked rank
  steady : g.Steady r root
  keys : ∀ n, ∀ e ∈ g.entries n, (g.tag e.1).isLocal = false

namespace Draft

variable {d : Draft} {k l : Nat} {x : Piece}

@[simp] theorem size_add : (d.add x).size = d.size + 1 :=
  Array.size_push x

@[simp] theorem size_setPiece : (d.setPiece k x).size = d.size :=
  Array.size_setIfInBounds

theorem piece_add_of_lt (hk : k < d.size) : (d.add x).piece k = d.piece k := by
  have hk : k < d.pieces.size := hk
  rw [piece, piece, add, Array.getD_eq_getD_getElem?, Array.getD_eq_getD_getElem?,
    Array.getElem?_push_lt hk, Array.getElem?_eq_getElem hk]

theorem piece_add_self : (d.add x).piece d.size = x := by
  rw [piece, add, Array.getD_eq_getD_getElem?]
  show (d.pieces.push x)[d.pieces.size]?.getD _ = x
  rw [Array.getElem?_push_size]
  rfl

theorem piece_setPiece (hk : k < d.size) :
    (d.setPiece k x).piece l = if l = k then x else d.piece l := by
  have hk : k < d.pieces.size := hk
  simp only [piece, setPiece, Array.getD_eq_getD_getElem?, Array.getElem?_setIfInBounds]
  by_cases h : l = k
  · subst h
    rw [if_pos rfl, if_pos rfl, if_pos hk]
    rfl
  · rw [if_neg (Ne.symm h), if_neg h]

theorem isCollection_piece :
    d.isCollection (.piece k) = !(d.piece k).isAnnotated := by
  simp only [isCollection, Piece.isAnnotated]
  cases d.piece k <;> rfl

end Draft

namespace Site

variable {s s' s'' : Site} {n : NodeId} {p : Part} {k : Nat}

theorem Row.mono {e : Entry} {d : Part × Part} (h : s.Row e d)
    (hmade : ∀ n p, s.madeOf n = some p → s'.madeOf n = some p) : s'.Row e d :=
  ⟨hmade _ _ h.1, hmade _ _ h.2⟩

theorem Members.mono {g : Graph} {r : Reading} {es : List Entry} {ds : List (Part × Part)}
    (h : s.Members g r es ds) (hmade : ∀ n p, s.madeOf n = some p → s'.madeOf n = some p) :
    s'.Members g r es ds :=
  ⟨fun e he => (h.1 e he).imp_left fun ⟨d, hd⟩ => ⟨d, hd.mono hmade⟩,
    h.2.imp fun _ _ hd => hd.mono hmade⟩

end Site

namespace Plan

variable {g : Graph} {r : Reading} {s s' : Site} {p : Plan}

theorem Filled.mono {x : Piece} (h : p.Filled g r s x)
    (hmade : ∀ n p, s.madeOf n = some p → s'.madeOf n = some p) : p.Filled g r s' x := by
  cases p with
  | list ns => exact h.imp fun _ => And.imp_right fun hps => hps.imp fun n q => hmade n q
  | pairs es =>
    exact h.imp fun _ => And.imp_right fun hds =>
      hds.imp fun _ _ hd => hd.imp fun _ => And.imp_right fun hrow => hrow.mono hmade
  | set es => exact h.imp fun _ => And.imp_right fun hds => hds.mono hmade
  | map es => exact h.imp fun _ => And.imp_right fun hds => hds.mono hmade
  | struct es =>
    exact h.imp fun _ => And.imp_right fun hfs => hfs.imp fun _ _ => And.imp_right (hmade _ _)
  | scalar text v => exact h
  | annotated q as => exact h

theorem Drawn.mono {fixed fixed' : Nat → Prop} {n : NodeId} {part : Part}
    (h : p.Drawn g r s fixed n part)
    (hmade : ∀ n p, s.madeOf n = some p → s'.madeOf n = some p)
    (hfixed : ∀ k, fixed k → fixed' k ∧ s'.draft.piece k = s.draft.piece k) :
    p.Drawn g r s' fixed' n part := by
  have hfilled : ∀ {q : Plan}, (∃ k, part = .piece k ∧ fixed k ∧ q.Filled g r s (s.draft.piece k)) →
      ∃ k, part = .piece k ∧ fixed' k ∧ q.Filled g r s' (s'.draft.piece k) := by
    rintro q ⟨k, hpart, hk, hq⟩
    obtain ⟨hk', hsame⟩ := hfixed k hk
    exact ⟨k, hpart, hk', hsame ▸ hq.mono hmade⟩
  induction p generalizing part with
  | scalar text v => exact h
  | annotated q as ih =>
    obtain ⟨k, c, hpart, hk, hpiece, hc⟩ := h
    obtain ⟨hk', hsame⟩ := hfixed k hk
    refine ⟨k, c, hpart, hk', hsame.trans hpiece, ih hc ?_⟩
    rintro q' ⟨l, hl, hlfixed, hq'⟩
    obtain ⟨hl', hlsame⟩ := hfixed l hlfixed
    exact ⟨l, hl, hl', hlsame ▸ hq'.mono hmade⟩
  | list ns => exact hfilled h
  | pairs es => exact hfilled h
  | set es => exact hfilled h
  | map es => exact hfilled h
  | struct es => exact hfilled h

end Plan

namespace Site

/-- The piece is there, and none of those that are still to be filled. -/
def Fixed (s : Site) (opened : List (NodeId × Nat)) (k : Nat) : Prop :=
  k < s.draft.size ∧ ∀ e ∈ opened, e.2 ≠ k

/-- An edit of the graph leaves the rest of the site as it is. -/
theorem edit_settles {P : Fault → Prop} {α : Type} {x : Graph.Edit α} {Q : α → Graph → Prop}
    (h : Settles P x s.graph Q) :
    Settles P (edit x) s fun a s' => ∃ h', Q a h' ∧ s' = { s with graph := h' } := by
  unfold edit
  apply Settles.get_bind
  refine Settles.bind (Q := fun y s' => s' = s ∧ Q y.1 y.2) (.lift ?_ fun e he => h.error he) ?_
  · exact fun y hy => ⟨rfl, h.ok hy⟩
  · rintro ⟨a, h'⟩ _ ⟨rfl, hgood⟩
    exact .set_bind (.pure ⟨h', hgood, rfl⟩)

variable (g : Graph) (r : Reading) (root : NodeId) (rank : NodeId → Nat)

/-- What holds while a document is built. `work` are the nodes whose pieces are being filled, `todo`
those whose turn is next; all others that have none of their parts yet wait. -/
structure Inv (work todo : List (NodeId × Nat)) (s : Site) : Prop where
  edited : g.Edited rank (g.Merged r root) (g.size + 1) s.graph
  size : s.made.size = g.size
  tag : ∀ n p, s.madeOf n = some p → s.graph.tag n ≠ .value
  drawn : ∀ n p, s.madeOf n = some p →
    (∃ k, p = .piece k ∧ (n, k) ∈ work ++ todo ++ s.waiting ∧
      (∃ ρ, g.Built r root false ρ n) ∧ (emptyPiece? r (g.tag n)).isSome = true) ∨
    ∃ q, g.plan r (.key, n) = some q ∧ q.Drawn g r s (s.Fixed (work ++ todo ++ s.waiting)) n p
  known : ∀ e ∈ work ++ todo ++ s.waiting,
    e.2 < s.draft.size ∧ (s.draft.piece e.2).isAnnotated = false
  nodup : ((work ++ todo ++ s.waiting).map (·.2)).Nodup
  empty : ∀ e ∈ todo ++ s.waiting, s.madeOf e.1 = some (.piece e.2) ∧
    (∃ ρ, g.Built r root false ρ e.1) ∧ emptyPiece? r (g.tag e.1) = some (s.draft.piece e.2)

/-- What happens meanwhile: only nodes of a rank below `β` are made, and only new pieces, or those
left out here, are filled. -/
structure Grows (but : List Nat) (β : Nat) (s s' : Site) : Prop where
  size : s.draft.size ≤ s'.draft.size
  piece : ∀ k, k < s.draft.size → k ∉ but → s'.draft.piece k = s.draft.piece k
  made : ∀ n p, s.madeOf n = some p → s'.madeOf n = some p
  fresh : ∀ n, β ≤ rank n → s'.madeOf n = s.madeOf n
  tag : ∀ n, s.graph.tag n ≠ .value → s'.graph.tag n = s.graph.tag n
  waiting : ∃ new, s'.waiting = new ++ s.waiting ∧
    ∀ e ∈ new, rank e.1 < β ∧ s.draft.size ≤ e.2

variable {g r root rank} {work todo : List (NodeId × Nat)} {but : List Nat} {β γ : Nat}
  {s s' s'' : Site} {n : NodeId} {p : Part} {k : Nat}

namespace Grows

theorem refl (rank : NodeId → Nat) (but : List Nat) (β : Nat) (s : Site) :
    Grows rank but β s s :=
  ⟨Nat.le_refl _, fun _ _ _ => rfl, fun _ _ => id, fun _ _ => rfl, fun _ _ => rfl,
    [], rfl, nofun⟩

theorem trans (h : Grows rank but β s s') (h' : Grows rank but β s' s'') :
    Grows rank but β s s'' where
  size := Nat.le_trans h.size h'.size
  piece k hk hbut :=
    (h'.piece k (Nat.lt_of_lt_of_le hk h.size) hbut).trans (h.piece k hk hbut)
  made n p hn := h'.made n p (h.made n p hn)
  fresh n hn := (h'.fresh n hn).trans (h.fresh n hn)
  tag n hn := (h'.tag n (by rwa [h.tag n hn])).trans (h.tag n hn)
  waiting := by
    obtain ⟨new, hnew, hlt⟩ := h.waiting
    obtain ⟨new', hnew', hlt'⟩ := h'.waiting
    refine ⟨new' ++ new, by rw [hnew', hnew, List.append_assoc], fun e he => ?_⟩
    rcases List.mem_append.1 he with he | he
    · exact ⟨(hlt' e he).1, Nat.le_trans h.size (hlt' e he).2⟩
    · exact hlt e he

theorem weaken {but' : List Nat} (h : Grows rank but β s s') (hbut : ∀ k ∈ but, k ∈ but')
    (hβ : β ≤ γ) : Grows rank but' γ s s' where
  size := h.size
  piece k hk hnot := h.piece k hk fun hmem => hnot (hbut k hmem)
  made := h.made
  fresh n hn := h.fresh n (Nat.le_trans hβ hn)
  tag := h.tag
  waiting := h.waiting.imp fun _ => And.imp_right fun hnew e he =>
    ⟨Nat.lt_of_lt_of_le (hnew e he).1 hβ, (hnew e he).2⟩

theorem tag_ne (h : Grows rank but β s s') (hn : s.graph.tag n ≠ .value) :
    s'.graph.tag n ≠ .value := by
  rwa [h.tag n hn]

end Grows

theorem mem_appended {α : Type} {as bs cs ds : List α} {a : α} :
    a ∈ as ++ bs ++ cs ++ ds ↔ a ∈ as ∨ a ∈ bs ++ cs ++ ds := by
  rw [List.append_assoc, List.append_assoc, ← List.append_assoc bs, List.mem_append]

section Inv

variable (hg : g.InOrder r root rank)

theorem plan_eq_of_ne {ρ : Role} (h : g.tag n ≠ .value ∨ ρ ≠ .item) :
    g.plan r (ρ, n) = g.plan r (.key, n) := by
  have htag : ρ.tag (g.tag n) = Role.key.tag (g.tag n) := by
    cases ρ with
    | item =>
      have hne := h.resolve_right (fun h => h rfl)
      cases ht : g.tag n with
      | value => exact absurd ht hne
      | _ => rfl
    | key => rfl
    | name => cases g.tag n <;> rfl
  rw [Graph.plan, Graph.plan, htag]

include hg

/-- A node with a part means the same in all roles it has. -/
theorem Inv.plan_eq (h : Inv g r root rank work todo s) {named : Bool} {ρ : Role}
    (hn : g.Built r root named ρ n) (hp : s.madeOf n = some p) :
    g.plan r (ρ, n) = g.plan r (.key, n) := by
  apply plan_eq_of_ne
  by_cases hvalue : g.tag n = .value
  · refine Or.inr fun hρ => ?_
    rcases h.edited.tag n with hsame | ⟨-, -, hkey⟩
    · exact h.tag n p hp (hsame.trans hvalue)
    · exact (hg.steady.keys n hvalue hkey).1 named (hρ ▸ hn)
  · exact Or.inl hvalue

/-- What has been made of nodes tells their values: in the names of fields at any time, and at the
end everywhere. -/
theorem Inv.tells (h : Inv g r root rank work todo s) {named : Bool}
    (hopen : named = true ∨ work ++ todo ++ s.waiting = []) {ρ : Role}
    (hn : g.Built r root named ρ n) (hp : s.madeOf n = some p) :
    ∃ v, g.meaning r (ρ, n) = some v ∧ s.draft.Tells p v := by
  induction hk : rank n using Nat.strongRecOn generalizing n named ρ p with
  | _ k ih =>
    have hsame := h.plan_eq hg hn hp
    rcases h.drawn n p hp with ⟨j, rfl, hmem, ⟨σ, hσ⟩, hempty⟩ | ⟨q, hq, hdrawn⟩
    · rcases hopen with rfl | hnil
      · exact absurd hσ (hg.steady.apart n ρ σ hempty hn)
      · rw [hnil] at hmem
        cases hmem
    · rw [hg.ranked.meaning_eq, hsame, hq]
      refine hdrawn.tells hg.ranked (fun j hj => hj.1) fun u hu c hc => ?_
      have hbuilt := hn.use (hsame.trans hq) (σ := u.1) (c := u.2) hu
      have hlt := hg.ranked.lt_of_holds (hg.ranked.uses_plan hq hu).1
      refine ih (rank u.2) (by omega) ?_ hbuilt hc rfl
      exact hopen.imp_left fun hnamed => by rw [hnamed, Bool.true_or]

omit hg in
/-- The mappings of the document are changed by merging. -/
theorem Inv.edit (h : Inv g r root rank work todo s) {h' : Graph}
    (hedited : g.Edited rank (g.Merged r root) (g.size + 1) h')
    (htag : ∀ n, s.graph.tag n ≠ .value → h'.tag n = s.graph.tag n) :
    Inv g r root rank work todo { s with graph := h' } ∧
      Grows rank [] 0 s { s with graph := h' } := by
  refine ⟨{ h with edited := hedited, tag := ?_, drawn := ?_ },
    { Grows.refl rank [] 0 s with tag := htag }⟩
  · intro n p hp
    show h'.tag n ≠ .value
    rw [htag n (h.tag n p hp)]
    exact h.tag n p hp
  · intro n p hp
    exact (h.drawn n p hp).imp_right fun ⟨q, hq, hdrawn⟩ =>
      ⟨q, hq, hdrawn.mono (fun _ _ => id) fun k hk => ⟨hk, rfl⟩⟩

omit hg in
/-- The number of a new piece is that of no other one. -/
theorem Inv.nodup_new (h : Inv g r root rank work todo s) {new : List (NodeId × Nat)}
    (hnew : ∀ e ∈ new, e.2 = s.draft.size) (hone : new.length ≤ 1) :
    ((new ++ work ++ todo ++ s.waiting).map (·.2)).Nodup := by
  cases new with
  | nil => exact h.nodup
  | cons e es =>
    obtain rfl : es = [] := List.length_eq_zero_iff.1 (by simpa using hone)
    show (((e :: (work ++ todo ++ s.waiting))).map (·.2)).Nodup
    rw [List.map_cons, List.nodup_cons]
    refine ⟨fun hmem => ?_, h.nodup⟩
    obtain ⟨d, hd, hde⟩ := List.mem_map.1 hmem
    have hlt := (h.known d hd).1
    have heq := hnew e List.mem_cons_self
    omega

omit hg in
/-- A new piece is added, which may be one to be filled. -/
theorem Inv.add (h : Inv g r root rank work todo s) (x : Piece)
    (new : List (NodeId × Nat)) (hnew : ∀ e ∈ new, e.2 = s.draft.size)
    (hone : new.length ≤ 1) (hx : new ≠ [] → x.isAnnotated = false) :
    Inv g r root rank (new ++ work) todo { s with draft := s.draft.add x } ∧
      Grows rank [] 0 s { s with draft := s.draft.add x } := by
  have hpiece : ∀ k, k < s.draft.size → (s.draft.add x).piece k = s.draft.piece k :=
    fun k hk => Draft.piece_add_of_lt hk
  constructor
  · refine { h with drawn := ?_, known := ?_, nodup := h.nodup_new hnew hone, empty := ?_ }
    · intro n p hp
      rcases h.drawn n p hp with ⟨k, hk, hkmem, hrest⟩ | ⟨q, hq, hdrawn⟩
      · exact Or.inl ⟨k, hk, mem_appended.2 (Or.inr hkmem), hrest⟩
      · refine Or.inr ⟨q, hq, hdrawn.mono (fun _ _ => id) fun k hk => ⟨⟨?_, ?_⟩, hpiece k hk.1⟩⟩
        · show k < (s.draft.add x).size
          rw [Draft.size_add]
          exact Nat.lt_succ_of_lt hk.1
        · intro e he hek
          rcases mem_appended.1 he with he | he
          · have heq := hnew e he
            have hlt := hk.1
            omega
          · exact hk.2 e he hek
    · intro e he
      show e.2 < (s.draft.add x).size ∧ ((s.draft.add x).piece e.2).isAnnotated = false
      rw [Draft.size_add]
      rcases mem_appended.1 he with he | he
      · rw [hnew e he, Draft.piece_add_self]
        exact ⟨Nat.lt_succ_self _, hx (List.ne_nil_of_mem he)⟩
      · obtain ⟨hlt, hkind⟩ := h.known e he
        rw [hpiece e.2 hlt]
        exact ⟨Nat.lt_succ_of_lt hlt, hkind⟩
    · intro e he
      obtain ⟨hmade, hbuilt, hempty⟩ := h.empty e he
      refine ⟨hmade, hbuilt, ?_⟩
      have hlt := (h.known e (by rw [List.append_assoc]; exact List.mem_append_right _ he)).1
      rw [hempty]
      exact congrArg some (hpiece e.2 hlt).symm
  · refine { Grows.refl rank [] 0 s with size := ?_, piece := fun k hk _ => hpiece k hk }
    show s.draft.size ≤ (s.draft.add x).size
    rw [Draft.size_add]
    exact Nat.le_succ _

omit hg in
/-- A piece that is being filled changes. -/
theorem Inv.setPiece (h : Inv g r root rank work todo s) (hk : (n, k) ∈ work) {x : Piece}
    (hx : x.isAnnotated = false) :
    Inv g r root rank work todo { s with draft := s.draft.setPiece k x } ∧
      Grows rank [k] 0 s { s with draft := s.draft.setPiece k x } := by
  have hopen : (n, k) ∈ work ++ todo ++ s.waiting := by
    rw [List.append_assoc]
    exact List.mem_append_left _ hk
  have hlt := (h.known _ hopen).1
  have hpiece : ∀ l, (s.draft.setPiece k x).piece l = if l = k then x else s.draft.piece l :=
    fun l => Draft.piece_setPiece hlt
  constructor
  · refine { h with drawn := ?_, known := ?_, empty := ?_ }
    · intro m p hp
      refine (h.drawn m p hp).imp_right fun ⟨q, hq, hdrawn⟩ => ⟨q, hq, ?_⟩
      refine hdrawn.mono (fun _ _ => id) fun l hl => ⟨⟨?_, hl.2⟩, ?_⟩
      · show l < (s.draft.setPiece k x).size
        rw [Draft.size_setPiece]
        exact hl.1
      · exact (hpiece l).trans (if_neg fun hlk => hl.2 _ hopen hlk.symm)
    · intro e he
      obtain ⟨helt, hkind⟩ := h.known e he
      refine ⟨?_, ?_⟩
      · show e.2 < (s.draft.setPiece k x).size
        rwa [Draft.size_setPiece]
      · show ((s.draft.setPiece k x).piece e.2).isAnnotated = false
        rw [hpiece]
        split
        · exact hx
        · exact hkind
    · intro e he
      obtain ⟨hmade, hbuilt, hempty⟩ := h.empty e he
      refine ⟨hmade, hbuilt, hempty.trans (congrArg some ?_)⟩
      have hnodup := h.nodup
      rw [List.append_assoc, List.map_append, List.nodup_append] at hnodup
      have hne : k ≠ e.2 := hnodup.2.2 k (List.mem_map_of_mem hk) e.2 (List.mem_map_of_mem he)
      exact ((hpiece e.2).trans (if_neg hne.symm)).symm
  · refine { Grows.refl rank [k] 0 s with size := ?_, piece := ?_ }
    · show s.draft.size ≤ (s.draft.setPiece k x).size
      rw [Draft.size_setPiece]
    · intro l _ hl
      exact (hpiece l).trans (if_neg fun hlk => hl (List.mem_singleton.2 hlk))

omit hg in
/-- The next node's piece is to be filled. -/
theorem Inv.start {e : NodeId × Nat} (h : Inv g r root rank work (e :: todo) s) :
    Inv g r root rank (e :: work) todo s := by
  have hperm : (e :: work ++ todo ++ s.waiting).Perm (work ++ e :: todo ++ s.waiting) :=
    List.Perm.append_right _ (List.perm_middle : (work ++ e :: todo).Perm _).symm
  refine { h with drawn := ?_, known := ?_, nodup := ?_, empty := ?_ }
  · intro n p hp
    rcases h.drawn n p hp with ⟨k, hk, hmem, hrest⟩ | ⟨q, hq, hdrawn⟩
    · exact Or.inl ⟨k, hk, hperm.mem_iff.2 hmem, hrest⟩
    · exact Or.inr ⟨q, hq, hdrawn.mono (fun _ _ => id) fun k hk =>
        ⟨⟨hk.1, fun d hd => hk.2 d (hperm.mem_iff.1 hd)⟩, rfl⟩⟩
  · exact fun d hd => h.known d (hperm.mem_iff.1 hd)
  · exact (hperm.map _).nodup_iff.2 h.nodup
  · exact fun d hd => h.empty d (List.mem_cons_of_mem e hd)

omit hg in
/-- The part of a node is known, and the node's own piece, if it has been filled, is finished. -/
theorem Inv.settle (done : List (NodeId × Nat)) (h : Inv g r root rank (done ++ work) todo s)
    (hdone : ∀ e ∈ done, e.1 = n) (hold : ∀ q, s.madeOf n = some q → q = p)
    (htag : s.graph.tag n ≠ .value) {q : Plan} (hq : g.plan r (.key, n) = some q)
    (hdrawn : q.Drawn g r s (s.Fixed (work ++ todo ++ s.waiting)) n p)
    (hgraph : s'.graph = s.graph) (hdraft : s'.draft = s.draft) (hwaiting : s'.waiting = s.waiting)
    (hsize : s'.made.size = s.made.size)
    (hmade : ∀ m, s'.madeOf m = if m = n then some p else s.madeOf m) :
    Inv g r root rank work todo s' := by
  have hmono : ∀ m q, s.madeOf m = some q → s'.madeOf m = some q := by
    intro m q hm
    rw [hmade]
    split
    · rename_i hmn
      rw [hold q (hmn ▸ hm)]
    · exact hm
  have hsub : ∀ e ∈ work ++ todo ++ s.waiting, e ∈ done ++ work ++ todo ++ s.waiting :=
    fun e he => mem_appended.2 (Or.inr he)
  have hfixed : ∀ k, s.Fixed (done ++ work ++ todo ++ s.waiting) k →
      s'.Fixed (work ++ todo ++ s.waiting) k := fun k hk =>
    ⟨by rw [hdraft]; exact hk.1, fun e he => hk.2 e (hsub e he)⟩
  refine ⟨by rw [hgraph]; exact h.edited, hsize.trans h.size, ?_, ?_, ?_, ?_, ?_⟩
  · intro m q hm
    rw [hgraph]
    rw [hmade] at hm
    split at hm
    · rename_i hmn
      exact hmn ▸ htag
    · exact h.tag m q hm
  · intro m c hm
    rw [hmade] at hm
    rw [hwaiting]
    split at hm
    · rename_i hmn
      cases hm
      subst hmn
      refine Or.inr ⟨q, hq, hdrawn.mono hmono fun k hk => ⟨⟨?_, hk.2⟩, by rw [hdraft]⟩⟩
      rw [hdraft]
      exact hk.1
    · rename_i hmn
      rcases h.drawn m c hm with ⟨k, hk, hmem, hrest⟩ | ⟨d, hd, hdrawn'⟩
      · have hopen := (mem_appended.1 hmem).resolve_left fun hmem => hmn (hdone _ hmem)
        exact Or.inl ⟨k, hk, hopen, hrest⟩
      · exact Or.inr ⟨d, hd, hdrawn'.mono hmono fun k hk => ⟨hfixed k hk, by rw [hdraft]⟩⟩
  · intro e he
    rw [hwaiting] at he
    rw [hdraft]
    exact h.known e (hsub e he)
  · have hnodup := h.nodup
    rw [List.append_assoc, List.append_assoc, ← List.append_assoc work, List.map_append] at hnodup
    rw [hwaiting]
    exact (List.nodup_append.1 hnodup).2.1
  · intro e he
    rw [hwaiting] at he
    rw [hdraft]
    exact (h.empty e he).imp_left (hmono _ _)

omit hg in
/-- The piece of a node waits to be filled. -/
theorem Inv.wait (h : Inv g r root rank ((n, k) :: work) todo s) (hnew : s.madeOf n = none)
    (htag : s.graph.tag n ≠ .value) (hbuilt : ∃ ρ, g.Built r root false ρ n)
    (hempty : emptyPiece? r (g.tag n) = some (s.draft.piece k))
    (hgraph : s'.graph = s.graph) (hdraft : s'.draft = s.draft)
    (hwaiting : s'.waiting = (n, k) :: s.waiting) (hsize : s'.made.size = s.made.size)
    (hmade : ∀ m, s'.madeOf m = if m = n then some (.piece k) else s.madeOf m) :
    Inv g r root rank work todo s' := by
  have hmono : ∀ m q, s.madeOf m = some q → s'.madeOf m = some q := by
    intro m q hm
    rw [hmade, if_neg fun hmn => absurd (hmn ▸ hm) (by rw [hnew]; exact nofun)]
    exact hm
  have hperm : (work ++ todo ++ (n, k) :: s.waiting).Perm ((n, k) :: work ++ todo ++ s.waiting) :=
    List.perm_middle
  refine ⟨by rw [hgraph]; exact h.edited, hsize.trans h.size, ?_, ?_, ?_, ?_, ?_⟩
  · intro m q hm
    rw [hgraph]
    rw [hmade] at hm
    split at hm
    · rename_i hmn
      exact hmn ▸ htag
    · exact h.tag m q hm
  · intro m c hm
    rw [hmade] at hm
    rw [hwaiting]
    split at hm
    · rename_i hmn
      cases hm
      refine Or.inl ⟨k, rfl, hperm.mem_iff.2 (hmn ▸ List.mem_cons_self), hmn ▸ hbuilt, ?_⟩
      rw [hmn, hempty]
      rfl
    · rcases h.drawn m c hm with ⟨l, hl, hmem, hrest⟩ | ⟨d, hd, hdrawn⟩
      · exact Or.inl ⟨l, hl, hperm.mem_iff.2 hmem, hrest⟩
      · refine Or.inr ⟨d, hd, hdrawn.mono hmono fun l hl => ⟨⟨?_, ?_⟩, by rw [hdraft]⟩⟩
        · rw [hdraft]
          exact hl.1
        · exact fun e he => hl.2 e (hperm.mem_iff.1 he)
  · intro e he
    rw [hwaiting] at he
    rw [hdraft]
    exact h.known e (hperm.mem_iff.1 he)
  · rw [hwaiting]
    exact (hperm.map _).nodup_iff.2 h.nodup
  · intro e he
    rw [hwaiting] at he
    rw [hdraft]
    rcases List.mem_cons.1 (List.perm_middle.mem_iff.1 he) with rfl | he
    · exact ⟨by rw [hmade, if_pos rfl], hbuilt, hempty⟩
    · exact (h.empty e he).imp_left (hmono _ _)

end Inv

end Site

end TreePaths.Yaml
