import TreePaths.Proofs.Cursor.Motion
import TreePaths.Proofs.Extraction.Action

/-!
A cursor is told by ordinals. Whatever methods are called, its frames are those that one finds by
following their ordinals from the root of the document, one container after the other, and what the
cursor tells is what is found there.
-/

namespace TreePaths

def Value.entries (v : Value) : List (Option Position × Value) :=
  v.bare.children.map fun e => (some e.1, e.2)

def childAt? (es : List (Option Position × Value)) (i : Int) : Option (Option Position × Value) :=
  if 0 ≤ i then es[i.toNat]? else none

/-- The child to which ordinals lead, each of them in the container to which those before it
lead. -/
def follow (es : List (Option Position × Value)) : List Int → Option (Option Position × Value)
  | [] => none
  | [i] => childAt? es i
  | i :: is => (childAt? es i).bind fun e => follow e.2.entries is

/-- The positions of the children on the way along ordinals, as far as there are any. -/
def positionsAlong (es : List (Option Position × Value)) : List Int → List Position
  | [] => []
  | i :: is =>
    match childAt? es i with
    | none => []
    | some e => e.1.toList ++ positionsAlong e.2.entries is

def Value.top (root : Value) : List (Option Position × Value) :=
  [(none, root)]

section Follow

variable {es : List (Option Position × Value)} {is : List Int} {e : Option Position × Value}

theorem mem_of_childAt? {i : Int} (h : childAt? es i = some e) : e ∈ es := by
  rw [childAt?] at h
  split at h
  · exact List.mem_of_getElem? h
  · cases h

theorem Frame.current?_eq (f : Frame) : f.current? = childAt? f.entries f.ordinal := by
  obtain ⟨entries, reached⟩ := f
  cases reached with
  | zero => rfl
  | succ n => simp [Frame.current?, Frame.ordinal, childAt?]

theorem follow_concat (h : is ≠ []) (i : Int) :
    follow es (is ++ [i]) = (follow es is).bind fun e => childAt? e.2.entries i := by
  induction is generalizing es with
  | nil => exact absurd rfl h
  | cons j is ih =>
    cases is with
    | nil => rfl
    | cons k is =>
      simp only [List.cons_append, follow] at ih ⊢
      rw [Option.bind_assoc]
      exact Option.bind_congr fun e _ => ih (List.cons_ne_nil k is)

/-- One more ordinal adds the position of the child that it leads to, if that child has one. -/
theorem positionsAlong_concat (h : follow es is = some e) (i : Int) :
    positionsAlong es (is ++ [i]) =
      positionsAlong es is ++ ((childAt? e.2.entries i).bind (·.1)).toList := by
  induction is generalizing es with
  | nil => cases h
  | cons j is ih =>
    cases is with
    | nil =>
      have hj : childAt? es j = some e := h
      cases hi : childAt? e.2.entries i <;> simp [positionsAlong, hj, hi]
    | cons k is =>
      obtain ⟨e', hj, h⟩ := Option.bind_eq_some_iff.mp h
      have hrest := ih h
      simp only [List.cons_append] at hrest
      rw [List.cons_append, List.cons_append, positionsAlong, positionsAlong, hj]
      dsimp only
      rw [hrest, List.append_assoc]

end Follow

/-- The ordinal is that of a child, or the cursor is before the first one or behind the last one. -/
def Frame.InBounds (f : Frame) : Prop :=
  -1 ≤ f.ordinal ∧ f.ordinal ≤ f.entries.length

theorem Frame.inBounds_iff {f : Frame} : f.InBounds ↔ f.reached ≤ f.entries.length + 1 := by
  rw [InBounds, ordinal]
  omega

namespace Cursor

/-- The frames of a cursor over a document, from the inside outwards. The outermost one holds the
document alone. Any other holds the children of the container on which the frame around it
stands. -/
inductive Stacked (root : Value) : Frame → List Frame → Prop where
  | top {f : Frame} (hentries : f.entries = root.top) (hbounds : f.InBounds) : Stacked root f []
  | inner {f g : Frame} {gs : List Frame} {e : Option Position × Value} (h : Stacked root g gs)
      (hcur : g.current? = some e) (hcontainer : e.2.bare.isContainer)
      (hentries : f.entries = e.2.entries) (hbounds : f.InBounds) : Stacked root f (g :: gs)

namespace Stacked

variable {root : Value} {f g : Frame} {fs gs : List Frame}

/-- All values that a cursor over a finite document can come to are finite. -/
theorem isFinite (hfin : root.isFinite) (h : Stacked root f fs) :
    ∀ e ∈ f.entries, e.2.isFinite := by
  induction h with
  | top hentries =>
    intro e he
    rw [hentries] at he
    rw [List.mem_singleton.mp he]
    exact hfin
  | @inner f g gs e _ hcur _ hentries _ ih =>
    rw [Frame.current?_eq] at hcur
    have he := ih e (mem_of_childAt? hcur)
    intro e' he'
    rw [hentries] at he'
    obtain ⟨d, hd, rfl⟩ := List.mem_map.mp he'
    exact Value.isFinite_of_mem_children he hd

/-- Moving on in the innermost frame. -/
theorem of_reached (h : Stacked root f fs) {n : Nat} (hn : n ≤ f.entries.length + 1) :
    Stacked root { f with reached := n } fs := by
  have hbounds : ({ f with reached := n } : Frame).InBounds := Frame.inBounds_iff.mpr hn
  cases h with
  | top hentries _ => exact .top hentries hbounds
  | inner h hcur hcontainer hentries _ => exact .inner h hcur hcontainer hentries hbounds

theorem stepIn {c d : Cursor} (h : Stacked root c.frame c.outer) (hd : c.stepIn = .ok d) :
    Stacked root d.frame d.outer := by
  rw [Cursor.stepIn] at hd
  split at hd
  · cases hd
  next v hv =>
    obtain ⟨e, he, rfl⟩ := Option.map_eq_some_iff.mp hv
    split at hd
    · cases hd
    · split at hd
      next hcontainer =>
        cases hd
        exact .inner h he hcontainer rfl (Frame.inBounds_iff.mpr (Nat.zero_le _))
      · cases hd

/-- Whatever the move, and even if it is refused, the frames remain stacked over the document. -/
theorem after {c : Cursor} (h : Stacked root c.frame c.outer) (m : Move) :
    Stacked root (c.after m).frame (c.after m).outer := by
  cases m with
  | stepIn =>
    rw [Cursor.after]
    cases hd : c.stepIn with
    | error f => exact h
    | ok d => exact h.stepIn hd
  | stepOut =>
    obtain ⟨frame, outer⟩ := c
    cases h with
    | top hentries hbounds => exact .top hentries hbounds
    | inner h => exact h
  | next => exact h.of_reached (min_le_right _ _)

theorem ordinals_reverse (f : Frame) (fs : List Frame) :
    ((f :: fs).reverse.map Frame.ordinal) = (fs.reverse.map Frame.ordinal) ++ [f.ordinal] := by
  rw [List.reverse_cons, List.map_append, List.map_singleton]

/-- The ordinals lead to the child on which the innermost frame stands. -/
theorem follow_eq (h : Stacked root f fs) :
    follow root.top ((f :: fs).reverse.map Frame.ordinal) = f.current? := by
  induction h with
  | top hentries => rw [Frame.current?_eq, hentries]; rfl
  | @inner f g gs e _ hcur _ hentries _ ih =>
    rw [ordinals_reverse, follow_concat (by simp), ih, hcur, Frame.current?_eq, hentries]
    rfl

/-- The positions on the way are those of the frames. -/
theorem positionsAlong_eq (h : Stacked root f fs) :
    positionsAlong root.top ((f :: fs).reverse.map Frame.ordinal) =
      ((f :: fs).reverse.drop 1).filterMap fun f => f.current?.bind (·.1) := by
  induction h with
  | @top f hentries _ =>
    have hnone {e : Option Position × Value} (he : childAt? root.top f.ordinal = some e) :
        e.1 = none := by
      rw [List.mem_singleton.mp (mem_of_childAt? he)]
    cases he : childAt? root.top f.ordinal with
    | none => simp [positionsAlong, he]
    | some e => simp [positionsAlong, he, hnone he]
  | @inner f g gs e h hcur _ hentries _ ih =>
    have hfollow := h.follow_eq
    rw [hcur] at hfollow
    have hdrop : (f :: g :: gs).reverse.drop 1 = (g :: gs).reverse.drop 1 ++ [f] := by
      rw [List.reverse_cons, List.drop_append_of_le_length (by simp)]
    rw [ordinals_reverse, positionsAlong_concat hfollow, ih, hdrop, List.filterMap_append,
      ← hentries, ← Frame.current?_eq]
    cases hp : f.current?.bind (·.1) <;> simp [hp]

/-- The frames are told by their ordinals. -/
theorem unique (hf : Stacked root f fs) (hg : Stacked root g gs)
    (h : (f :: fs).map Frame.ordinal = (g :: gs).map Frame.ordinal) : f = g ∧ fs = gs := by
  induction hf generalizing g gs with
  | top hentries =>
    cases hg with
    | top hentries' =>
      exact ⟨Frame.eq_of_ordinal (hentries.trans hentries'.symm) (List.cons.inj h).1, rfl⟩
    | inner => simp at h
  | inner _ hcur _ hentries _ ih =>
    cases hg with
    | top => simp at h
    | inner hg' hcur' _ hentries' _ =>
      obtain ⟨hhead, htail⟩ := List.cons.inj h
      obtain ⟨rfl, rfl⟩ := ih hg' htail
      obtain rfl := Option.some.inj (hcur.symm.trans hcur')
      exact ⟨Frame.eq_of_ordinal (hentries.trans hentries'.symm) hhead, rfl⟩

end Stacked

end Cursor

inductive Query : Type → Type where
  | depth : Query Nat
  | position : Query (Option Position)
  | ordinal : Query Int
  | annotations : Query (List String)
  | isContainer : Query Bool
  | value : Query Value
  | location : Query (List Position)

def Query.found {α : Type} (root : Value) (is : List Int) : Query α → Except CursorFault α
  | depth => .ok (is.length - 1)
  | position => .ok ((follow root.top is).bind (·.1))
  | ordinal => .ok (is.getLast?.getD 0)
  | annotations => .ok (((follow root.top is).map (·.2.annotations)).getD [])
  | isContainer => .ok ((follow root.top is).any (·.2.bare.isContainer))
  | value =>
    match follow root.top is with
    | some e => .ok e.2.plain
    | none => .error .nowhere
  | location => .ok (positionsAlong root.top is)

inductive Method where
  | move (m : Move)
  | ask {α : Type} (q : Query α)

/-- The cursor after a call. A move that it refuses leaves it where it is, and so do questions. -/
def Cursor.afterCall (c : Cursor) : Method → Cursor
  | .move m => c.after m
  | .ask _ => c

namespace Action

variable {σ ε α : Type}

def ask : Query α → Action σ ε α
  | .depth => look (·.cursor.depth)
  | .position => look (·.cursor.position)
  | .ordinal => look (·.cursor.ordinal)
  | .annotations => look (·.cursor.annotations)
  | .isContainer => look (·.cursor.isContainer)
  | .value => value
  | .location => look (·.cursor.location)

def move : Move → Action σ ε Unit
  | .stepIn => stepIn
  | .stepOut => stepOut
  | .next => do let _ ← next

def call : Method → Action σ ε Unit
  | .move m => move m
  | .ask q => do let _ ← ask q

end Action

def Session.afterCalls {σ : Type} (ε : Type) (s : Session σ) (calls : List Method) : Session σ :=
  calls.foldl (fun s m => (Effect.exec (Action.call m : Action σ ε Unit) s).2) s

open TreePaths.Action TreePaths.Effect

section Calls

variable {σ ε α : Type} {root : Value} {s : Session σ}

theorem exec_moveBy (f : Cursor → Except CursorFault Cursor) (s : Session σ) :
    exec (Action.moveBy f : Action σ ε Unit) s = match f s.cursor with
      | .ok c => (.ok (), { s with cursor := c })
      | .error fault => (.error (failureOf fault), s) := by
  rw [Action.moveBy, exec_bind_ok (exec_get s)]
  cases f s.cursor <;> rfl

/-- A move that fails leaves the cursor where it is. -/
theorem exec_move (m : Move) (s : Session σ) :
    (exec (Action.move m : Action σ ε Unit) s).2.cursor = s.cursor.after m ∧
      ∀ f, (exec (Action.move m : Action σ ε Unit) s).1 = .error f → s.cursor.after m = s.cursor ∧
        ∃ fault, f = failureOf fault ∧
          (m = .stepIn ∧ s.cursor.stepIn = .error fault ∨ fault = .stepOutOfRoot) := by
  cases m with
  | stepIn =>
    rw [Action.move, Action.stepIn, exec_bind_ok (exec_record .stepIn s), exec_moveBy, Cursor.after]
    dsimp only
    cases h : s.cursor.stepIn with
    | error fault =>
      exact ⟨rfl, fun f hf => ⟨rfl, fault, (Except.error.inj hf).symm, .inl ⟨rfl, rfl⟩⟩⟩
    | ok c => exact ⟨rfl, fun f hf => by cases hf⟩
  | stepOut =>
    rw [Action.move, Action.stepOut, exec_bind_ok (exec_record .stepOut s), exec_moveBy,
      Cursor.after, Cursor.stepOut]
    dsimp only
    cases h : s.cursor.outer with
    | nil => exact ⟨rfl, fun f hf => ⟨rfl, _, (Except.error.inj hf).symm, .inr rfl⟩⟩
    | cons g gs => exact ⟨rfl, fun f hf => by cases hf⟩
  | next => exact ⟨rfl, fun f hf => by cases hf⟩

theorem exec_ask (q : Query α) (s : Session σ) : (exec (Action.ask q : Action σ ε α) s).2 = s := by
  cases q with
  | value => rw [Action.ask, exec_value]
  | _ => rfl

/-- What a call does to the cursor, and that it does nothing to what the cursor tells besides. -/
theorem exec_call (m : Method) (s : Session σ) :
    (exec (Action.call m : Action σ ε Unit) s).2.cursor = s.cursor.afterCall m ∧
      (exec (Action.call m : Action σ ε Unit) s).2.indexed = s.indexed := by
  cases m with
  | move m =>
    refine ⟨(exec_move m s).1, ?_⟩
    cases m with
    | stepIn =>
      rw [Action.call, Action.move, Action.stepIn, exec_bind_ok (exec_record .stepIn s),
        exec_moveBy]
      cases s.cursor.stepIn <;> rfl
    | stepOut =>
      rw [Action.call, Action.move, Action.stepOut, exec_bind_ok (exec_record .stepOut s),
        exec_moveBy]
      cases s.cursor.stepOut <;> rfl
    | next => rfl
  | ask q =>
    have hs : (exec (Action.ask q : Action σ ε _) s).2 = s := exec_ask q s
    rw [Action.call, exec_bind]
    rcases h : exec (Action.ask q : Action σ ε _) s with ⟨e | v, s'⟩
    · rw [h] at hs
      exact ⟨congrArg Session.cursor hs, congrArg Session.indexed hs⟩
    · rw [h] at hs
      exact ⟨congrArg Session.cursor hs, congrArg Session.indexed hs⟩

end Calls

namespace Cursor

variable {root : Value} {c : Cursor}

theorem Stacked.current?_eq (h : Stacked root c.frame c.outer) :
    c.current? = (follow root.top c.ordinals).map (·.2) := by
  rw [Cursor.current?, ← h.follow_eq]
  rfl

theorem Stacked.position_eq (h : Stacked root c.frame c.outer) :
    c.position = (follow root.top c.ordinals).bind (·.1) := by
  rw [position, ← h.follow_eq]
  rfl

theorem Stacked.location_eq (h : Stacked root c.frame c.outer) :
    c.location = positionsAlong root.top c.ordinals :=
  h.positionsAlong_eq.symm

theorem Stacked.isFinite_current (h : Stacked root c.frame c.outer) (hfin : root.isFinite)
    {v : Value} (hv : c.current? = some v) : v.isFinite := by
  obtain ⟨e, he, rfl⟩ := Option.map_eq_some_iff.mp hv
  rw [Frame.current?_eq] at he
  exact h.isFinite hfin e (mem_of_childAt? he)

/-- The cursor tells what is found by following its ordinals. -/
theorem Stacked.exec_ask {σ ε α : Type} {s : Session σ}
    (h : Stacked root s.cursor.frame s.cursor.outer) (hfin : root.isFinite) (q : Query α) :
    exec (Action.ask q : Action σ ε α) s =
      ((q.found root s.cursor.ordinals).mapError fun fault => .violation (.cursor fault), s) := by
  cases q with
  | depth =>
    have hlength : s.cursor.ordinals.length - 1 = s.cursor.depth := by
      simp [ordinals, frames, depth]
    rw [Query.found, hlength]
    rfl
  | position => rw [Action.ask, exec_look, h.position_eq]; rfl
  | ordinal =>
    have hlast : s.cursor.ordinals.getLast?.getD 0 = s.cursor.ordinal := by
      simp [ordinals, frames, ordinal]
    rw [Query.found, hlast]
    rfl
  | annotations =>
    rw [Action.ask, exec_look, annotations, h.current?_eq, Option.map_map]
    rfl
  | isContainer =>
    rw [Action.ask, exec_look, isContainer, h.current?_eq, Query.found]
    cases follow root.top s.cursor.ordinals <;> rfl
  | value =>
    have hcur := h.current?_eq
    rw [Action.ask, exec_value, Cursor.value, Query.found]
    cases he : follow root.top s.cursor.ordinals with
    | none =>
      rw [he] at hcur
      rw [hcur]
      rfl
    | some e =>
      rw [he] at hcur
      rw [hcur]
      dsimp only [Option.map_some]
      rw [if_pos (h.isFinite_current hfin hcur)]
      rfl
  | location => rw [Action.ask, exec_look, h.location_eq]; rfl

end Cursor

/-- Two fields of one name, the second one with annotations around annotations. -/
def Sample.repeated : Value :=
  .struct [("a", .int 1), ("a", .annotated (.annotated (.list [.int 7]) ["unit"]) ["list"])]

end TreePaths
