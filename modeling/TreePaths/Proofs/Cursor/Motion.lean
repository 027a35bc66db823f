import TreePaths.Extraction.Session
import TreePaths.Proofs.Cursor

/-!
What moves can do to a cursor, whatever they are. Once it has passed the root it cannot come back,
and each frame holds the children of the value on which the frame around it stands. So the cursor
has come back to where it was if it is in the same containers and its ordinal is the same.
-/

namespace TreePaths

theorem Frame.eq_of_ordinal {f g : Frame} (he : f.entries = g.entries)
    (ho : f.ordinal = g.ordinal) : f = g := by
  obtain ⟨entries, reached⟩ := f
  obtain ⟨entries', reached'⟩ := g
  simp only [ordinal] at he ho
  obtain rfl := he
  congr 1
  omega

namespace Cursor

/-- The cursor after a move. A move that the cursor refuses leaves it where it is. -/
def after (c : Cursor) : Move → Cursor
  | .stepIn => c.stepIn.toOption.getD c
  | .stepOut => c.stepOut.toOption.getD c
  | .next => c.next

theorem after_stepIn {c d : Cursor} (h : c.stepIn = .ok d) : c.after .stepIn = d := by
  rw [after, h]
  rfl

theorem after_stepOut {c d : Cursor} (h : c.stepOut = .ok d) : c.after .stepOut = d := by
  rw [after, h]
  rfl

def afterAll (c : Cursor) (ms : List Move) : Cursor :=
  ms.foldl after c

@[simp] theorem afterAll_nil (c : Cursor) : c.afterAll [] = c := rfl

@[simp] theorem afterAll_cons (c : Cursor) (m : Move) (ms : List Move) :
    c.afterAll (m :: ms) = (c.after m).afterAll ms := rfl

theorem afterAll_append (c : Cursor) (ms ns : List Move) :
    c.afterAll (ms ++ ns) = (c.afterAll ms).afterAll ns :=
  List.foldl_append

def ordinals (c : Cursor) : List Int :=
  c.frames.map Frame.ordinal

theorem ordinals_along (c : Cursor) (root : Value) (t : Trail) :
    (c.along root t).ordinals = c.ordinals ++ t.address.reverse.map Int.ofNat := by
  induction t with
  | nil => exact (List.append_nil _).symm
  | cons s t ih =>
    have hinside : (c.along root (s :: t)).ordinals =
        (c.along root t).ordinals ++ [Int.ofNat s.ordinal] := by
      simp [ordinals, frames, along, inside, Frame.ordinal]
    rw [hinside, ih, Trail.address_cons, List.reverse_cons, List.map_append, List.append_assoc]
    rfl

theorem stepIn_eq_ok {c d : Cursor} (h : c.stepIn = .ok d) :
    ∃ v, c.current? = some v ∧ d = c.inside v 0 := by
  rw [stepIn] at h
  split at h
  · cases h
  next v hv =>
    split at h
    · cases h
    · split at h
      · cases h
        exact ⟨v, hv, rfl⟩
      · cases h

/-- All that a move can do. -/
theorem after_cases (c : Cursor) (m : Move) :
    c.after m = c ∨
    (∃ v, m = .stepIn ∧ c.current? = some v ∧ c.after m = c.inside v 0) ∨
    (∃ f fs, m = .stepOut ∧ c.outer = f :: fs ∧ c.after m = ⟨f, fs⟩) ∨
    (m = .next ∧ c.after m = ⟨c.frame.advanced, c.outer⟩) := by
  cases m with
  | stepIn =>
    cases h : c.stepIn with
    | error f => exact .inl (by rw [after, h]; rfl)
    | ok d =>
      obtain ⟨v, hv, rfl⟩ := stepIn_eq_ok h
      exact .inr (.inl ⟨v, rfl, hv, by rw [after, h]; rfl⟩)
  | stepOut =>
    cases h : c.outer with
    | nil => exact .inl (by rw [after, stepOut, h]; rfl)
    | cons f fs => exact .inr (.inr (.inl ⟨f, fs, rfl, rfl, by rw [after, stepOut, h]; rfl⟩))
  | next => exact .inr (.inr (.inr ⟨rfl, rfl⟩))

section Over

variable {root : Value} {c : Cursor}

/-- The cursor is on the root of a document, past it, or below it. In the last case the outermost
frame still stands on the root. -/
inductive Over (root : Value) (c : Cursor) : Prop where
  | on (h : c = ofRoot root)
  | past (h : c = (ofRoot root).next)
  | below (fs : List Frame) (h : c.outer = fs ++ [(ofRoot root).frame])

/-- No move takes the cursor away from its document. -/
theorem Over.after (h : c.Over root) (m : Move) : (c.after m).Over root := by
  rcases c.after_cases m with hm | ⟨v, -, hv, hm⟩ | ⟨f, fs, -, ho, hm⟩ | ⟨-, hm⟩
  · rwa [hm]
  · rw [hm]
    cases h with
    | on h => exact .below [] (by rw [h]; rfl)
    -- Past the root there is nothing to step into.
    | past h => rw [h] at hv; cases hv
    | below fs h => exact .below (c.frame :: fs) (by rw [outer_inside, h]; rfl)
  · rw [hm]
    cases h with
    | on h => rw [h] at ho; cases ho
    | past h => rw [h] at ho; cases ho
    | below gs h =>
      cases gs with
      | nil =>
        obtain ⟨rfl, rfl⟩ := List.cons.inj (ho.symm.trans h)
        exact .on rfl
      | cons g gs =>
        obtain ⟨rfl, rfl⟩ := List.cons.inj (ho.symm.trans h)
        exact .below gs rfl
  · rw [hm]
    cases h with
    | on h => exact .past (by rw [h]; rfl)
    | past h => exact .past (by rw [h]; rfl)
    | below fs h => exact .below fs h

theorem Over.of_depth_eq_zero (h : c.Over root) (hd : c.depth = 0) :
    c = ofRoot root ∨ c = (ofRoot root).next := by
  cases h with
  | on h => exact .inl h
  | past h => exact .inr h
  | below fs h => simp [depth, h] at hd

theorem Over.outer_of_depth_eq_one (h : c.Over root) (hd : c.depth = 1) :
    c.outer = [(ofRoot root).frame] := by
  cases h with
  | on h => rw [h] at hd; cases hd
  | past h => rw [h] at hd; cases hd
  | below fs h =>
    have hfs : fs = [] := by simpa [depth, h] using hd
    rw [h, hfs, List.nil_append]

end Over

/-- A frame holds the children of the value on which the frame around it stands, and so outwards. -/
def Linked : Frame → List Frame → Prop
  | _, [] => True
  | f, g :: gs =>
    (∃ e, g.current? = some e ∧ f.entries = (Frame.opened e.2.bare).entries) ∧ Linked g gs

theorem Linked.of_entries {f g : Frame} {fs : List Frame} (h : Linked f fs)
    (he : g.entries = f.entries) : Linked g fs := by
  cases fs with
  | nil => trivial
  | cons f' fs =>
    obtain ⟨⟨e, hcur, hf⟩, hfs⟩ := h
    exact ⟨⟨e, hcur, he.trans hf⟩, hfs⟩

theorem linked_after {c : Cursor} (h : Linked c.frame c.outer) (m : Move) :
    Linked (c.after m).frame (c.after m).outer := by
  rcases c.after_cases m with hm | ⟨v, -, hv, hm⟩ | ⟨f, fs, -, ho, hm⟩ | ⟨-, hm⟩
  · rwa [hm]
  · rw [hm]
    obtain ⟨e, he, rfl⟩ := Option.map_eq_some_iff.mp hv
    exact ⟨⟨e, he, rfl⟩, h⟩
  · rw [hm]
    rw [ho] at h
    exact h.2
  · rw [hm]
    exact h.of_entries rfl

/-- The cursor may be found over a document: moves from its root have led to it. -/
def Visits (root : Value) (c : Cursor) : Prop :=
  ∃ ms, c = (ofRoot root).afterAll ms

namespace Visits

variable {root : Value} {c d : Cursor}

theorem afterAll (h : c.Visits root) (ms : List Move) : (c.afterAll ms).Visits root := by
  obtain ⟨ns, rfl⟩ := h
  exact ⟨ns ++ ms, (afterAll_append _ ns ms).symm⟩

/-- What holds on the root and what moves keep holds of a cursor over the document. -/
theorem invariant {P : Cursor → Prop} (hroot : P (ofRoot root)) (hstep : ∀ c m, P c → P (c.after m))
    (h : c.Visits root) : P c := by
  obtain ⟨ms, rfl⟩ := h
  induction ms using List.reverseRecOn with
  | nil => exact hroot
  | append_singleton ms m ih =>
    rw [afterAll_append]
    exact hstep _ m ih

theorem toOver (h : c.Visits root) : c.Over root :=
  h.invariant (.on rfl) fun _ m hc => hc.after m

theorem linked (h : c.Visits root) : Linked c.frame c.outer :=
  h.invariant (P := fun c => Linked c.frame c.outer) trivial fun _ m hc => linked_after hc m

/-- In the same containers a cursor is told by its ordinal. -/
theorem eq_of_outer_eq (hc : c.Visits root) (hd : d.Visits root) (houter : c.outer = d.outer)
    (ho : c.ordinal = d.ordinal) : c = d := by
  cases hfs : d.outer with
  | nil =>
    have hnil := houter.trans hfs
    rcases hc.toOver.of_depth_eq_zero (by rw [depth, hnil]; rfl) with rfl | rfl
    · rcases hd.toOver.of_depth_eq_zero (by rw [depth, hfs]; rfl) with rfl | rfl
      · rfl
      · cases ho
    · rcases hd.toOver.of_depth_eq_zero (by rw [depth, hfs]; rfl) with rfl | rfl
      · cases ho
      · rfl
  | cons f fs =>
    have hlc := hc.linked
    have hld := hd.linked
    rw [houter, hfs] at hlc
    rw [hfs] at hld
    obtain ⟨⟨e, he, hce⟩, -⟩ := hlc
    obtain ⟨⟨e', he', hde⟩, -⟩ := hld
    obtain rfl := Option.some.inj (he.symm.trans he')
    obtain ⟨frame, outer⟩ := c
    obtain ⟨frame', outer'⟩ := d
    obtain rfl : outer = outer' := houter
    congr 1
    exact Frame.eq_of_ordinal (hce.trans hde.symm) ho

end Visits

/-- The moves go to no next sibling above depth `d`, the top level apart. -/
def Spares (c : Cursor) (d : Nat) : List Move → Prop
  | [] => True
  | m :: ms => (m = .next → c.depth = 0 ∨ d ≤ c.depth) ∧ (c.after m).Spares d ms

theorem spares_of_le_one {c : Cursor} {d : Nat} (hd : d ≤ 1) (ms : List Move) : c.Spares d ms := by
  induction ms generalizing c with
  | nil => trivial
  | cons m ms ih => exact ⟨fun _ => (Nat.eq_zero_or_pos c.depth).imp_right hd.trans, ih⟩

/-- How a cursor can stand to the containers that it started in: it is in all of them, it has left
some and stands on the innermost of these, it has entered that one again and is before its first
child, or it has left all of them and the root. -/
inductive Near (root : Value) (outer : List Frame) (c : Cursor) : Prop where
  | within (h : outer <:+ c.outer)
  | out (h : c.frame :: c.outer <:+ outer)
  | again (h : c.outer <:+ outer) (hlt : c.depth < outer.length) (hfirst : c.frame.reached = 0)
  | past (h : c = (ofRoot root).next)

section Near

variable {root : Value} {outer : List Frame} {c : Cursor} {m : Move} {ms : List Move}

theorem Near.next (h : c.Near root outer) (hover : c.Over root)
    (hd : c.depth = 0 ∨ outer.length ≤ c.depth) : c.next.Near root outer := by
  cases h with
  | within h => exact .within h
  | out h =>
    rcases hd with hd | hd
    · rcases hover.of_depth_eq_zero hd with rfl | rfl
      · exact .past rfl
      · exact .past rfl
    · exact absurd (h.length_le.trans hd) (Nat.not_succ_le_self _)
  | again h hlt hfirst =>
    rcases hd with hd | hd
    · rcases hover.of_depth_eq_zero hd with rfl | rfl
      · cases hfirst
      · cases hfirst
    · exact absurd hd (Nat.not_le_of_lt hlt)
  | past h => exact .past (by rw [h]; rfl)

/-- A cursor stays near the containers that it started in, whatever it does, as long as it goes to
no next sibling outside them. -/
theorem Near.after (h : c.Near root outer) (hover : c.Over root)
    (hm : m = .next → c.depth = 0 ∨ outer.length ≤ c.depth) : (c.after m).Near root outer := by
  rcases c.after_cases m with heq | ⟨v, -, hv, heq⟩ | ⟨f, fs, -, ho, heq⟩ | ⟨rfl, -⟩
  · rwa [heq]
  · rw [heq]
    cases h with
    | within h => exact .within (h.trans (List.suffix_cons _ _))
    | out h =>
      rcases Nat.eq_or_lt_of_le h.length_le with hlen | hlt
      · exact .within (by rw [outer_inside, h.eq_of_length hlen])
      · exact .again h hlt rfl
    -- Before the first child and past the root there is nothing to step into.
    | again h hlt hfirst => simp [current?, Frame.current?, hfirst] at hv
    | past h => rw [h] at hv; cases hv
  · rw [heq]
    cases h with
    | within h =>
      rw [ho] at h
      rcases List.suffix_cons_iff.mp h with rfl | h
      · exact .out List.suffix_rfl
      · exact .within h
    | out h => exact .out ((List.suffix_cons c.frame _).trans (ho ▸ h))
    | again h _ _ => exact .out (ho ▸ h)
    | past h => rw [h] at ho; cases ho
  · exact h.next hover (hm rfl)

theorem Near.afterAll (h : c.Near root outer) (hover : c.Over root)
    (hms : c.Spares outer.length ms) : (c.afterAll ms).Near root outer := by
  induction ms generalizing c with
  | nil => exact h
  | cons m ms ih => exact ih (h.after hover hms.1) (hover.after m) hms.2

/-- Moves that go to no next sibling above the depth of the cursor, the top level apart, and end as
deep as they began, end in the same containers. -/
theorem Over.outer_afterAll (h : c.Over root) (hms : c.Spares c.depth ms)
    (hdepth : (c.afterAll ms).depth = c.depth) : (c.afterAll ms).outer = c.outer := by
  have hnear : (c.afterAll ms).Near root c.outer := Near.afterAll (.within List.suffix_rfl) h hms
  cases hnear with
  | within h => exact (h.eq_of_length hdepth.symm).symm
  | out h => exact absurd (h.length_le.trans_eq hdepth.symm) (Nat.not_succ_le_self _)
  | again _ hlt _ => exact absurd hdepth hlt.ne
  | past h =>
    rw [h] at hdepth ⊢
    exact (List.length_eq_zero_iff.mp hdepth.symm).symm

end Near

end Cursor
end TreePaths
