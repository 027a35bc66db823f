import TreePaths.Proofs.Value.Plain
import TreePaths.Proofs.Value.Trail

/-!
Where the nodes of a document are found in its plain data: the positions on the way to a node lead
to what the node is as plain data, if no two children of a container have one name.
-/

namespace TreePaths

namespace Value

/-- What plain data holds at a position: the value of a text key, or the item at an index. -/
def at? : Value → Position → Option Value
  | map es, .name s => (map es).field? s
  | list xs, .index i => xs[i]?
  | _, _ => none

def locate? (v : Value) : List Position → Option Value
  | [] => some v
  | p :: ps => (v.at? p).bind fun w => w.locate? ps

/-- No container in the document, however deep, has two children of one name. -/
def NamesApart (root : Value) : Prop :=
  ∀ t : Trail, t.Leads root → ((t.value root).bare.children.map (·.1)).Nodup

theorem namesApart_iff {root : Value} : root.NamesApart ↔
    ∀ t ∈ [] :: root.preorder, ((Trail.value root t).bare.children.map (·.1)).Nodup := by
  constructor
  · intro h t ht
    rcases List.mem_cons.mp ht with rfl | ht
    · exact h [] trivial
    · exact h t (mem_preorder.mp ht).2
  · intro h t ht
    by_cases hnil : t = []
    · exact h t (hnil ▸ List.mem_cons_self)
    · exact h t (List.mem_cons_of_mem _ (mem_preorder.mpr ⟨hnil, ht⟩))

instance (root : Value) : Decidable root.NamesApart :=
  decidable_of_iff' _ namesApart_iff

theorem locate?_concat (v : Value) (ps : List Position) (p : Position) :
    v.locate? (ps ++ [p]) = (v.locate? ps).bind (·.at? p) := by
  induction ps generalizing v with
  | nil =>
    change ((v.at? p).bind fun w => some w) = v.at? p
    exact Option.bind_fun_some _
  | cons q ps ih =>
    rw [List.cons_append, locate?, locate?, Option.bind_assoc]
    exact congrArg _ (funext fun w => ih w)

theorem field?_record {fs : List (String × Value)} (h : (fs.map (·.1)).Nodup)
    {f : String × Value} (hmem : f ∈ fs) : (record fs).field? f.1 = some f.2 := by
  induction fs with
  | nil => cases hmem
  | cons g fs ih =>
    rw [List.map_cons, List.nodup_cons] at h
    have hkey : sameKey (str g.1) (str f.1) = (g.1 == f.1) := by rw [sameKey]
    rw [record, field?, List.map_cons, List.find?_cons, hkey]
    rcases List.mem_cons.mp hmem with rfl | hmem
    · rw [beq_self_eq_true]
      rfl
    · have hne : g.1 ≠ f.1 := fun heq => h.1 (heq ▸ List.mem_map_of_mem hmem)
      rw [beq_eq_false_iff_ne.mpr hne]
      exact ih h.2 hmem

theorem at?_ofFields {fs : List (String × Value)} (h : (fs.map (·.1)).Nodup)
    {f : String × Value} (hmem : f ∈ fs) : (ofFields fs).at? (.name f.1) = some f.2 := by
  rw [ofFields_of_nodup h]
  exact field?_record h hmem

theorem getElem?_indexed (xs : List Value) (n i : Nat) :
    (indexed n xs)[i]? = xs[i]?.map fun v => (.index (n + i), v) := by
  induction xs generalizing n i with
  | nil => rfl
  | cons v vs ih =>
    cases i with
    | zero => rfl
    | succ i =>
      rw [indexed, List.getElem?_cons_succ, List.getElem?_cons_succ, ih, Nat.add_assoc,
        Nat.add_comm 1 i]

theorem at?_plainAll {xs : List Value} {i : Nat} {e : Position × Value}
    (h : (indexed 0 xs)[i]? = some e) : (list (plainAll xs)).at? e.1 = some e.2.plain := by
  rw [getElem?_indexed, Nat.zero_add] at h
  obtain ⟨v, hv, rfl⟩ := Option.map_eq_some_iff.mp h
  rw [at?, plainAll_eq, List.getElem?_map, hv, Option.map_some]

theorem nodup_of_names {α : Type} {es : List α} {name : α → String}
    (h : (es.map fun e => Position.name (name e)).Nodup) : (es.map name).Nodup := by
  have hnames : (es.map name).map Position.name = es.map fun e => .name (name e) := by
    rw [List.map_map]
    rfl
  exact List.Nodup.of_map _ (hnames ▸ h)

/-- A child of a container is found at its position in the plain data of the container. -/
theorem at?_plain {v : Value} {i : Nat} {e : Position × Value}
    (hchild : v.bare.children[i]? = some e) (hnames : (v.bare.children.map (·.1)).Nodup) :
    v.plain.at? e.1 = some e.2.plain := by
  fun_induction bare v with
  | case1 v as ih =>
    rw [plain]
    exact ih hchild hnames
  | case2 v =>
    cases v with
    | list xs => exact at?_plainAll hchild
    | tuple xs => exact at?_plainAll hchild
    | struct fs =>
      obtain ⟨f, hf, rfl⟩ := List.mem_map.mp (List.mem_of_getElem? hchild)
      rw [children, List.map_map] at hnames
      have hapart : (fs.map (·.1)).Nodup := nodup_of_names hnames
      have hplain : (f.1, f.2.plain) ∈ fs.map fun g => (g.1, g.2.plain) := List.mem_map_of_mem hf
      rw [plain, plainFields_eq]
      refine at?_ofFields ?_ hplain
      rwa [List.map_map]
    | map es =>
      obtain ⟨f, hf, rfl⟩ := List.mem_map.mp (List.mem_of_getElem? hchild)
      rw [children, List.map_map] at hnames
      have hapart : (es.map (·.1.label)).Nodup := nodup_of_names hnames
      have hplain : (f.1.label, f.2.plain) ∈ es.map fun g => (g.1.label, g.2.plain) :=
        List.mem_map_of_mem hf
      rw [plain, plainEntries_eq]
      refine at?_ofFields ?_ hplain
      rwa [List.map_map]
    | _ => cases hchild

end Value

namespace Trail

variable {root : Value} {t u : Trail}

def location (t : Trail) : List Position :=
  (t.map (·.position)).reverse

/-- Plain data, followed along the positions on the way to a node, is the node as plain data. -/
theorem locate?_plain (hnames : root.NamesApart) (ht : t.Leads root) :
    root.plain.locate? t.location = some (t.value root).plain := by
  induction t with
  | nil => rfl
  | cons s t ih =>
    have hchild := Value.at?_plain ht.2 (hnames t ht.1)
    rw [location, List.map_cons, List.reverse_cons, Value.locate?_concat]
    change (root.plain.locate? (location t)).bind (·.at? s.position) = _
    rw [ih ht.1]
    exact hchild

theorem eq_of_nodup_of_getElem? {es : List (Position × Value)} (h : (es.map (·.1)).Nodup)
    {i j : Nat} {p : Position} {v w : Value} (hi : es[i]? = some (p, v))
    (hj : es[j]? = some (p, w)) : i = j := by
  have hlt : i < (es.map (·.1)).length := by
    rw [List.length_map]
    exact (List.getElem?_eq_some_iff.mp hi).1
  refine (List.getElem?_inj hlt h).mp ?_
  rw [List.getElem?_map, List.getElem?_map, hi, hj]
  rfl

/-- A node is told by the positions on the way to it. -/
theorem eq_of_location_eq (hnames : root.NamesApart) (ht : t.Leads root) (hu : u.Leads root)
    (h : t.location = u.location) : t = u := by
  have hpositions : t.map (·.position) = u.map (·.position) := List.reverse_injective h
  clear h
  induction t generalizing u with
  | nil => exact (List.map_eq_nil_iff.mp hpositions.symm).symm
  | cons s t ih =>
    cases u with
    | nil => cases hpositions
    | cons r u =>
      obtain ⟨hposition, hrest⟩ := List.cons.inj hpositions
      obtain rfl := ih ht.1 hu.1 hrest
      have hs := ht.2
      have hr := hu.2
      rw [show s.position = r.position from hposition] at hs
      have hordinal := eq_of_nodup_of_getElem? (hnames t ht.1) hs hr
      rw [hordinal, hr] at hs
      have hvalue := (Prod.mk.inj (Option.some.inj hs)).2
      cases s
      cases r
      cases hordinal
      cases hvalue
      cases hposition
      rfl

end Trail

end TreePaths
