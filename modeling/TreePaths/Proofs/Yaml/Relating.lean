import TreePaths.Proofs.Yaml.Filling

/-!
Values that are made by the same plan of parts that are alike: they are alike, too.
-/

namespace TreePaths

structure Value.IsCongruence (R : Value → Value → Prop) : Prop where
  scalar : ∀ v, v.isScalar = true → R v v
  list : ∀ {xs ys}, List.Forall₂ R xs ys → R (.list xs) (.list ys)
  tuple : ∀ {xs ys}, List.Forall₂ R xs ys → R (.tuple xs) (.tuple ys)
  set : ∀ {ks}, (∀ k ∈ ks, R k k) → R (.set ks) (.set ks)
  map : ∀ {es ds}, List.Forall₂ (fun e d => e.1 = d.1 ∧ R e.1 e.1 ∧ R e.2 d.2) es ds →
    R (.map es) (.map ds)
  struct : ∀ {fs gs}, List.Forall₂ (fun f g => f.1 = g.1 ∧ R f.2 g.2) fs gs →
    R (.struct fs) (.struct gs)

theorem Value.isCongruence_eq : IsCongruence Eq where
  scalar _ _ := rfl
  list h := congrArg list (List.forall₂_eq_eq_eq ▸ h)
  tuple h := congrArg tuple (List.forall₂_eq_eq_eq ▸ h)
  set _ := rfl
  map h := congrArg map (List.forall₂_eq_eq_eq ▸ h.imp fun _ _ he => Prod.ext he.1 he.2.2)
  struct h := congrArg struct (List.forall₂_eq_eq_eq ▸ h.imp fun _ _ hf => Prod.ext hf.1 hf.2)

namespace Yaml

section Options

variable {ι α β γ δ : Type} {R : α → β → Prop} {S : γ → δ → Prop}

theorem rel_refl (o : Option α) : Option.Rel Eq o o := by
  cases o with
  | none => exact .none
  | some a => exact .some rfl

theorem rel_eq {o o' : Option α} (h : Option.Rel Eq o o') : o = o' := by
  cases h with
  | none => rfl
  | some h => exact congrArg some h

theorem rel_map {o : Option α} {o' : Option β} (h : Option.Rel R o o') {f : α → γ} {f' : β → δ}
    (hf : ∀ a b, R a b → S (f a) (f' b)) : Option.Rel S (o.map f) (o'.map f') := by
  cases h with
  | none => exact .none
  | some h => exact .some (hf _ _ h)

theorem rel_map_left {T : γ → β → Prop} {o : Option α} {o' : Option β} (h : Option.Rel R o o')
    {f : α → γ} (hf : ∀ a b, R a b → T (f a) b) : Option.Rel T (o.map f) o' := by
  cases h with
  | none => exact .none
  | some h => exact .some (hf _ _ h)

theorem rel_bind {o : Option α} {o' : Option β} (h : Option.Rel R o o') {f : α → Option γ}
    {f' : β → Option δ} (hf : ∀ a b, R a b → Option.Rel S (f a) (f' b)) :
    Option.Rel S (o.bind f) (o'.bind f') := by
  cases h with
  | none => exact .none
  | some h => exact hf _ _ h

theorem rel_mapM {l : List ι} {f : ι → Option α} {f' : ι → Option β}
    (h : ∀ x ∈ l, Option.Rel R (f x) (f' x)) :
    Option.Rel (List.Forall₂ R) (l.mapM f) (l.mapM f') := by
  induction l with
  | nil => exact .some .nil
  | cons x xs ih =>
    rw [List.mapM_cons, List.mapM_cons]
    refine rel_bind (h x List.mem_cons_self) fun a b hab => ?_
    refine rel_bind (ih fun y hy => h y (List.mem_cons_of_mem x hy)) fun as bs has => ?_
    exact .some (.cons hab has)

end Options

namespace Plan

variable {R : Value → Value → Prop} {same same' : NodeId → NodeId → Bool}
  {f f' : Role × NodeId → Option Value} {es : List Entry}

theorem members_related (hsame : ∀ e ∈ es, ∀ d ∈ es, same e.1 d.1 = same' e.1 d.1)
    (hkeys : ∀ e ∈ es, f (.key, e.1) = f' (.key, e.1))
    (hvalues : ∀ e ∈ es, Option.Rel R (f (.item, e.2)) (f' (.item, e.2))) :
    Option.Rel (List.Forall₂ fun m m' => (m.1 = m'.1 ∧
        ∃ e ∈ es, e.1 = m.1.1 ∧ f (.key, e.1) = some m.1.2) ∧ R m.2 m'.2)
      (members same f es) (members same' f' es) := by
  have hmember : ∀ e ∈ es, Option.Rel (fun m m' => (m.1 = m'.1 ∧
      ∃ e ∈ es, e.1 = m.1.1 ∧ f (.key, e.1) = some m.1.2) ∧ R m.2 m'.2)
      (member f e) (member f' e) := by
    intro e he
    unfold member
    rw [← hkeys e he]
    cases hk : f (.key, e.1) with
    | none => exact .none
    | some k =>
      rw [Option.bind_some, Option.bind_some]
      split
      · exact rel_map (hvalues e he) fun v w hvw => ⟨⟨rfl, e, he, rfl, hk⟩, hvw⟩
      · exact .none
  refine rel_map (rel_mapM hmember) fun ms ms' hms => ?_
  refine distinct_related (K := fun a b : NodeId × Value => a = b ∧
    ∃ e ∈ es, e.1 = a.1 ∧ f (.key, e.1) = some a.2) ?_ hms
  rintro a b _ _ ⟨rfl, e, he, hea, -⟩ ⟨rfl, d, hd, hdb, -⟩
  rw [← hea, ← hdb]
  exact hsame e he d hd

theorem pair_related (hR : Value.IsCongruence R) {e : Entry}
    (hkey : Option.Rel R (f (.item, e.1)) (f' (.item, e.1)))
    (hvalue : Option.Rel R (f (.item, e.2)) (f' (.item, e.2))) :
    Option.Rel R (pair f (some e)) (pair f' (some e)) := by
  rw [pair, pair, Option.bind_some, Option.bind_some]
  exact rel_bind hkey fun a b hab => rel_map hvalue fun v w hvw =>
    hR.tuple (.cons hab (.cons hvw .nil))

theorem field_related {e : Entry} (hname : f (.name, e.1) = f' (.name, e.1))
    (hvalue : Option.Rel R (f (.item, e.2)) (f' (.item, e.2))) :
    Option.Rel (fun d d' => d.1 = d'.1 ∧ R d.2 d'.2) (field f e) (field f' e) := by
  rw [field, field, ← hname]
  cases f (.name, e.1) with
  | none => exact .none
  | some k =>
    rw [Option.bind_some, Option.bind_some]
    split
    · exact rel_map hvalue fun v w hvw => ⟨rfl, hvw⟩
    · exact .none

/-- The plan annotates nothing, and its scalars have no parts. -/
def isBare : Plan → Bool
  | scalar _ v => v.isScalar
  | annotated .. => false
  | _ => true

/-- By one plan, like values are made of like parts, if keys are the same. -/
theorem value_related (hR : Value.IsCongruence R) {p : Plan} (hbare : p.isBare = true)
    (hsame : ∀ k l, (.key, k) ∈ p.uses → (.key, l) ∈ p.uses → same k l = same' k l)
    (hkeys : ∀ u ∈ p.uses, u.1 ≠ .item → f u = f' u)
    (hparts : ∀ u ∈ p.uses, Option.Rel R (f u) (f' u)) :
    Option.Rel R (p.value same f) (p.value same' f') := by
  have hself : ∀ {k v}, (.key, k) ∈ p.uses → f (.key, k) = some v → R v v := by
    intro k v hk hv
    have hrel := hparts _ hk
    rw [← hkeys _ hk nofun, hv] at hrel
    cases hrel with
    | some h => exact h
  cases p with
  | scalar text v => exact .some (hR.scalar v hbare)
  | annotated q as => cases hbare
  | list ns =>
    exact rel_map (rel_mapM fun n hn => hparts _ (List.mem_map_of_mem hn)) fun _ _ => hR.list
  | pairs es =>
    refine rel_map (rel_mapM (R := R) fun o ho => ?_) fun _ _ => hR.list
    cases o with
    | none => exact .none
    | some e =>
      have he : e ∈ es.filterMap id := List.mem_filterMap.2 ⟨_, ho, rfl⟩
      have huse := Plan.mem_uses_of_mem (ρ := .item) he
      exact pair_related hR (hparts _ huse.1) (hparts _ huse.2)
  | set es =>
    have huse := fun {e : Entry} (he : e ∈ es) => Plan.mem_uses_of_mem (ρ := .key) he
    refine rel_map (members_related (fun e he d hd => hsame _ _ (huse he).1 (huse hd).1)
      (fun e he => hkeys _ (huse he).1 nofun) fun e he => hparts _ (huse he).2) fun ms ms' hms => ?_
    have hsame : ms.map (·.1.2) = ms'.map (·.1.2) :=
      map_eq_map_of_forall₂ hms fun _ _ hm => congrArg Prod.snd hm.1.1
    rw [← hsame]
    refine hR.set fun k hk => ?_
    obtain ⟨m, hm, rfl⟩ := List.mem_map.1 ((Value.arranged_perm _).mem_iff.1 hk)
    obtain ⟨_, -, ⟨-, e, he, -, hk⟩, -⟩ := exists_of_forall₂ hms hm
    exact hself (huse he).1 hk
  | map es =>
    have huse := fun {e : Entry} (he : e ∈ es) => Plan.mem_uses_of_mem (ρ := .key) he
    refine rel_map (members_related (fun e he d hd => hsame _ _ (huse he).1 (huse hd).1)
      (fun e he => hkeys _ (huse he).1 nofun) fun e he => hparts _ (huse he).2) fun ms ms' hms => ?_
    apply hR.map
    rw [List.forall₂_map_left_iff, List.forall₂_map_right_iff]
    refine hms.imp fun m m' ⟨⟨hm, e, he, hek, hk⟩, hvw⟩ => ?_
    exact ⟨congrArg Prod.snd hm, hself (huse he).1 hk, hvw⟩
  | struct es =>
    have huse := fun {e : Entry} (he : e ∈ es) => Plan.mem_uses_of_mem (ρ := .name) he
    exact rel_map (rel_mapM fun e he =>
      field_related (hkeys _ (huse he).1 nofun) (hparts _ (huse he).2)) fun _ _ => hR.struct

end Plan

namespace Graph

variable {g : Graph} {r : Reading} {n : NodeId} {ρ : Role} {p : Plan}

theorem isBare_of_plan (hn : (g.tag n).isLocal = false) (hp : g.plan r (ρ, n) = some p) :
    p.isBare = true := by
  cases p with
  | scalar text v => exact isScalar_of_plan hp
  | annotated q as =>
    rw [isLocal_of_plan hp] at hn
    cases hn
  | list | pairs | set | map | struct => rfl

theorem isBare_of_contentPlan (hp : g.contentPlan n = some p) : p.isBare = true := by
  unfold contentPlan at hp
  split at hp
  · obtain ⟨read, hread, hp⟩ := Option.bind_eq_some_iff.1 hp
    obtain ⟨v, rfl, hv⟩ := isScalar_of_scalarPlan hread hp
    exact hv
  · cases hp
    rfl
  · obtain ⟨es, -, rfl⟩ := Option.map_eq_some_iff.1 hp
    rfl

end Graph

end Yaml

end TreePaths
