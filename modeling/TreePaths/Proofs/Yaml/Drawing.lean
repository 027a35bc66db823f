import TreePaths.Proofs.Yaml.Built
import TreePaths.Proofs.Yaml.Telling

/-!
What a draft shows of nodes that are built, and that it tells their values.
-/

namespace TreePaths

namespace Value

def isScalar : Value → Bool
  | null | bool _ | int _ | float _ | str _ | bytes _ | date _ | moment _ => true
  | _ => false

theorem isKey_of_isScalar {v : Value} (h : v.isScalar = true) : v.isKey = true := by
  cases v with
  | list | tuple | struct | map | set | annotated | endless => exact absurd h nofun
  | null | bool | int | float | str | bytes | date | moment => simp [isKey]

theorem isFinite_of_isScalar {v : Value} (h : v.isScalar = true) : v.isFinite = true := by
  cases v with
  | list | tuple | struct | map | set | annotated | endless => exact absurd h nofun
  | null | bool | int | float | str | bytes | date | moment => rfl

end Value

namespace Yaml

/-- What is read under the tag of a scalar has no parts. -/
theorem isScalar_of_scalarReader? {t : Tag} {read : String → Except Fault Value}
    (ht : scalarReader? t = some read) {text : String} {v : Value} (hv : read text = .ok v) :
    v.isScalar = true := by
  unfold scalarReader? at ht
  split at ht
  · cases ht
    cases hv
    rfl
  · cases ht
    unfold buildBool at hv
    split at hv
    · cases hv
      rfl
    · cases hv
  · cases ht
    obtain ⟨sc, -, hv⟩ := bind_eq_ok.mp hv
    obtain ⟨n, -, hv⟩ := bind_eq_ok.mp hv
    cases hv
    rfl
  · cases ht
    obtain ⟨sc, -, hv⟩ := bind_eq_ok.mp hv
    obtain ⟨x, -, hv⟩ := bind_eq_ok.mp hv
    cases hv
    rfl
  · cases ht
    unfold buildBytes at hv
    split at hv
    · split at hv
      · cases hv
        rfl
      · cases hv
    · cases hv
  · cases ht
    unfold buildTimestamp at hv
    split at hv
    · cases hv
    · split at hv
      · split at hv
        · cases hv
          rfl
        · cases hv
      · split at hv
        · cases hv
          rfl
        · cases hv
  · cases ht
    cases hv
    rfl
  · cases ht

section Distinct

variable {κ κ' α α' : Type} {same : κ → κ → Bool} {same' : κ' → κ' → Bool} {K : κ → κ' → Prop}
  {R : α → α' → Prop}

theorem insertBy_related (hsame : ∀ a b a' b', K a a' → K b b' → same a b = same' a' b') {k : κ}
    {k' : κ'} (hk : K k k') {v : α} {v' : α'} (hv : R v v') {es : List (κ × α)}
    {es' : List (κ' × α')} (h : List.Forall₂ (fun e e' => K e.1 e'.1 ∧ R e.2 e'.2) es es') :
    List.Forall₂ (fun e e' => K e.1 e'.1 ∧ R e.2 e'.2) (Value.insertBy same k v es)
      (Value.insertBy same' k' v' es') := by
  induction h with
  | nil => exact .cons ⟨hk, hv⟩ .nil
  | cons he hes ih =>
    unfold Value.insertBy
    rw [hsame _ _ _ _ he.1 hk]
    split
    · exact .cons ⟨he.1, hv⟩ hes
    · exact .cons he ih

theorem foldl_insertBy_related (hsame : ∀ a b a' b', K a a' → K b b' → same a b = same' a' b')
    {es done : List (κ × α)} {es' done' : List (κ' × α')}
    (h : List.Forall₂ (fun e e' => K e.1 e'.1 ∧ R e.2 e'.2) es es')
    (hdone : List.Forall₂ (fun e e' => K e.1 e'.1 ∧ R e.2 e'.2) done done') :
    List.Forall₂ (fun e e' => K e.1 e'.1 ∧ R e.2 e'.2)
      (es.foldl (fun done e => Value.insertBy same e.1 e.2 done) done)
      (es'.foldl (fun done e => Value.insertBy same' e.1 e.2 done) done') := by
  induction h generalizing done done' with
  | nil => exact hdone
  | cons he _ ih => exact ih (insertBy_related hsame he.1 he.2 hdone)

/-- Which entries are kept depends on which keys are the same. -/
theorem Plan.distinct_related (hsame : ∀ a b a' b', K a a' → K b b' → same a b = same' a' b')
    {es : List (κ × α)} {es' : List (κ' × α')}
    (h : List.Forall₂ (fun e e' => K e.1 e'.1 ∧ R e.2 e'.2) es es') :
    List.Forall₂ (fun e e' => K e.1 e'.1 ∧ R e.2 e'.2) (Plan.distinct same es)
      (Plan.distinct same' es') :=
  foldl_insertBy_related hsame h .nil

theorem Plan.distinct_map {f : κ → κ'} (hf : ∀ a b, same' (f a) (f b) = same a b) (f' : α → α')
    (es : List (κ × α)) :
    Plan.distinct same' (es.map (Prod.map f f')) = (Plan.distinct same es).map (Prod.map f f') := by
  have hrel : List.Forall₂ (fun e e' => f e.1 = e'.1 ∧ f' e.2 = e'.2) es (es.map (Prod.map f f')) :=
    List.forall₂_map_right_iff.2 (List.forall₂_same.2 fun _ _ => ⟨rfl, rfl⟩)
  have hsame : ∀ a b a' b', f a = a' → f b = b' → same a b = same' a' b' := by
    rintro a b _ _ rfl rfl
    exact (hf a b).symm
  have hkept : List.Forall₂ (fun e e' => f e.1 = e'.1 ∧ f' e.2 = e'.2) (distinct same es)
      (distinct same' (es.map (Prod.map f f'))) :=
    distinct_related (R := fun v w => f' v = w) hsame hrel
  exact (map_eq_of_forall₂ hkept fun _ _ _ he => Prod.ext he.1 he.2).symm

theorem mem_insertBy {k : κ} {v : α} {es : List (κ × α)} {e : κ × α}
    (h : e ∈ Value.insertBy same k v es) :
    (e.1 = k ∨ ∃ a ∈ es, a.1 = e.1) ∧ (e.2 = v ∨ ∃ a ∈ es, a.2 = e.2) := by
  induction es with
  | nil =>
    cases List.mem_singleton.1 h
    exact ⟨Or.inl rfl, Or.inl rfl⟩
  | cons d es ih =>
    obtain ⟨l, w⟩ := d
    unfold Value.insertBy at h
    split at h
    · rcases List.mem_cons.1 h with rfl | h
      · exact ⟨Or.inr ⟨_, List.mem_cons_self, rfl⟩, Or.inl rfl⟩
      · exact ⟨Or.inr ⟨e, List.mem_cons_of_mem _ h, rfl⟩, Or.inr ⟨e, List.mem_cons_of_mem _ h, rfl⟩⟩
    · rcases List.mem_cons.1 h with rfl | h
      · exact ⟨Or.inr ⟨_, List.mem_cons_self, rfl⟩, Or.inr ⟨_, List.mem_cons_self, rfl⟩⟩
      · refine (ih h).imp (Or.imp_right ?_) (Or.imp_right ?_)
        · exact fun ⟨a, ha, hae⟩ => ⟨a, List.mem_cons_of_mem _ ha, hae⟩
        · exact fun ⟨a, ha, hae⟩ => ⟨a, List.mem_cons_of_mem _ ha, hae⟩

theorem mem_foldl_insertBy {es done : List (κ × α)} {e : κ × α}
    (h : e ∈ es.foldl (fun done e => Value.insertBy same e.1 e.2 done) done) :
    (∃ a ∈ done ++ es, a.1 = e.1) ∧ ∃ a ∈ done ++ es, a.2 = e.2 := by
  induction es generalizing done with
  | nil => exact ⟨⟨e, by simpa using h, rfl⟩, ⟨e, by simpa using h, rfl⟩⟩
  | cons d es ih =>
    have hstep : ∀ a ∈ Value.insertBy same d.1 d.2 done ++ es,
        (∃ b ∈ done ++ d :: es, b.1 = a.1) ∧ ∃ b ∈ done ++ d :: es, b.2 = a.2 := by
      intro a ha
      rcases List.mem_append.1 ha with ha | ha
      · refine (mem_insertBy ha).imp ?_ ?_
        · rintro (hk | ⟨b, hb, hba⟩)
          · exact ⟨d, by simp, hk.symm⟩
          · exact ⟨b, List.mem_append_left _ hb, hba⟩
        · rintro (hv | ⟨b, hb, hba⟩)
          · exact ⟨d, by simp, hv.symm⟩
          · exact ⟨b, List.mem_append_left _ hb, hba⟩
      · exact ⟨⟨a, by simp [ha], rfl⟩, ⟨a, by simp [ha], rfl⟩⟩
    obtain ⟨⟨a, ha, hae⟩, ⟨b, hb, hbe⟩⟩ := ih h
    exact ⟨hae ▸ (hstep a ha).1, hbe ▸ (hstep b hb).2⟩

theorem Plan.mem_distinct {es : List (κ × α)} {e : κ × α} (h : e ∈ Plan.distinct same es) :
    (∃ a ∈ es, a.1 = e.1) ∧ ∃ a ∈ es, a.2 = e.2 :=
  @mem_foldl_insertBy _ _ same es [] e h

end Distinct

theorem exists_values {α β γ : Type} {R : α → β → Prop} {f : α → Option γ} {T : β → γ → Prop}
    {xs : List α} {ys : List β} (h : List.Forall₂ R xs ys)
    (hf : ∀ x ∈ xs, ∀ y, R x y → ∃ v, f x = some v ∧ T y v) :
    ∃ vs, xs.mapM f = some vs ∧ List.Forall₂ T ys vs := by
  induction h with
  | nil => exact ⟨[], rfl, .nil⟩
  | cons hxy _ ih =>
    obtain ⟨v, hv, hT⟩ := hf _ List.mem_cons_self _ hxy
    obtain ⟨vs, hvs, hTs⟩ := ih fun x hx => hf x (List.mem_cons_of_mem _ hx)
    exact ⟨v :: vs, by rw [List.mapM_cons, hv, hvs]; rfl, .cons hT hTs⟩

def Site.madeOf (s : Site) (n : NodeId) : Option Part :=
  s.made.getD n none

section Drawn

variable (g : Graph) (r : Reading) (s : Site)

def Site.Row (e : Entry) (d : Part × Part) : Prop :=
  s.madeOf e.1 = some d.1 ∧ s.madeOf e.2 = some d.2

/-- The field has been made of the entry, under the name that the key stands for. -/
def Site.FieldRow (e : Entry) (f : String × Part) : Prop :=
  (∃ k, g.meaning r (.name, e.1) = some k ∧ k.isWritable = true ∧ k.label = f.1) ∧
    s.madeOf e.2 = some f.2

/-- All entries have been made, and these are the ones that are kept. -/
def Site.Members (es : List Entry) (ds : List (Part × Part)) : Prop :=
  (∀ e ∈ es, (∃ d, s.Row e d) ∧ ∃ p, g.keyPart? r e.1 = some p) ∧
    List.Forall₂ s.Row (Plan.distinct (g.sameKey r) es) ds

def Plan.Filled : Plan → Piece → Prop
  | .list ns, x => ∃ ps, x = .list ps ∧ List.Forall₂ (fun n p => s.madeOf n = some p) ns ps
  | .pairs es, x => ∃ ds, x = .pairs ds ∧ List.Forall₂ (fun o d => ∃ e, o = some e ∧ s.Row e d) es ds
  | .set es, x => ∃ ds, x = .set (ds.map (·.1)) ∧ s.Members g r es ds
  | .map es, x => ∃ ds, x = .map ds ∧ s.Members g r es ds
  | .struct es, x => ∃ fs, x = .struct fs ∧ List.Forall₂ (s.FieldRow g r) es fs
  | _, _ => False

/-- The part of a node is what the plan asks for, made of pieces that are `fixed`. -/
def Plan.Drawn (fixed : Nat → Prop) (n : NodeId) : Plan → Part → Prop
  | .scalar text v, p => p = Site.scalarPart n text v ∧ v.isScalar = true
  | .annotated q as, p => ∃ k c, p = .piece k ∧ fixed k ∧ s.draft.piece k = .annotated c as ∧
      q.Drawn fixed n c
  | q, p => ∃ k, p = .piece k ∧ fixed k ∧ q.Filled g r s (s.draft.piece k)

end Drawn

namespace Graph

variable {g : Graph} {r : Reading} {n : NodeId} {rank : NodeId → Nat}

theorem isScalar_of_scalarPlan {t : Tag} {read : String → Except Fault Value}
    (ht : scalarReader? t = some read) {text : String} {p : Plan}
    (hp : scalarPlan read text = some p) : ∃ v, p = .scalar text v ∧ v.isScalar = true := by
  obtain ⟨v, hv, rfl⟩ := Option.map_eq_some_iff.1 hp
  refine ⟨v, rfl, ?_⟩
  cases hread : read text with
  | error e =>
    rw [hread] at hv
    cases hv
  | ok w =>
    rw [hread] at hv
    cases hv
    exact isScalar_of_scalarReader? ht hread

theorem isScalar_of_plan {u : Role × NodeId} {text : String} {v : Value}
    (h : g.plan r u = some (.scalar text v)) : v.isScalar = true := by
  unfold plan planAs at h
  split at h
  · rename_i read ht
    split at h
    · cases h
    · obtain ⟨text', -, hplan⟩ := Option.bind_eq_some_iff.1 h
      obtain ⟨w, heq, hw⟩ := isScalar_of_scalarPlan ht hplan
      cases heq
      exact hw
  · split at h
    · cases h
    · cases h
    · cases h
    · obtain ⟨es, -, heq⟩ := Option.map_eq_some_iff.1 h
      cases heq
    · cases r with
      | tree =>
        obtain ⟨es, -, heq⟩ := Option.map_eq_some_iff.1 h
        cases heq
      | data =>
        obtain ⟨es, -, heq⟩ := Option.map_eq_some_iff.1 h
        cases heq
    · cases r with
      | tree =>
        obtain ⟨q, -, heq⟩ := Option.map_eq_some_iff.1 h
        cases heq
      | data => cases h
    · cases h

theorem keyPart?_eq_some {p : Part} (h : g.keyPart? r n = some p) :
    ∃ text v, g.plan r (.key, n) = some (.scalar text v) ∧ p = Site.scalarPart n text v ∧
      v.isScalar = true := by
  unfold keyPart? at h
  split at h
  · rename_i text v hplan
    cases h
    exact ⟨text, v, hplan, rfl, isScalar_of_plan hplan⟩
  · cases h

theorem Ranked.meaning_of_keyPart? (hr : g.Ranked rank) {p : Part} (h : g.keyPart? r n = some p) :
    ∃ v, g.meaning r (.key, n) = some v ∧ v.isKey = true := by
  obtain ⟨text, v, hplan, -, hv⟩ := keyPart?_eq_some h
  refine ⟨v, ?_, Value.isKey_of_isScalar hv⟩
  rw [hr.meaning_eq, hplan]
  rfl

end Graph

section Tells

variable {g : Graph} {r : Reading} {s : Site} {rank : NodeId → Nat} (hr : g.Ranked rank)

theorem Draft.tells_scalarPart {d : Draft} {n : NodeId} {text : String} {v : Value}
    (hv : v.isScalar = true) : d.Tells (Site.scalarPart n text v) v := by
  unfold Site.scalarPart
  split
  · exact Tells.nan _
  · exact Tells.scalar (Value.isFinite_of_isScalar hv)

include hr

/-- Members that have been made tell the planned ones, if their keys and values tell what these
mean. -/
theorem Site.Members.tells {es : List Entry} {ds : List (Part × Part)} (h : s.Members g r es ds)
    (hkeys : ∀ e ∈ es, ∀ p, s.madeOf e.1 = some p →
      ∃ k, g.meaning r (.key, e.1) = some k ∧ s.draft.Tells p k)
    (hvalues : ∀ e ∈ es, ∀ p, s.madeOf e.2 = some p →
      ∃ v, g.meaning r (.item, e.2) = some v ∧ s.draft.Tells p v) :
    ∃ ms, Plan.members (g.sameKey r) (g.meaning r) es = some ms ∧
      List.Forall₂ (fun d m => s.draft.Tells d.1 m.1.2 ∧ s.draft.Tells d.2 m.2) ds ms := by
  obtain ⟨hall, hkept⟩ := h
  let keyOf : NodeId → NodeId × Value := fun k => (k, (g.meaning r (.key, k)).getD .null)
  let valueOf : NodeId → Value := fun v => (g.meaning r (.item, v)).getD .null
  have hmember : ∀ e ∈ es, Plan.member (g.meaning r) e = some (Prod.map keyOf valueOf e) := by
    intro e he
    obtain ⟨⟨d, hd⟩, p, hp⟩ := hall e he
    obtain ⟨k, hk, hkey⟩ := hr.meaning_of_keyPart? hp
    obtain ⟨v, hv, -⟩ := hvalues e he d.2 hd.2
    simp [Plan.member, hk, hkey, hv, keyOf, valueOf, Prod.map]
  have hmembers : Plan.members (g.sameKey r) (g.meaning r) es =
      some ((Plan.distinct (g.sameKey r) es).map (Prod.map keyOf valueOf)) := by
    have hmap : es.mapM (Plan.member (g.meaning r)) = some (es.map (Prod.map keyOf valueOf)) := by
      rw [mapM_eq_some, List.map_map]
      exact List.map_congr_left hmember
    rw [Plan.members, hmap, Option.map_some]
    exact congrArg some (Plan.distinct_map (fun _ _ => rfl) valueOf es)
  obtain ⟨ms, hms, htells⟩ := exists_values (f := fun e => some (Prod.map keyOf valueOf e))
    (T := fun d m => s.draft.Tells d.1 m.1.2 ∧ s.draft.Tells d.2 m.2) hkept (by
      intro e he d hd
      obtain ⟨⟨a, ha, hae⟩, ⟨b, hb, hbe⟩⟩ := Plan.mem_distinct he
      obtain ⟨k, hk, hkt⟩ := hkeys a ha d.1 (hae ▸ hd.1)
      obtain ⟨v, hv, hvt⟩ := hvalues b hb d.2 (hbe ▸ hd.2)
      refine ⟨_, rfl, ?_, ?_⟩
      · simpa [Prod.map, keyOf, ← hae, hk] using hkt
      · simpa [Prod.map, valueOf, ← hbe, hv] using hvt)
  have hall : (Plan.distinct (g.sameKey r) es).mapM (fun e => some (Prod.map keyOf valueOf e)) =
      some ((Plan.distinct (g.sameKey r) es).map (Prod.map keyOf valueOf)) :=
    mapM_eq_some.2 (List.map_map (g := some)).symm
  exact ⟨ms, hmembers.trans (hall.symm.trans hms), htells⟩

/-- A piece that holds what the plan asks for tells the value that the plan makes, if the parts in
it tell theirs. -/
theorem Plan.Filled.tells {p : Plan} {k : Nat} (hk : k < s.draft.size)
    (h : p.Filled g r s (s.draft.piece k))
    (hu : ∀ u ∈ p.uses, ∀ q, s.madeOf u.2 = some q →
      ∃ v, g.meaning r u = some v ∧ s.draft.Tells q v) :
    ∃ v, p.value (g.sameKey r) (g.meaning r) = some v ∧ s.draft.Tells (.piece k) v := by
  cases p with
  | list ns =>
    obtain ⟨ps, hpiece, hps⟩ := h
    obtain ⟨vs, hvs, htells⟩ := exists_values hps fun n hn q hq => hu _ (List.mem_map_of_mem hn) q hq
    exact ⟨.list vs, by rw [value, hvs]; rfl, .list hk hpiece htells⟩
  | pairs es =>
    obtain ⟨ds, hpiece, hds⟩ := h
    obtain ⟨vs, hvs, htells⟩ := exists_values (f := Plan.pair (g.meaning r))
        (T := fun e v => ∃ a b, s.draft.Tells e.1 a ∧ s.draft.Tells e.2 b ∧ v = .tuple [a, b])
        hds fun o ho d hpair => by
      obtain ⟨e, heq, hd⟩ := hpair
      have he : e ∈ es.filterMap id := List.mem_filterMap.2 ⟨o, ho, heq⟩
      obtain ⟨a, ha, hat⟩ := hu _ (Plan.mem_uses_of_mem he).1 d.1 hd.1
      obtain ⟨b, hb, hbt⟩ := hu _ (Plan.mem_uses_of_mem he).2 d.2 hd.2
      exact ⟨.tuple [a, b], by rw [heq, Plan.pair, Option.bind_some, ha, hb]; rfl, a, b, hat, hbt,
        rfl⟩
    exact ⟨.list vs, by rw [value, hvs]; rfl, .pairs hk hpiece htells⟩
  | set es =>
    obtain ⟨ds, hpiece, hds⟩ := h
    obtain ⟨ms, hms, htells⟩ := hds.tells hr
      (fun e he q hq => hu _ (Plan.mem_uses_of_mem he).1 q hq)
      (fun e he q hq => hu _ (Plan.mem_uses_of_mem he).2 q hq)
    refine ⟨_, by rw [value, hms]; rfl, .set hk hpiece ?_⟩
    rw [List.forall₂_map_left_iff, List.forall₂_map_right_iff]
    exact htells.imp fun _ _ => And.left
  | map es =>
    obtain ⟨ds, hpiece, hds⟩ := h
    obtain ⟨ms, hms, htells⟩ := hds.tells hr
      (fun e he q hq => hu _ (Plan.mem_uses_of_mem he).1 q hq)
      (fun e he q hq => hu _ (Plan.mem_uses_of_mem he).2 q hq)
    refine ⟨_, by rw [value, hms]; rfl, .map hk hpiece ?_⟩
    rw [List.forall₂_map_right_iff]
    exact htells
  | struct es =>
    obtain ⟨fs, hpiece, hfs⟩ := h
    obtain ⟨vs, hvs, htells⟩ := exists_values (f := Plan.field (g.meaning r)) (T := fun f w =>
        f.1 = w.1 ∧ s.draft.Tells f.2 w.2) hfs fun e he d hd => by
      obtain ⟨⟨k, hk, hwritable, hlabel⟩, hmade⟩ := hd
      obtain ⟨v, hv, htells⟩ := hu _ (Plan.mem_uses_of_mem he).2 d.2 hmade
      exact ⟨(k.label, v), by simp [Plan.field, hk, hwritable, hv], hlabel.symm, htells⟩
    exact ⟨.struct vs, by rw [value, hvs]; rfl, .struct hk hpiece htells⟩
  | scalar text v => exact h.elim
  | annotated q as => exact h.elim

/-- A part that is what a plan asks for tells the planned value, if the parts in it tell what their
nodes mean. -/
theorem Plan.Drawn.tells {fixed : Nat → Prop} (hfixed : ∀ k, fixed k → k < s.draft.size)
    {n : NodeId} {p : Plan} {part : Part} (h : p.Drawn g r s fixed n part)
    (hu : ∀ u ∈ p.uses, ∀ q, s.madeOf u.2 = some q →
      ∃ v, g.meaning r u = some v ∧ s.draft.Tells q v) :
    ∃ v, p.value (g.sameKey r) (g.meaning r) = some v ∧ s.draft.Tells part v := by
  induction p generalizing part with
  | scalar text v =>
    obtain ⟨rfl, hv⟩ := h
    exact ⟨v, rfl, Draft.tells_scalarPart hv⟩
  | annotated q as ih =>
    obtain ⟨k, c, rfl, hk, hpiece, hc⟩ := h
    obtain ⟨v, hv, htells⟩ := ih hc hu
    exact ⟨.annotated v as, by rw [value, hv]; rfl, .annotated (hfixed k hk) hpiece htells⟩
  | list ns =>
    obtain ⟨k, rfl, hk, hfilled⟩ := h
    exact hfilled.tells hr (hfixed k hk) hu
  | pairs es =>
    obtain ⟨k, rfl, hk, hfilled⟩ := h
    exact hfilled.tells hr (hfixed k hk) hu
  | set es =>
    obtain ⟨k, rfl, hk, hfilled⟩ := h
    exact hfilled.tells hr (hfixed k hk) hu
  | map es =>
    obtain ⟨k, rfl, hk, hfilled⟩ := h
    exact hfilled.tells hr (hfixed k hk) hu
  | struct es =>
    obtain ⟨k, rfl, hk, hfilled⟩ := h
    exact hfilled.tells hr (hfixed k hk) hu

end Tells

end Yaml

end TreePaths
