import TyLang.Equality.Records

/-!
When `value_test_equality` is an equivalence relation. It is reflexive and symmetric, but
a tuple without names is equal to records that differ in their names from each other.
-/
namespace TyLang.Equality
open List
variable {ids ids' : Option (List Int)} {xs ys : List Val}

section Spec

variable {rt : Runtime} {σ : Store} {R : Val → Val → Prop}

def Equal (rt : Runtime) (v w : Val) : Prop := valueTestEquality rt v w

lemma tests_eq (vs : List Val) : tests rt vs = vs.map fun v w => valueTestEquality rt v w := by
  induction vs with
  | nil => rfl
  | cons v vs ih => rw [tests, ih, map_cons]

lemma classOf_isBuiltin (v : Val) : (classOf v).isBuiltin := by
  rw [classOf.eq_def]
  split
  · rfl
  · cases v <;> rfl

lemma dispatched_eq_false (v w : Val) : dispatched rt v w = false := by
  rw [dispatched, rt.eql_builtin _ _ (classOf_isBuiltin v) (classOf_isBuiltin w),
    rt.cmp_builtin _ _ (classOf_isBuiltin v) (classOf_isBuiltin v)]
  exact ite_self _

/-- The items of two tuples are compared by place, or by name if both have names. -/
def Matches (rt : Runtime) (R : Val → Val → Prop) (ids : Option (List Int)) (xs : List Val)
    (ids' : Option (List Int)) (ys : List Val) : Prop :=
  match ids, ids' with
  | some ids, some ids' =>
    List.Forall₂ (fun x y => x.1 = y.1 ∧ R x.2 y.2) (layout rt (ids.zip xs))
      (layout rt (ids'.zip ys))
  | _, _ => List.Forall₂ R xs ys

/-- What it is for two values to be equal, one level deep. -/
def Alike (rt : Runtime) (R : Val → Val → Prop) : Val → Val → Prop
  | .nil _, .nil _ => True
  | .boolean _ b, .boolean _ b' => b = b'
  | .integer _ z, .integer _ z' => z = z'
  | .string _ bytes, .string _ bytes' => bytes = bytes'
  | .array _ _ xs, .array _ _ ys => List.Forall₂ R xs ys
  | .queue _ _ xs, .queue _ _ ys => List.Forall₂ R xs ys
  | .tuple _ _ ids xs, .tuple _ _ ids' ys => Matches rt R ids xs ids' ys
  | _, _ => False

lemma equal_refl (rt : Runtime) (v : Val) : Equal rt v v := by
  rw [Equal, valueTestEquality.eq_def, if_neg (not_not.mpr rfl)]
  cases v with
  | nil => rfl
  | boolean | integer | string => exact decide_eq_true rfl
  | array | queue => exact if_pos rfl
  | tuple => exact if_pos rfl

lemma arraysEqual_iff {p q : Nat} (hsame : p = q → xs = ys) :
    arraysEqual p (tests rt xs) q ys ↔ List.Forall₂ (Equal rt) xs ys := by
  rw [arraysEqual, tests_eq]
  split
  next hpq =>
    rw [hsame hpq]
    exact iff_of_true rfl (forall₂_same.mpr fun v _ => equal_refl rt v)
  next =>
    split
    next hlength =>
      rw [length_map] at hlength
      exact iff_of_false Bool.false_ne_true fun hall => hlength hall.length_eq
    next hlength =>
      rw [allEqual_iff _ _ (not_not.mp hlength), forall₂_map_left_iff]
      rfl

lemma matches_refl (hrefl : ∀ v, R v v) (ids : Option (List Int)) (xs : List Val) :
    Matches rt R ids xs ids xs := by
  cases ids with
  | none => exact forall₂_same.mpr fun v _ => hrefl v
  | some ids => exact forall₂_same.mpr fun x _ => ⟨rfl, hrefl x.2⟩

/-- Names come with a name for each item. -/
def Sized (ids : Option (List Int)) (xs : List Val) : Prop :=
  ∀ l, ids = some l → l.length = xs.length

lemma matches_length (hxs : Sized ids xs) (hys : Sized ids' ys)
    (h : Matches rt R ids xs ids' ys) : xs.length = ys.length := by
  obtain _ | ids := ids
  · exact h.length_eq
  obtain _ | ids' := ids'
  · exact h.length_eq
  have hlayout := Forall₂.length_eq h
  rwa [(layout_perm rt _).length_eq, (layout_perm rt _).length_eq, length_zip, length_zip,
    hxs ids rfl, hys ids' rfl, Nat.min_self, Nat.min_self] at hlayout

lemma matches_nil {xs : List Val} (hxs : Sized ids xs) (hys : Sized ids' xs)
    (hnil : xs = []) : Matches rt R ids xs ids' xs := by
  subst hnil
  obtain _ | ids := ids
  · exact .nil
  obtain _ | ids' := ids'
  · exact .nil
  rw [length_eq_zero_iff.mp (hxs ids rfl), length_eq_zero_iff.mp (hys ids' rfl)]
  exact forall₂_same.mpr fun x hx => absurd (mem_of_mem_layout hx) not_mem_nil

lemma tuplesEqual_iff {p q : Nat} (hxs : Sized ids xs) (hys : Sized ids' ys)
    (hsame : p = q → Matches rt (Equal rt) ids xs ids' ys) :
    tuplesEqual rt p ids (tests rt xs) q ids' ys ↔ Matches rt (Equal rt) ids xs ids' ys := by
  rw [tuplesEqual.eq_def, tests_eq]
  split
  next hpq => exact iff_of_true rfl (hsame hpq)
  next =>
    split
    next hlength =>
      rw [length_map] at hlength
      exact iff_of_false Bool.false_ne_true fun h => hlength (matches_length hxs hys h)
    next hlength =>
      have hplaces : allEqual (xs.map fun v w => valueTestEquality rt v w) ys ↔
          Forall₂ (Equal rt) xs ys := by
        rw [allEqual_iff _ _ (not_not.mp hlength), forall₂_map_left_iff]
        rfl
      obtain _ | ids := ids
      · exact hplaces
      obtain _ | ids' := ids'
      · exact hplaces
      rw [recordsEqual_iff, zip_map_right, layout_map, forall₂_map_left_iff]
      rfl

lemma equal_iff {v w : Val} (hv : Stored σ v) (hw : Stored σ w) :
    Equal rt v w ↔ v.tags = w.tags ∧ Alike rt (Equal rt) v w := by
  rw [Equal, valueTestEquality.eq_def]
  split
  next htags => exact iff_of_false Bool.false_ne_true fun h => htags h.1
  next htags =>
    rw [and_iff_right (not_not.mp htags)]
    split
    next => simp [Alike]
    next => simp [Alike]
    next => simp [Alike]
    next =>
      cases hv with
      | array hp => cases hw with
        | array hq => exact arraysEqual_iff fun hpq => by rw [← hp, ← hq, hpq]
    next =>
      cases hv with
      | tuple hp hids hlength => cases hw with
        | tuple hq hids' hlength' =>
          refine tuplesEqual_iff hlength hlength' fun hpq => ?_
          subst hp hq hpq
          rcases Decidable.eq_or_ne (σ.tuple _).length 0 with hnil | hnil
          · exact matches_nil hlength hlength' (length_eq_zero_iff.mp hnil)
          · have hnil := fun h => hnil (length_eq_zero_iff.mpr h)
            rw [← hids hnil, ← hids' hnil]
            exact matches_refl (equal_refl rt) _ _
    next =>
      cases hv with
      | queue hp => cases hw with
        | queue hq => exact arraysEqual_iff fun hpq => by rw [← hp, ← hq, hpq]
    next => simp [Alike]
    next hinteger hstring hboolean harray htuple hqueue hnil =>
      rw [dispatched_eq_false]
      refine iff_of_false Bool.false_ne_true fun h => ?_
      rw [Alike.eq_def] at h
      split at h
      · exact hnil _ _ rfl rfl
      · exact hboolean _ _ _ _ rfl rfl
      · exact hinteger _ _ _ _ rfl rfl
      · exact hstring _ _ _ _ rfl rfl
      · exact harray _ _ _ _ _ _ rfl rfl
      · exact hqueue _ _ _ _ _ _ rfl rfl
      · exact htuple _ _ _ _ _ _ _ _ rfl rfl
      · exact h

end Spec

section Induction

def Val.items : Val → List Val
  | .array _ _ items | .queue _ _ items | .tuple _ _ _ items => items
  | .nil _ | .boolean _ _ | .integer _ _ | .string _ _ => []

lemma Val.induct_items {motive : Val → Prop} (h : ∀ v, (∀ x ∈ v.items, motive x) → motive v)
    (v : Val) :
    motive v := by
  induction v with
  | nil | boolean | integer | string => exact h _ nofun
  | array _ _ _ ih | queue _ _ _ ih | tuple _ _ _ _ ih => exact h _ ih

lemma Stored.items {σ : Store} {v : Val} (h : Stored σ v) : ∀ x ∈ v.items, Stored σ x := by
  cases h with
  | nil | boolean | integer | string => nofun
  | array _ hitems | queue _ hitems | tuple _ _ _ hitems => exact hitems

end Induction

section Symmetry

variable {rt : Runtime} {σ : Store} {R : Val → Val → Prop}

lemma matches_symm (hsymm : ∀ x ∈ xs, ∀ y ∈ ys, R x y → R y x) (h : Matches rt R ids xs ids' ys) :
    Matches rt R ids' ys ids xs := by
  have hplaces (h : Forall₂ R xs ys) : Forall₂ R ys xs := Forall₂.flip (forall₂_imp_mem hsymm h)
  obtain _ | ids := ids
  · cases ids' <;> exact hplaces h
  obtain _ | ids' := ids'
  · exact hplaces h
  refine Forall₂.flip (forall₂_imp_mem (fun x hx y hy hxy => ?_) h)
  exact ⟨hxy.1.symm, hsymm _ (mem_of_mem_layout hx) _ (mem_of_mem_layout hy) hxy.2⟩

lemma alike_symm {v w : Val} (hsymm : ∀ x ∈ v.items, ∀ y ∈ w.items, R x y → R y x)
    (h : Alike rt R v w) : Alike rt R w v := by
  rw [Alike.eq_def] at h
  split at h
  · trivial
  · exact h.symm
  · exact h.symm
  · exact h.symm
  · exact Forall₂.flip (forall₂_imp_mem hsymm h)
  · exact Forall₂.flip (forall₂_imp_mem hsymm h)
  · exact matches_symm hsymm h
  · exact h.elim

lemma equal_symm {v w : Val} (hv : Stored σ v) (hw : Stored σ w) (h : Equal rt v w) :
    Equal rt w v := by
  induction v using Val.induct_items generalizing w with
  | h v ih =>
    rw [equal_iff hv hw] at h
    rw [equal_iff hw hv]
    refine ⟨h.1.symm, alike_symm (fun x hx y hy hxy => ?_) h.2⟩
    exact ih x hx (hv.items x hx) (hw.items y hy) hxy

end Symmetry

section Transitivity

/-- The ways in which the tuples of a program are named. -/
structure Namings where
  /-- There are tuples of this length without names. -/
  unnamed : Nat → Prop
  named : List Int → Prop

def Namings.Allows (N : Namings) : Val → Prop
  | .tuple _ _ none items => N.unnamed items.length
  | .tuple _ _ (some ids) _ => N.named ids
  | _ => True

/-- The tuples in a value are all named in these ways. -/
inductive NamedBy (N : Namings) : Val → Prop
  | intro {v : Val} : N.Allows v → (∀ x ∈ v.items, NamedBy N x) → NamedBy N v

/-- If there are tuples without names, then those of the same length that have names all
have the same ones, in one order. -/
def Namings.Clear (N : Namings) : Prop :=
  ∀ ids ids', N.named ids → N.named ids' → ids.length = ids'.length → N.unnamed ids.length →
    ids = ids'

variable {rt : Runtime} {σ : Store} {R : Val → Val → Prop} {N : Namings}

lemma matches_same {ids : List Int} (hxs : ids.length = xs.length)
    (hys : ids.length = ys.length) : Matches rt R (some ids) xs (some ids) ys ↔
    List.Forall₂ R xs ys :=
  forall₂_layout_iff hxs hys

/-- Names of one number are the same. -/
def OneNaming (ids ids' : Option (List Int)) : Prop :=
  ∀ l l', ids = some l → ids' = some l' → l.length = l'.length → l = l'

lemma matches_trans {ids ids' ids'' : Option (List Int)} {xs ys zs : List Val}
    (htrans : ∀ x ∈ xs, ∀ y ∈ ys, ∀ z ∈ zs, R x y → R y z → R x z)
    (hxs : Sized ids xs) (hys : Sized ids' ys)
    (hzs : Sized ids'' zs)
    (hxz : ids' = none → OneNaming ids ids'') (hxy : ids'' = none → OneNaming ids ids')
    (hyz : ids = none → OneNaming ids' ids'')
    (h : Matches rt R ids xs ids' ys) (h' : Matches rt R ids' ys ids'' zs) :
    Matches rt R ids xs ids'' zs := by
  have hlength := matches_length hxs hys h
  have hlength' := matches_length hys hzs h'
  have hplaces : Forall₂ R xs ys → Forall₂ R ys zs → Forall₂ R xs zs := forall₂_trans htrans
  cases ids with
  | none =>
    cases ids' with
    | none => cases ids'' <;> exact hplaces h h'
    | some l =>
      cases ids'' with
      | none => exact hplaces h h'
      | some l' =>
        obtain rfl := hyz rfl l l' rfl rfl (by rw [hys l rfl, hzs l' rfl, hlength'])
        exact hplaces h ((matches_same (hys l rfl) (hzs l rfl)).mp h')
  | some l =>
    cases ids' with
    | none =>
      cases ids'' with
      | none => exact hplaces h h'
      | some l' =>
        obtain rfl := hxz rfl l l' rfl rfl (by rw [hxs l rfl, hzs l' rfl, hlength, hlength'])
        exact (matches_same (hxs l rfl) (hzs l rfl)).mpr (hplaces h h')
    | some l' =>
      cases ids'' with
      | none =>
        obtain rfl := hxy rfl l l' rfl rfl (by rw [hxs l rfl, hys l' rfl, hlength])
        exact hplaces ((matches_same (hxs l rfl) (hys l rfl)).mp h) h'
      | some l'' =>
        refine forall₂_trans (fun x hx y hy z hz hxy hyz => ⟨hxy.1.trans hyz.1, ?_⟩) h h'
        exact htrans _ (mem_of_mem_layout hx) _ (mem_of_mem_layout hy) _ (mem_of_mem_layout hz)
          hxy.2 hyz.2

lemma alike_trans {v w u : Val} (hclear : N.Clear)
    (htrans : ∀ x ∈ v.items, ∀ y ∈ w.items, ∀ z ∈ u.items, R x y → R y z → R x z)
    (hv : Stored σ v) (hw : Stored σ w) (hu : Stored σ u)
    (hnv : N.Allows v) (hnw : N.Allows w) (hnu : N.Allows u)
    (h : Alike rt R v w) (h' : Alike rt R w u) : Alike rt R v u := by
  rw [Alike.eq_def] at h
  -- only values of one type are alike
  split at h <;> cases u <;> try exact h'.elim
  · trivial
  · exact h.trans h'
  · exact h.trans h'
  · exact h.trans h'
  · exact forall₂_trans htrans h h'
  · exact forall₂_trans htrans h h'
  · cases hv with
    | tuple _ _ hxs => cases hw with
      | tuple _ _ hys => cases hu with
        | tuple _ _ hzs =>
          have hlength := matches_length hxs hys h
          have hlength' := matches_length hys hzs h'
          refine matches_trans htrans hxs hys hzs ?_ ?_ ?_ h h'
          · rintro rfl l l' rfl rfl hll
            refine hclear l l' hnv hnu hll ?_
            rwa [hxs l rfl, hlength]
          · rintro rfl l l' rfl rfl hll
            refine hclear l l' hnv hnw hll ?_
            rwa [hxs l rfl, hlength, hlength']
          · rintro rfl l l' rfl rfl hll
            refine hclear l l' hnw hnu hll ?_
            rwa [hys l rfl, ← hlength]
  all_goals exact h.elim

lemma equal_trans {v w u : Val} (hclear : N.Clear) (hv : Stored σ v) (hw : Stored σ w)
    (hu : Stored σ u)
    (hnv : NamedBy N v) (hnw : NamedBy N w) (hnu : NamedBy N u) (h : Equal rt v w)
    (h' : Equal rt w u) :
    Equal rt v u := by
  induction v using Val.induct_items generalizing w u with
  | h v ih =>
    rw [equal_iff hv hw] at h
    rw [equal_iff hw hu] at h'
    rw [equal_iff hv hu]
    obtain ⟨hav, hnv⟩ := hnv
    obtain ⟨haw, hnw⟩ := hnw
    obtain ⟨hau, hnu⟩ := hnu
    refine ⟨h.1.trans h'.1, alike_trans hclear (fun x hx y hy z hz => ?_) hv hw hu hav haw hau
      h.2 h'.2⟩
    exact ih x hx (hv.items x hx) (hw.items y hy) (hu.items z hz) (hnv x hx) (hnw y hy) (hnu z hz)

end Transitivity

section Mixed

def marker (i : Nat) : Val := .string 0 (replicate i 0)

def markers (n : Nat) : List Val := (List.range n).map marker

def mixed (ids ids' : List Int) : Nat → Val
  | 0 => .tuple 0 1 (some ids) (markers ids.length)
  | 1 => .tuple 0 2 none (markers ids.length)
  | _ => .tuple 0 3 (some ids') (markers ids.length)

def mixedStore (ids ids' : List Int) : Store where
  array _ := []
  queue _ := []
  tuple _ := markers ids.length
  ids
    | 1 => some ids
    | 3 => some ids'
    | _ => none

variable {rt : Runtime} {ids ids' : List Int} {N : Namings}

lemma marker_injective {i j : Nat} (h : marker i = marker j) : i = j := by
  have hbytes := congrArg length (Val.string.inj h).2
  rwa [length_replicate, length_replicate] at hbytes

lemma marker_eq_of_equal {i j : Nat} (h : Equal rt (marker i) (marker j)) :
    marker i = marker j := by
  have hstored := fun i => @Stored.string (mixedStore [] []) 0 (replicate i 0)
  have hbytes := ((equal_iff (hstored i) (hstored j)).mp h).2
  exact congrArg (Val.string 0) hbytes

lemma mem_markers {n : Nat} {v : Val} (h : v ∈ markers n) : ∃ i, v = marker i := by
  obtain ⟨i, -, rfl⟩ := mem_map.mp h
  exact ⟨i, rfl⟩

lemma stored_mixed (h : ids.length = ids'.length) (k : Nat) :
    Stored (mixedStore ids ids') (mixed ids ids' k) := by
  have hmarkers : ∀ v ∈ markers ids.length, Stored (mixedStore ids ids') v := by
    intro v hv
    obtain ⟨i, rfl⟩ := mem_markers hv
    exact .string ..
  have hlength : (markers ids.length).length = ids.length := by
    rw [markers, length_map, length_range]
  match k with
  | 0 => exact .tuple rfl (fun _ => rfl) (fun l hl => by cases hl; exact hlength.symm) hmarkers
  | 1 => exact .tuple rfl (fun _ => rfl) nofun hmarkers
  | k + 2 => exact .tuple rfl (fun _ => rfl) (fun l hl => by cases hl; rw [hlength, h]) hmarkers

lemma namedBy_mixed (hids : N.named ids) (hids' : N.named ids') (h : N.unnamed ids.length)
    (k : Nat) :
    NamedBy N (mixed ids ids' k) := by
  have hmarkers : ∀ v ∈ markers ids.length, NamedBy N v := by
    intro v hv
    obtain ⟨i, rfl⟩ := mem_markers hv
    exact .intro trivial nofun
  match k with
  | 0 => exact .intro hids hmarkers
  | 1 =>
    refine .intro ?_ hmarkers
    change N.unnamed (markers ids.length).length
    rwa [markers, length_map, length_range]
  | k + 2 => exact .intro hids' hmarkers

lemma ids_eq_of_equal (h : ids.length = ids'.length)
    (hequal : Equal rt (mixed ids ids' 0) (mixed ids ids' 2)) : ids = ids' := by
  rw [equal_iff (stored_mixed h 0) (stored_mixed h 2)] at hequal
  have hall : Matches rt (Equal rt) (some ids) (markers ids.length) (some ids')
    (markers ids.length) := hequal.2
  have hlayout : layout rt (ids.zip (markers ids.length)) =
      layout rt (ids'.zip (markers ids.length)) := by
    rw [← forall₂_eq_eq_eq]
    refine forall₂_imp_mem (fun x hx y hy hxy => Prod.ext hxy.1 ?_) hall
    obtain ⟨i, hi⟩ := mem_markers (mem_of_mem_layout hx)
    obtain ⟨j, hj⟩ := mem_markers (mem_of_mem_layout hy)
    rw [hi, hj] at hxy ⊢
    exact marker_eq_of_equal hxy.2
  have hperm : (ids.zip (markers ids.length)).Perm (ids'.zip (markers ids.length)) :=
    (layout_perm rt _).symm.trans (hlayout ▸ layout_perm rt _)
  refine ext_getElem h fun i hi hi' => ?_
  have hmem : (ids[i], marker i) ∈ ids.zip (markers ids.length) := by
    refine mem_iff_getElem.mpr ⟨i, ?_, ?_⟩
    · simpa [markers] using hi
    · simp [markers]
  obtain ⟨j, hj, hget⟩ := mem_iff_getElem.mp (hperm.mem_iff.mp hmem)
  rw [getElem_zip] at hget
  simp only [markers, getElem_map, getElem_range, Prod.mk.injEq] at hget
  obtain ⟨hid, hmarker⟩ := hget
  obtain rfl := marker_injective hmarker
  exact hid.symm

end Mixed

section Equivalence

/-- Among the values whose tuples are named in some ways, `value_test_equality` is an
equivalence relation in every store exactly if the namings are clear. -/
theorem valueTestEquality_equivalence_iff (rt : Runtime) (N : Namings) :
    (∀ σ, Equivalence fun v w : { v // Stored σ v ∧ NamedBy N v } => valueTestEquality rt v w) ↔
      N.Clear := by
  constructor
  · intro h ids ids' hids hids' hlength hunnamed
    have hin := fun k => And.intro (stored_mixed hlength k) (namedBy_mixed hids hids' hunnamed k)
    refine @ids_eq_of_equal rt _ _ hlength ?_
    refine (h (mixedStore ids ids')).trans (x := ⟨_, hin 0⟩) (y := ⟨_, hin 1⟩)
      (z := ⟨_, hin 2⟩) ?_ ?_
    · exact (equal_iff (hin 0).1 (hin 1).1).mpr ⟨rfl, forall₂_same.mpr fun v _ => equal_refl rt v⟩
    · exact (equal_iff (hin 1).1 (hin 2).1).mpr ⟨rfl, forall₂_same.mpr fun v _ => equal_refl rt v⟩
  · intro hclear σ
    refine ⟨fun v => equal_refl rt v, fun {v w} => ?_, fun {v w u} => ?_⟩
    · exact equal_symm v.property.1 w.property.1
    · exact equal_trans hclear v.property.1 w.property.1 u.property.1 v.property.2 w.property.2
        u.property.2

/-- A record, a tuple without names and a record with other names. -/
theorem valueTestEquality_not_trans :
    valueTestEquality plainRuntime (.tuple 0 1 (some [4, 5]) [.integer 0 1, .integer 0 2])
        (.tuple 0 2 none [.integer 0 1, .integer 0 2]) ∧
      valueTestEquality plainRuntime (.tuple 0 2 none [.integer 0 1, .integer 0 2])
        (.tuple 0 3 (some [6, 7]) [.integer 0 1, .integer 0 2]) ∧
      valueTestEquality plainRuntime (.tuple 0 1 (some [4, 5]) [.integer 0 1, .integer 0 2])
        (.tuple 0 3 (some [6, 7]) [.integer 0 1, .integer 0 2]) = false := by
  decide

end Equivalence

end TyLang.Equality
