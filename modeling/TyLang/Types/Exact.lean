import TyLang.Types.Either

/-!
`Either`, `CoalesceTagged` and `type_subtract` of `src/types.c` by the values of the types they
make. On the types of `nil`, the classes, literals, arrays, tags and unions the union of two types
has the values of both and no others, tagged members can be put together, and a difference loses
only values of what is taken away.
-/
namespace TyLang.Types
open List Typ

section Coalesce

structure TaggedGroup where
  tag : Nat
  types : List Typ

/-- `TypeArg(t0, 0)` of a tagged type. -/
def taggedArg : Typ → Typ
  | .tagged _ arg => arg
  | _ => .any

/-- A tagged type goes to the group of its tag, or makes a new one. -/
def addTagged (tag : Nat) (t : Typ) : List TaggedGroup → List TaggedGroup
  | [] => [⟨tag, [t]⟩]
  | group :: groups =>
    if group.tag = tag then { group with types := group.types ++ [t] } :: groups
    else group :: addTagged tag t groups

structure Gathered where
  untagged : List Typ
  tagged : List TaggedGroup
  skip : Bool

def gather (g : Gathered) (t : Typ) : Gathered :=
  match tagOf t with
  | some tag =>
    { g with
      tagged := addTagged tag t g.tagged
      skip := g.skip && !g.tagged.any (·.tag == tag) }
  | none => { g with untagged := g.untagged ++ [t] }

def TaggedGroup.type (group : TaggedGroup) : Typ :=
  match group.types with
  | [t] => t
  | types => .tagged group.tag (.union (types.map taggedArg))

def coalesceTagged : Typ → Typ
  | .union types =>
    let g := types.foldl gather ⟨[], [], true⟩
    if g.skip then .union types
    else
      match g.untagged ++ g.tagged.map TaggedGroup.type with
      | [] => .bottom
      | [t] => t
      | types' => .union types'
  | t => t

end Coalesce

section Subtract

variable (W : World) (t1 : Typ)

mutual

/-- `type_subtract`, on a type instead of a place that holds one. -/
def typeSubtract : Typ → Typ
  | .union types =>
    if isBottom t1 || isAny t1 || !typeCheck W (.union types) t1 then .union types
    else .union (subtractMembers types)
  | .inter types =>
    if isBottom t1 || isAny t1 || !typeCheck W (.inter types) t1 then .inter types
    else .inter (subtractAll types)
  | t => t

def subtractMembers : List Typ → List Typ
  | [] => []
  | t2 :: types =>
    if typeCheck W t1 t2 then subtractMembers types
    else typeSubtract t2 :: subtractMembers types

def subtractAll : List Typ → List Typ
  | [] => []
  | t2 :: types => typeSubtract t2 :: subtractAll types

end

end Subtract

section Order

variable {W : World} {t0 t1 : Typ}

def Includes (W : World) (t0 t1 : Typ) : Prop :=
  ∀ v, typeCheckValue W t1 v → typeCheckValue W t0 v

lemma includes_literal (h : isLitSubtype t0 t1) : Includes W t0 t1 := by
  intro v hv
  rw [value_literal (isLiteral_of_isLitSubtype h)] at hv
  by_cases hlit0 : isLiteral t0
  · rw [value_literal hlit0]
    cases t0 <;> cases t1 <;> simp_all [isLitSubtype, isLiteral]
  cases t0 with
  | object c args =>
    rw [value_object]
    cases t1 <;> cases v <;> simp_all [isLitSubtype, isLiteralValue, hasClass, arrayItems]
  | intLit | strLit | boolLit => simp [isLiteral] at hlit0
  | _ => cases h

/-- A type above another has all its values. -/
lemma Above.includes (h : Above t0 t1) (h0 : depth t0 < 65) (h1 : depth t1 < 65) :
    Includes W t0 t1 := by
  induction h with
  | refl => exact fun _ hv => hv
  | literal h => exact includes_literal h
  | @unionRight t0 types h ih =>
    intro v hv
    rw [value_union h1, any_eq_true] at hv
    obtain ⟨ti, hti, hv⟩ := hv
    have := depth_part (t := .union types) hti
    exact ih ti hti h0 (by omega) v hv
  | @unionLeft t1 ti types hti h ih =>
    intro v hv
    have := depth_part (t := .union types) hti
    rw [value_union h0, any_eq_true]
    exact ⟨ti, hti, ih (by omega) h1 v hv⟩
  | @tagged tag arg arg' h ih =>
    intro v hv
    rw [depth] at h0 h1
    rw [value_tagged, Option.any_eq_true] at hv ⊢
    obtain ⟨inner, hunwrap, hv⟩ := hv
    exact ⟨inner, hunwrap, ih (by omega) (by omega) inner hv⟩
  | @array arg arg' h ih =>
    intro v hv
    have := depth_part (t := .object .array [arg]) (mem_singleton_self arg)
    have := depth_part (t := .object .array [arg']) (mem_singleton_self arg')
    rw [value_object, Bool.and_eq_true, all_eq_true] at hv ⊢
    exact ⟨hv.1, fun item hitem => ih (by omega) (by omega) item (hv.2 item hitem)⟩

lemma includes_of_typeCheck (h0 : Small t0) (h1 : isBasic t1) (hd1 : depth t1 ≤ 21)
    (h : typeCheck W t0 t1) : Includes W t0 t1 := by
  have hd0 := h0.depth
  exact ((typeCheck_iff_sub h0.basic h1 (by omega)).mp h).above.includes (by omega) (by omega)

end Order

variable {types : List Typ}

section Values

variable {W : World} {a b : Typ} {v : Value}

def anyValue (W : World) (types : List Typ) (v : Value) : Bool := types.any (typeCheckValue W · v)

lemma value_union_small (h : ∀ t ∈ types, depth t ≤ 60) :
    typeCheckValue W (.union types) v = anyValue W types v :=
  value_union (by
    have : depths types ≤ 61 := depths_le fun t ht => Nat.lt_succ_of_le (h t ht)
    rw [depth]
    omega) v

lemma value_members (h : depth a ≤ 60) : anyValue W (members a) v = typeCheckValue W a v := by
  cases a with
  | union types => exact (value_union (by change depth (.union types) < 65; omega) v).symm
  | _ => simp [anyValue, members]

/-- The loop of `Uniq` loses no value and adds none. -/
lemma uniqStep_value {kept : List Typ} {t : Typ} (hkept : ∀ s ∈ kept, Small s) (ht : Small t) :
    (∀ s ∈ uniqStep W kept t, Small s) ∧
      anyValue W (uniqStep W kept t) v = (anyValue W kept v || typeCheckValue W t v) := by
  have hunion := Small.union hkept
  unfold uniqStep
  split
  · next hcheck =>
      refine ⟨fun s hs => by rwa [mem_singleton.mp hs], ?_⟩
      have hincl := includes_of_typeCheck ht hunion.1 hunion.2 hcheck v
      rw [value_union_small fun s hs => by have := (hkept s hs).depth; omega] at hincl
      rw [anyValue, any_cons, any_nil, Bool.or_false]
      exact Bool.eq_or_self.mpr hincl
  · split
    · next hsuper =>
        refine ⟨hkept, ?_⟩
        obtain ⟨before, s, after, rfl, -, hst⟩ := unionHasSuper_split hsuper
        have hs : s ∈ before ++ s :: after := mem_append_cons_self
        have hincl := includes_of_typeCheck (hkept s hs) ht.basic (by have := ht.depth; omega) hst v
        exact Bool.eq_self_or.mpr fun hv => any_eq_true.mpr ⟨s, hs, hincl hv⟩
    · refine ⟨fun s hs => ?_, ?_⟩
      · rcases mem_append.mp hs with hs | hs
        · exact hkept s hs
        · rwa [mem_singleton.mp hs]
      · rw [anyValue, any_append, any_cons, any_nil, Bool.or_false]
        rfl

lemma uniq_foldl_value {kept types : List Typ} (hkept : ∀ s ∈ kept, Small s)
    (htypes : ∀ s ∈ types, Small s) :
    (∀ s ∈ types.foldl (uniqStep W) kept, Small s) ∧
      anyValue W (types.foldl (uniqStep W) kept) v = (anyValue W kept v || anyValue W types v) := by
  induction types generalizing kept with
  | nil => exact ⟨hkept, (Bool.or_false _).symm⟩
  | cons t types ih =>
    obtain ⟨hsmall, hvalue⟩ := uniqStep_value (W := W) (v := v) hkept (htypes t mem_cons_self)
    obtain ⟨hsmall', hvalue'⟩ := ih hsmall fun s hs => htypes s (mem_cons_of_mem t hs)
    refine ⟨hsmall', ?_⟩
    rw [foldl_cons, hvalue', hvalue, Bool.or_assoc]
    rfl

lemma uniq_value (h : ∀ t ∈ types, Small t) :
    typeCheckValue W (uniq W types) v = anyValue W types v := by
  unfold uniq
  split
  · next t => simp [anyValue]
  · have hnil : ∀ s ∈ ([] : List Typ), Small s := by simp
    obtain ⟨hsmall, hvalue⟩ := uniq_foldl_value (W := W) (v := v) hnil h
    rw [value_union_small fun t ht => by have := (hsmall t ht).depth; omega, hvalue]
    rfl

lemma either_value (ha : Small a) (hb : Small b) :
    typeCheckValue W (either W a b) v = (typeCheckValue W a v || typeCheckValue W b v) := by
  have hda := ha.depth
  have hdb := hb.depth
  unfold either
  split
  · next hab =>
      have hincl := includes_of_typeCheck ha hb.basic (by omega) hab v
      exact Bool.eq_self_or.mpr hincl
  · split
    · next hba =>
        have hincl := includes_of_typeCheck hb ha.basic (by omega) hba v
        exact Bool.eq_or_self.mpr hincl
    · rw [uniq_value fun t ht => (mem_append.mp ht).elim ha.members hb.members, anyValue,
        any_append]
      change (anyValue W (members a) v || anyValue W (members b) v) = _
      rw [value_members (by omega), value_members (by omega)]

end Values

section Tagged

variable {W : World} {v : Value} {done : List Typ}

lemma eq_tagged_of_tagOf {t : Typ} {tag : Nat} (h : tagOf t = some tag) :
    t = .tagged tag (taggedArg t) := by
  cases t <;> cases h
  rfl

/-- A group holds members of its tag, from the types given. -/
structure TaggedGroup.Ok (done : List Typ) (group : TaggedGroup) : Prop where
  tags : ∀ t ∈ group.types, tagOf t = some group.tag
  subset : ∀ t ∈ group.types, t ∈ done
  nonempty : group.types ≠ []

lemma TaggedGroup.Ok.snoc {group : TaggedGroup} (h : group.Ok done) (t : Typ) :
    group.Ok (done ++ [t]) :=
  ⟨h.tags, fun s hs => mem_append_left _ (h.subset s hs), h.nonempty⟩

lemma TaggedGroup.Ok.value {group : TaggedGroup} (h : group.Ok done)
    (hdone : ∀ t ∈ done, depth t ≤ 20) :
    depth group.type ≤ 21 ∧ typeCheckValue W group.type v = anyValue W group.types v := by
  unfold TaggedGroup.type
  split
  · next t heq =>
      have ht := hdone t (h.subset t (by rw [heq]; exact mem_singleton_self t))
      exact ⟨by omega, by simp [anyValue, heq]⟩
  next types _ =>
    have hdepth : ∀ t ∈ group.types, depth (taggedArg t) < 20 := by
      intro t ht
      have hd := hdone t (h.subset t ht)
      rw [eq_tagged_of_tagOf (h.tags t ht), depth] at hd
      omega
    have hargs : ∀ s ∈ group.types.map taggedArg, depth s < 20 := by
      intro s hs
      obtain ⟨t, ht, rfl⟩ := mem_map.mp hs
      exact hdepth t ht
    refine ⟨?_, ?_⟩
    · rw [depth, depth]
      have := depths_le hargs
      omega
    rw [value_tagged]
    have hmember : ∀ t ∈ group.types,
        typeCheckValue W t v = (unwrap group.tag v).any (typeCheckValue W (taggedArg t)) := by
      intro t ht
      conv_lhs => rw [eq_tagged_of_tagOf (h.tags t ht)]
      exact value_tagged _ _ v
    rw [anyValue, any_congr_mem hmember]
    cases unwrap group.tag v with
    | none => simp
    | some inner =>
      simp only [Option.any_some]
      rw [value_union_small fun s hs => by have := hargs s hs; omega, anyValue, any_map]
      rfl

/-- What the loop has gathered has the values of the members it has seen. -/
structure GatherOk (W : World) (v : Value) (done : List Typ) (g : Gathered) : Prop where
  untagged : ∀ t ∈ g.untagged, t ∈ done
  groups : ∀ group ∈ g.tagged, group.Ok done
  some_group : g.skip = false → g.tagged ≠ []
  value : (anyValue W g.untagged v || g.tagged.any fun group => anyValue W group.types v) =
    anyValue W done v

lemma anyValue_snoc (types : List Typ) (t : Typ) :
    anyValue W (types ++ [t]) v = (anyValue W types v || typeCheckValue W t v) := by
  simp [anyValue]

lemma addTagged_ok {groups : List TaggedGroup} {t : Typ} {tag : Nat}
    (htag : tagOf t = some tag) (h : ∀ group ∈ groups, group.Ok done) :
    ∀ group ∈ addTagged tag t groups, group.Ok (done ++ [t]) := by
  have hlast : t ∈ done ++ [t] := mem_concat_self
  induction groups with
  | nil =>
    intro group hgroup
    rw [mem_singleton.mp hgroup]
    exact ⟨fun s hs => by rw [mem_singleton.mp hs, htag],
      fun s hs => by rwa [mem_singleton.mp hs], cons_ne_nil _ _⟩
  | cons first groups ih =>
    intro group hgroup
    have hfirst := h first (.head _)
    rw [addTagged] at hgroup
    split at hgroup
    · next heq =>
        rcases mem_cons.mp hgroup with rfl | hgroup
        · refine ⟨fun s hs => ?_, fun s hs => ?_, by simp⟩
          · rcases mem_append.mp hs with hs | hs
            · exact hfirst.tags s hs
            · rw [mem_singleton.mp hs, htag, heq]
          · rcases mem_append.mp hs with hs | hs
            · exact mem_append_left _ (hfirst.subset s hs)
            · rwa [mem_singleton.mp hs]
        · exact (h group (.tail _ hgroup)).snoc t
    · rcases mem_cons.mp hgroup with rfl | hgroup
      · exact hfirst.snoc t
      · exact ih (fun group hgroup => h group (.tail _ hgroup)) group hgroup

lemma addTagged_value (groups : List TaggedGroup) (t : Typ) (tag : Nat) :
    ((addTagged tag t groups).any fun group => anyValue W group.types v) =
      ((groups.any fun group => anyValue W group.types v) || typeCheckValue W t v) := by
  induction groups with
  | nil => simp [addTagged, anyValue]
  | cons first groups ih =>
    rw [addTagged]
    split
    · simp only [any_cons, anyValue_snoc]
      rw [Bool.or_right_comm]
    · rw [any_cons, ih, any_cons, Bool.or_assoc]

lemma GatherOk.step {g : Gathered} (h : GatherOk W v done g) (t : Typ) :
    GatherOk W v (done ++ [t]) (gather g t) := by
  unfold gather
  split
  · next tag htag =>
      refine ⟨fun s hs => mem_append_left _ (h.untagged s hs), addTagged_ok htag h.groups,
        fun _ => ?_, ?_⟩
      · cases hg : g.tagged with
        | nil => exact cons_ne_nil _ _
        | cons first groups =>
          change addTagged tag t (first :: groups) ≠ []
          rw [addTagged]
          split <;> exact cons_ne_nil _ _
      · rw [addTagged_value, ← Bool.or_assoc, h.value, anyValue_snoc]
  · refine ⟨fun s hs => ?_, fun group hgroup => (h.groups group hgroup).snoc t, h.some_group, ?_⟩
    · rcases mem_append.mp hs with hs | hs
      · exact mem_append_left _ (h.untagged s hs)
      · rw [mem_singleton.mp hs]
        exact mem_concat_self
    · rw [anyValue_snoc, anyValue_snoc, ← h.value]
      rw [Bool.or_right_comm]

lemma GatherOk.foldl {g : Gathered} (h : GatherOk W v done g) (types : List Typ) :
    GatherOk W v (done ++ types) (types.foldl gather g) := by
  induction types generalizing done g with
  | nil => rwa [append_nil]
  | cons t types ih =>
    rw [foldl_cons, append_cons]
    exact ih (h.step t)

lemma coalesceTagged_value {a : Typ} (ha : depth a ≤ 20) :
    typeCheckValue W (coalesceTagged a) v = typeCheckValue W a v := by
  cases a with
  | union types =>
    have hdepth : ∀ t ∈ types, depth t ≤ 20 := fun t ht => by
      have := depth_part (t := .union types) ht
      omega
    have hstart : GatherOk W v [] ⟨[], [], true⟩ := ⟨by simp, by simp, nofun, rfl⟩
    have hgather := hstart.foldl types
    rw [nil_append] at hgather
    rw [coalesceTagged]
    generalize types.foldl gather ⟨[], [], true⟩ = g at hgather
    have hgroup : ∀ group ∈ g.tagged, depth group.type ≤ 21 ∧
        typeCheckValue W group.type v = anyValue W group.types v :=
      fun group hmem => (hgather.groups group hmem).value hdepth
    have hvalue : anyValue W (g.untagged ++ g.tagged.map TaggedGroup.type) v =
        typeCheckValue W (.union types) v := by
      rw [value_union_small fun t ht => by have := hdepth t ht; omega, ← hgather.value, anyValue,
        any_append, any_map]
      exact congrArg _ (any_congr_mem fun group hmem => (hgroup group hmem).2)
    have hsmall : ∀ t ∈ g.untagged ++ g.tagged.map TaggedGroup.type, depth t ≤ 60 := by
      intro t ht
      rcases mem_append.mp ht with ht | ht
      · have := hdepth t (hgather.untagged t ht)
        omega
      · obtain ⟨group, hmem, rfl⟩ := mem_map.mp ht
        have := (hgroup group hmem).1
        omega
    split
    · rfl
    next hskip =>
      split
      · next hnil =>
          rw [append_eq_nil_iff, map_eq_nil_iff] at hnil
          exact absurd hnil.2 (hgather.some_group (Bool.not_eq_true _ ▸ hskip))
      · next t heq =>
          rw [← hvalue, heq]
          simp [anyValue]
      · rw [value_union_small hsmall, hvalue]
  | _ => rfl

end Tagged

section Difference

variable {W : World} {a b : Typ} {v : Value}

/-- A difference has values of the first type only, and all of those that the second lacks. -/
structure Difference (W : World) (b a a' : Typ) : Prop where
  depth : depth a' ≤ Typ.depth a
  keeps : ∀ v, typeCheckValue W a v → typeCheckValue W b v = false → typeCheckValue W a' v
  only : ∀ v, typeCheckValue W a' v → typeCheckValue W a v

lemma Difference.refl (a : Typ) : Difference W b a a where
  depth := Nat.le_refl _
  keeps _ hv _ := hv
  only _ hv := hv

lemma subtractMembers_difference (hb : Small b) (htypes : ∀ t ∈ types, Small t)
    (ih : ∀ t ∈ types, Difference W b t (typeSubtract W b t)) :
    (∀ s ∈ subtractMembers W b types, depth s < depths types) ∧
      (∀ v, anyValue W types v → typeCheckValue W b v = false →
        anyValue W (subtractMembers W b types) v) ∧
      ∀ v, anyValue W (subtractMembers W b types) v → anyValue W types v := by
  induction types with
  | nil => exact ⟨nofun, fun _ hv _ => hv, fun _ hv => hv⟩
  | cons t types ihs =>
    obtain ⟨hdepth, hkeeps, honly⟩ := ihs (fun s hs => htypes s (mem_cons_of_mem t hs))
      fun s hs => ih s (mem_cons_of_mem t hs)
    have ht := htypes t (.head _)
    have hdiff := ih t (.head _)
    have hle : depths types ≤ depths (t :: types) := by
      rw [depths]
      omega
    rw [subtractMembers]
    split
    · next hcheck =>
        -- the member has only values of `b`
        have hincl := includes_of_typeCheck hb ht.basic (by have := ht.depth; omega) hcheck
        refine ⟨fun s hs => Nat.lt_of_lt_of_le (hdepth s hs) hle, fun v hv hnot => ?_,
          fun v hv => ?_⟩
        · rw [anyValue, any_cons, Bool.or_eq_true] at hv
          rcases hv with hv | hv
          · rw [hincl v hv] at hnot
            cases hnot
          · exact hkeeps v hv hnot
        · rw [anyValue, any_cons, Bool.or_eq_true]
          exact .inr (honly v hv)
    · refine ⟨fun s hs => ?_, fun v hv hnot => ?_, fun v hv => ?_⟩
      · rcases mem_cons.mp hs with rfl | hs
        · exact Nat.lt_of_le_of_lt hdiff.depth (depth_lt_depths mem_cons_self)
        · exact Nat.lt_of_lt_of_le (hdepth s hs) hle
      · rw [anyValue, any_cons, Bool.or_eq_true] at hv ⊢
        exact hv.imp (fun hv => hdiff.keeps v hv hnot) fun hv => hkeeps v hv hnot
      · rw [anyValue, any_cons, Bool.or_eq_true] at hv ⊢
        exact hv.imp (hdiff.only v) (honly v)

lemma typeSubtract_difference (hb : Small b) (ha : Small a) :
    Difference W b a (typeSubtract W b a) := by
  induction a with
  | union types ih =>
    rw [typeSubtract]
    split
    · exact .refl _
    have hda := ha.depth
    obtain ⟨hdepth, hkeeps, honly⟩ := subtractMembers_difference hb (fun t ht => ha.members ht)
      fun t ht => ih t ht (ha.members ht)
    have hle : depths (subtractMembers W b types) ≤ depths types := depths_le hdepth
    rw [depth] at hda
    have hvalue (v : Value) : typeCheckValue W (.union types) v = anyValue W types v :=
      value_union (by rw [depth]; omega) v
    have hvalue' (v : Value) : typeCheckValue W (.union (subtractMembers W b types)) v =
        anyValue W (subtractMembers W b types) v := value_union (by rw [depth]; omega) v
    refine ⟨hle, fun v hv hnot => ?_, fun v hv => ?_⟩
    · rw [hvalue] at hv
      rw [hvalue']
      exact hkeeps v hv hnot
    · rw [hvalue'] at hv
      rw [hvalue]
      exact honly v hv
  | inter types => exact absurd (every_self ha.basic) (by simp [isBasicPart])
  | _ => exact .refl _

end Difference

/-- The union of two types has their values, putting tagged members together changes no value, and
a difference is made of values of the first type and loses only values of the second. -/
theorem unions_exact (W : World) {a b : Typ} (ha : Small a) (hb : Small b) (v : Value) :
    typeCheckValue W (either W a b) v = (typeCheckValue W a v || typeCheckValue W b v) ∧
      typeCheckValue W (coalesceTagged a) v = typeCheckValue W a v ∧
      (typeCheckValue W a v → typeCheckValue W b v = false →
        typeCheckValue W (typeSubtract W b a) v) ∧
      (typeCheckValue W (typeSubtract W b a) v → typeCheckValue W a v) :=
  have hdiff := typeSubtract_difference hb ha
  ⟨either_value ha hb, coalesceTagged_value ha.depth, hdiff.keeps v, hdiff.only v⟩

/-- `Some[Int] | Some[String | Bool] | nil` without `nil`, on `Some(true)`. -/
theorem unions_exact_some :
    typeCheckValue noMembers (typeSubtract noMembers .nil
      (.union [.tagged 0 intType, .tagged 0 (.union [stringType, boolType]), .nil]))
      (.tagged 0 (.boolean true)) :=
  (unions_exact noMembers ⟨by decide, by decide⟩ ⟨by decide, by decide⟩ _).2.2.1 (by decide)
    (by decide)

end TyLang.Types
