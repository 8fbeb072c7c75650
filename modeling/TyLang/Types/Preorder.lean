import TyLang.Types.Values

/-!
The types without `Any`, tuples and intersections, and the relation on them that
`type_check_x_` decides. It is the order in which a union is above its members, less the
pairs that the shortcuts of the code hide: a union is asked for no literal, a literal for no
union, and of the members with one tag only the first is asked.
-/
namespace TyLang.Types
open List Typ

attribute [local simp] isAny isBottom isLiteral isLitSubtype typeCheckStep

section Basic

def isBasicPart : Typ → Bool
  | .nil => true
  | .object .array args => args.length == 1
  | .object _ args => args.isEmpty
  | .intLit _ => true
  | .strLit _ => true
  | .boolLit _ => true
  | .union _ => true
  | .tagged _ _ => true
  | _ => false

/-- The types of `nil`, the classes, literals, arrays, tags and unions. -/
def isBasic (t : Typ) : Bool := every isBasicPart t

def isUnion : Typ → Bool
  | .union _ => true
  | _ => false

lemma not_isAny {t : Typ} (h : isBasic t) : isAny t = false := by
  cases t <;> simp_all [isBasic, every, isBasicPart]

lemma not_isBottom {t : Typ} (h : isBasic t) : isBottom t = false := by
  cases t <;> simp_all [isBasic, every, isBasicPart]

end Basic

/-- What the check accepts. A union decides about a type that is not one by a member
that accepts it, where among the tagged ones only the first of the tag is asked. -/
inductive Sub : Typ → Typ → Prop where
  | refl (t : Typ) : Sub t t
  | literal {t0 t1 : Typ} (h : isLitSubtype t0 t1) : Sub t0 t1
  | unionRight {t0 : Typ} {types : List Typ} (hlit : isLiteral t0 = false)
      (h : ∀ ti ∈ types, Sub t0 ti) : Sub t0 (.union types)
  | unionLeft {t1 ti : Typ} {before after : List Typ} (hlit : isLiteral t1 = false)
      (hunion : isUnion t1 = false) (hbefore : ∀ s ∈ before, tagOf s = none ∨ tagOf s ≠ tagOf t1)
      (h : Sub ti t1) : Sub (.union (before ++ ti :: after)) t1
  | tagged (tag : Nat) {arg arg' : Typ} (h : Sub arg arg') :
      Sub (.tagged tag arg) (.tagged tag arg')
  | array {arg arg' : Typ} (h : Sub arg arg') : Sub (.object .array [arg]) (.object .array [arg'])

section Literal

variable {t0 t1 : Typ}

lemma isLiteral_of_isLitSubtype (h : isLitSubtype t0 t1) : isLiteral t1 := by
  cases t0 <;> cases t1 <;> first | rfl | cases h

lemma eq_of_isLitSubtype (h0 : isLiteral t0) (h : isLitSubtype t0 t1) :
    t0 = t1 := by
  cases t0 <;> simp only [isLiteral, Bool.false_eq_true] at h0 <;> cases t1 <;>
    simp_all

end Literal

variable {types : List Typ}

namespace Sub

variable {t0 t1 : Typ}

lemma tagOf_eq (h : Sub t0 t1) (h0 : tagOf t0 ≠ none) (h1 : tagOf t1 ≠ none) :
    tagOf t0 = tagOf t1 := by
  cases h with
  | refl | tagged => rfl
  | literal h =>
    have hlit := isLiteral_of_isLitSubtype h
    cases t1 <;> first | exact absurd rfl h1 | cases hlit
  | unionRight => exact absurd rfl h1
  | unionLeft | array => exact absurd rfl h0

end Sub

section Agree

variable {W : World} {t0 t1 : Typ} {check : Typ → Typ → Bool}

lemma typeCheckStep_basic (h0 : isBasic t0)
    (h1 : isBasic t1) (h : typeCheckStep W check t0 t1) :
    t0 = t1 ∨ isLitSubtype t0 t1 ∨
      (∃ types, t1 = .union types ∧ isLiteral t0 = false ∧ ∀ ti ∈ types, check t0 ti) ∨
      (∃ types, t0 = .union types ∧ isLiteral t1 = false ∧ isUnion t1 = false ∧
        unionHasSuper check t1 types) ∨
      checkShapes W check t0 t1 := by
  unfold typeCheckStep at h
  simp only [not_isAny h0, not_isAny h1, not_isBottom h0, not_isBottom h1, Bool.false_or,
    Bool.or_false, Bool.false_eq_true, if_false] at h
  split at h
  · next hsame => exact .inl (eq_of_sameType hsame)
  split at h
  · exact .inr (.inr (.inl ⟨_, rfl, rfl, all_eq_true.mp h⟩))
  · cases h0
  split at h
  · exact .inr (.inl h)
  next hlit =>
    rw [Bool.or_eq_true, not_or, Bool.not_eq_true, Bool.not_eq_true] at hlit
    split at h
    · cases h1
    · exact .inr (.inr (.inl ⟨_, rfl, hlit.1, forall_of_acceptsUnion h⟩))
    · next hnot =>
        refine .inr (.inr (.inr (.inl ⟨_, rfl, hlit.2, ?_, h⟩)))
        cases t1 with
        | union types => exact absurd rfl (hnot types)
        | _ => rfl
    · cases h0
    · exact .inr (.inr (.inr (.inr h)))

lemma checkShapes_basic (h0 : isBasic t0)
    (h1 : isBasic t1) (h : checkShapes W check t0 t1) :
    (∃ tag arg arg', t0 = .tagged tag arg ∧ t1 = .tagged tag arg' ∧ check arg arg') ∨
      (∃ arg arg', t0 = .object .array [arg] ∧ t1 = .object .array [arg'] ∧ check arg arg') ∨
      t0 = t1 := by
  have hpart0 := every_self h0
  have hpart1 := every_self h1
  unfold checkShapes at h
  split at h
  · rw [Bool.and_eq_true, decide_eq_true_iff] at h
    obtain ⟨rfl, harg⟩ := h
    exact .inl ⟨_, _, _, rfl, rfl, harg⟩
  · cases h
  · cases h
  · cases hpart0
  · cases hpart0
  · cases hpart1
  · next c args c' args' =>
      rw [Bool.and_eq_true, decide_eq_true_iff] at h
      obtain ⟨rfl, hargs⟩ := h
      cases c with
      | array =>
        obtain ⟨a, rfl⟩ := length_eq_one_iff.mp (beq_iff_eq.mp hpart0)
        obtain ⟨a', rfl⟩ := length_eq_one_iff.mp (beq_iff_eq.mp hpart1)
        exact .inr (.inl ⟨a, a', rfl, rfl, by simpa [typeArg] using hargs⟩)
      | _ =>
        rw [isEmpty_iff.mp hpart0, isEmpty_iff.mp hpart1]
        exact .inr (.inr rfl)
  · cases h

lemma sub_of_typeCheckX {d : Nat} (hd : depth t0 + depth t1 < d) (h0 : isBasic t0)
    (h1 : isBasic t1) (h : typeCheckX W d t0 t1) : Sub t0 t1 := by
  induction d generalizing t0 t1 with
  | zero => omega
  | succ d ih =>
    have hpart : ∀ {s0 s1}, s0 ∈ parts t0 → s1 ∈ parts t1 → typeCheckX W d s0 s1 →
        Sub s0 s1 := by
      intro s0 s1 hs0 hs1
      have := depth_part hs0
      have := depth_part hs1
      exact ih (by omega) (every_part h0 hs0) (every_part h1 hs1)
    rcases typeCheckStep_basic h0 h1 h with rfl | hlit | ⟨types, rfl, hlit, hall⟩ |
      ⟨types, rfl, hlit, hunion, hsuper⟩ | hshapes
    · exact .refl t0
    · exact .literal hlit
    · refine .unionRight hlit fun ti hti => ?_
      have := depth_part (t := .union types) hti
      exact ih (by omega) h0 (every_part h1 hti) (hall ti hti)
    · obtain ⟨before, ti, after, rfl, hbefore, hcheck⟩ := unionHasSuper_split hsuper
      have hti : ti ∈ parts (.union (before ++ ti :: after)) := mem_append_cons_self
      have := depth_part hti
      exact .unionLeft hlit hunion hbefore (ih (by omega) (every_part h0 hti) h1 hcheck)
    · rcases checkShapes_basic h0 h1 hshapes with ⟨tag, arg, arg', rfl, rfl, hcheck⟩ |
        ⟨arg, arg', rfl, rfl, hcheck⟩ | rfl
      · exact .tagged tag (hpart (.head _) (.head _) hcheck)
      · exact .array (hpart (.head _) (.head _) hcheck)
      · exact .refl t0

lemma typeCheckStep_unionRight (h0 : isBasic t0) (hlit : isLiteral t0 = false)
    (h : ∀ ti ∈ types, Sub t0 ti ∧ check t0 ti) :
    typeCheckStep W check t0 (.union types) := by
  have hall : ∀ ti ∈ types, check t0 ti := fun ti hti => (h ti hti).2
  have haccepts : acceptsUnion check t0 types := by
    unfold acceptsUnion
    split
    · next tag htag =>
        refine all_eq_true.mpr fun ti hti => ?_
        rw [Bool.and_eq_true, decide_eq_true_iff, ← htag]
        refine ⟨?_, hall ti hti⟩
        by_cases hnone : tagOf ti = none
        · exact .inl hnone
        · exact .inr ((h ti hti).1.tagOf_eq (by simp [htag]) hnone).symm
    · exact all_eq_true.mpr hall
  unfold typeCheckStep
  split
  · rfl
  rw [if_neg (by simp)]
  cases t0 with
  | union => exact all_eq_true.mpr hall
  | inter => cases h0
  | intLit | strLit | boolLit => cases hlit
  | _ => exact haccepts

lemma typeCheckX_of_sub {d : Nat} (hd : depth t0 + depth t1 < d) (h0 : isBasic t0)
    (h1 : isBasic t1) (h : Sub t0 t1) : typeCheckX W d t0 t1 := by
  induction d generalizing t0 t1 with
  | zero => omega
  | succ d ih =>
    rw [typeCheckX]
    have hpart : ∀ {s0 s1}, s0 ∈ parts t0 → s1 ∈ parts t1 → Sub s0 s1 →
        typeCheckX W d s0 s1 := by
      intro s0 s1 hs0 hs1
      have := depth_part hs0
      have := depth_part hs1
      exact ih (by omega) (every_part h0 hs0) (every_part h1 hs1)
    cases h with
    | refl => simp [sameType_refl]
    | literal h =>
      have hlit := isLiteral_of_isLitSubtype h
      cases t1 <;> simp only [isLiteral, Bool.false_eq_true] at hlit <;>
        simp [-isLitSubtype, h]
    | @unionRight _ types hlit h =>
      refine typeCheckStep_unionRight h0 hlit fun ti hti => ⟨h ti hti, ?_⟩
      have := depth_part (t := .union types) hti
      exact ih (by omega) h0 (every_part h1 hti) (h ti hti)
    | @unionLeft _ ti before after hlit hunion hbefore h =>
      have hti : ti ∈ parts (.union (before ++ ti :: after)) := mem_append_cons_self
      have := depth_part hti
      have hsuper := unionHasSuper_of_split before after hbefore h.tagOf_eq
        (ih (by omega) (every_part h0 hti) h1 h)
      unfold typeCheckStep
      split
      · rfl
      rw [if_neg (by simp [-isAny, not_isAny h1])]
      cases t1 with
      | union => cases hunion
      | inter => cases h1
      | intLit | strLit | boolLit => cases hlit
      | _ => exact hsuper
    | tagged tag h =>
      have harg := hpart (.head _) (.head _) h
      simp [checkShapes, harg]
    | array h =>
      have harg := hpart (.head _) (.head _) h
      simp [checkShapes, typeArg, harg]

/-- The check decides the order on types that are not too deep. -/
lemma typeCheck_iff_sub (h0 : isBasic t0) (h1 : isBasic t1)
    (hd : depth t0 + depth t1 < 65) : typeCheck W t0 t1 ↔ Sub t0 t1 :=
  ⟨sub_of_typeCheckX hd h0 h1, typeCheckX_of_sub hd h0 h1⟩

end Agree

section Above

/-- The order with unions as upper bounds: a union is above what one of its members is
above, and below what is above all of them. -/
inductive Above : Typ → Typ → Prop where
  | refl (t : Typ) : Above t t
  | literal {t0 t1 : Typ} (h : isLitSubtype t0 t1) : Above t0 t1
  | unionRight {t0 : Typ} {types : List Typ} (h : ∀ ti ∈ types, Above t0 ti) :
      Above t0 (.union types)
  | unionLeft {t1 ti : Typ} {types : List Typ} (hti : ti ∈ types) (h : Above ti t1) :
      Above (.union types) t1
  | tagged (tag : Nat) {arg arg' : Typ} (h : Above arg arg') :
      Above (.tagged tag arg) (.tagged tag arg')
  | array {arg arg' : Typ} (h : Above arg arg') :
      Above (.object .array [arg]) (.object .array [arg'])

variable {t0 t1 : Typ}

lemma Above.member {t : Typ} (ht : t ∈ types) : Above (.union types) t := .unionLeft ht (.refl t)

lemma Above.trans {a b c : Typ} (hab : Above a b) (hbc : Above b c) : Above a c := by
  obtain ⟨d, hd⟩ : ∃ d, depth a + depth b + depth c < d := ⟨_, Nat.lt_succ_self _⟩
  induction d generalizing a b c with
  | zero => omega
  | succ d ih =>
    have hright : ∀ {types'}, c = .union types' → (∀ ti ∈ types', Above b ti) →
        Above a c := by
      rintro types' rfl h
      refine .unionRight fun ti hti => ?_
      have := depth_part (t := .union types') hti
      exact ih hab (h ti hti) (by omega)
    cases hab with
    | refl => exact hbc
    | @unionLeft _ ti types hti h =>
      have := depth_part (t := .union types) hti
      exact .unionLeft hti (ih h hbc (by omega))
    | @unionRight _ types hall =>
      cases hbc with
      | refl => exact .unionRight hall
      | literal h => cases c <;> simp at h
      | unionRight h => exact hright rfl h
      | @unionLeft _ ti _ hti h =>
        have := depth_part (t := .union types) hti
        exact ih (hall ti hti) h (by omega)
    | literal hlit =>
      cases hbc with
      | refl => exact .literal hlit
      | literal h =>
        rw [← eq_of_isLitSubtype (isLiteral_of_isLitSubtype hlit) h]
        exact .literal hlit
      | unionRight h => exact hright rfl h
      | _ => cases a <;> simp at hlit
    | @tagged tag arg arg' hsub =>
      cases hbc with
      | refl => exact .tagged tag hsub
      | literal h => cases c <;> simp at h
      | unionRight h => exact hright rfl h
      | tagged _ h =>
        simp only [depth] at hd
        exact .tagged tag (ih hsub h (by omega))
    | @array arg arg' hsub =>
      cases hbc with
      | refl => exact .array hsub
      | literal h => cases c <;> simp at h
      | unionRight h => exact hright rfl h
      | array h =>
        simp only [depth, depths] at hd
        exact .array (ih hsub h (by omega))

/-- What the shortcuts leave of the order, for a pair of it: no literal of `c` meets a union
of `a` and no literal of `a` a union of `c`, on the way through members of `a` that are above
`c` and not behind another member with the tag of `c`. -/
inductive Clear : Typ → Typ → Prop where
  | same (t : Typ) : Clear t t
  | literal {a c : Typ} (hc : isLiteral c) (ha : isUnion a = false) : Clear a c
  | unionRight {a : Typ} {types : List Typ} (ha : isLiteral a = false)
      (h : ∀ t ∈ types, Clear a t) : Clear a (.union types)
  | unionLeft {t c : Typ} {before after : List Typ} (hc : isLiteral c = false)
      (hunion : isUnion c = false) (hbefore : ∀ s ∈ before, tagOf s = none ∨ tagOf s ≠ tagOf c)
      (habove : Above t c) (h : Clear t c) : Clear (.union (before ++ t :: after)) c
  | inside {a c : Typ} (ha : isUnion a = false) (hc : isUnion c = false)
      (h : ∀ t ∈ parts a, ∀ t' ∈ parts c, Clear t t') : Clear a c

lemma Sub.above (h : Sub t0 t1) : Above t0 t1 := by
  induction h with
  | refl t => exact .refl t
  | literal h => exact .literal h
  | unionRight _ _ ih => exact .unionRight ih
  | unionLeft _ _ _ _ ih => exact .unionLeft mem_append_cons_self ih
  | tagged tag _ ih => exact .tagged tag ih
  | array _ ih => exact .array ih

lemma Sub.clear (h : Sub t0 t1) : Clear t0 t1 := by
  induction h with
  | refl t => exact .same t
  | @literal t0 t1 h =>
    refine .literal (isLiteral_of_isLitSubtype h) ?_
    cases t0 <;> first | rfl | (cases t1 <;> simp at h)
  | unionRight hlit _ ih => exact .unionRight hlit ih
  | unionLeft hlit hunion hbefore h ih => exact .unionLeft hlit hunion hbefore h.above ih
  | tagged _ _ ih | array _ ih =>
    refine .inside rfl rfl fun t ht t' ht' => ?_
    rwa [mem_singleton.mp ht, mem_singleton.mp ht']

lemma Clear.sub (h : Clear t0 t1) (habove : Above t0 t1) : Sub t0 t1 := by
  induction h with
  | same t => exact .refl t
  | literal hc ha =>
    cases habove with
    | refl => exact .refl _
    | literal h => exact .literal h
    | unionLeft => cases ha
    | _ => cases hc
  | unionRight ha _ ih => exact .unionRight ha fun t ht => ih t ht (habove.trans (.member ht))
  | unionLeft hc hunion hbefore ht _ ih => exact .unionLeft hc hunion hbefore (ih ht)
  | inside ha hc _ ih =>
    cases habove with
    | refl => exact .refl _
    | literal h => exact .literal h
    | unionLeft => cases ha
    | unionRight => cases hc
    | tagged tag h => exact .tagged tag (ih _ (.head _) _ (.head _) h)
    | array h => exact .array (ih _ (.head _) _ (.head _) h)

/-- On a pair of the order the check accepts just what is not hidden. -/
lemma typeCheck_iff_clear {W : World} (h0 : isBasic t0) (h1 : isBasic t1)
    (hd : depth t0 + depth t1 < 65) (habove : Above t0 t1) : typeCheck W t0 t1 ↔ Clear t0 t1 := by
  rw [typeCheck_iff_sub h0 h1 hd]
  exact ⟨Sub.clear, fun h => h.sub habove⟩

end Above

end TyLang.Types
