import TyLang.Types.Check

/-!
What `TypeCheckXD` accepts, one equation for each kind of type. The stack of pairs
that are being checked does not matter here, since a type of finite depth is not
almost the same as one of its parts.
-/
namespace TyLang.Types
open List Typ

lemma any_congr_mem {α : Type} {p q : α → Bool} {xs : List α} (h : ∀ x ∈ xs, p x = q x) :
    xs.any p = xs.any q := by
  rw [Bool.eq_iff_iff, any_eq_true, any_eq_true]
  exact exists_congr fun x => and_congr_right fun hx => by rw [h x hx]

lemma all_congr_mem {α : Type} {p q : α → Bool} {xs : List α} (h : ∀ x ∈ xs, p x = q x) :
    xs.all p = xs.all q := by
  rw [Bool.eq_iff_iff, all_eq_true, all_eq_true]
  exact forall₂_congr fun x hx => by rw [h x hx]

variable {t : Typ}

namespace Typ

def parts : Typ → List Typ
  | .object _ args => args
  | .tuple _ _ types => types
  | .union types => types
  | .inter types => types
  | .tagged _ arg => [arg]
  | _ => []

lemma depth_part {t s : Typ} (hs : s ∈ parts t) : depth s < depth t := by
  cases t with
  | tagged tag arg =>
    rw [mem_singleton.mp hs, depth]
    omega
  | object | tuple | union | inter => exact depth_lt_depths hs
  | _ => cases hs

mutual

def every (P : Typ → Bool) : Typ → Bool
  | .object c args => P (.object c args) && everyOf P args
  | .tuple names required types => P (.tuple names required types) && everyOf P types
  | .union types => P (.union types) && everyOf P types
  | .inter types => P (.inter types) && everyOf P types
  | .tagged tag arg => P (.tagged tag arg) && every P arg
  | t => P t

def everyOf (P : Typ → Bool) : List Typ → Bool
  | [] => true
  | t :: ts => every P t && everyOf P ts

end

lemma everyOf_eq_all (P : Typ → Bool) (ts : List Typ) : everyOf P ts = ts.all (every P) := by
  induction ts with
  | nil => rfl
  | cons t ts ih => rw [everyOf, all_cons, ih]

lemma every_part {P : Typ → Bool} {t s : Typ} (h : every P t) (hs : s ∈ parts t) :
    every P s := by
  cases t with
  | tagged tag arg =>
    rw [every, Bool.and_eq_true] at h
    rw [mem_singleton.mp hs]
    exact h.2
  | object | tuple | union | inter =>
    rw [every, everyOf_eq_all, Bool.and_eq_true, all_eq_true] at h
    exact h.2 s hs
  | _ => cases hs

lemma every_self {P : Typ → Bool} (h : every P t) : P t := by
  cases t with
  | object | tuple | union | inter | tagged =>
    rw [every, Bool.and_eq_true] at h
    exact h.1
  | _ => exact h

mutual

/-- Whether `nil` is accepted. -/
def acceptsNil : Typ → Bool
  | .bottom => true
  | .any => true
  | .nil => true
  | .union types => anyNil types
  | .inter types => allNil types
  | _ => false

def anyNil : List Typ → Bool
  | [] => false
  | t :: ts => acceptsNil t || anyNil ts

def allNil : List Typ → Bool
  | [] => true
  | t :: ts => acceptsNil t && allNil ts

end

lemma anyNil_eq_any (ts : List Typ) : anyNil ts = ts.any acceptsNil := by
  induction ts with
  | nil => rfl
  | cons t ts ih => rw [anyNil, any_cons, ih]

lemma allNil_eq_all (ts : List Typ) : allNil ts = ts.all acceptsNil := by
  induction ts with
  | nil => rfl
  | cons t ts ih => rw [allNil, all_cons, ih]

end Typ

section Decides

variable {check : Typ → Typ → Bool} {t0 : Typ} {types : List Typ}

lemma unionHasSuper_split (h : unionHasSuper check t0 types) :
    ∃ before ti after, types = before ++ ti :: after ∧
      (∀ s ∈ before, tagOf s = none ∨ tagOf s ≠ tagOf t0) ∧ check ti t0 := by
  induction types with
  | nil => simp [unionHasSuper] at h
  | cons t ts ih =>
    have hor : check t t0 ∨
        (tagOf t = none ∨ tagOf t ≠ tagOf t0) ∧ unionHasSuper check t0 ts := by
      unfold unionHasSuper at h
      split at h
      · next tag tag' htag htag' =>
          split at h
          · exact .inl h
          · next hne => exact .inr ⟨.inr (by rw [htag, htag']; simpa using hne), h⟩
      · next hnot =>
          rcases (Bool.or_eq_true ..).mp h with h | h
          · exact .inl h
          · refine .inr ⟨?_, h⟩
            cases htag' : tagOf t with
            | none => exact .inl rfl
            | some tag' => exact .inr fun htag => hnot tag' tag' htag.symm htag'
    rcases hor with h | ⟨hskip, h⟩
    · exact ⟨[], t, ts, rfl, by simp, h⟩
    · obtain ⟨before, ti, after, rfl, hbefore, hcheck⟩ := ih h
      refine ⟨t :: before, ti, after, rfl, fun s hs => ?_, hcheck⟩
      rcases mem_cons.mp hs with rfl | hs
      · exact hskip
      · exact hbefore s hs

/-- A member that is not of the tag does not decide against the type. -/
lemma unionHasSuper_cons {s : Typ} (hs : tagOf s = none ∨ tagOf s ≠ tagOf t0)
    (h : unionHasSuper check t0 types) : unionHasSuper check t0 (s :: types) := by
  rw [unionHasSuper]
  split
  · next tag tag' htag0 htags =>
      have hne : tag' ≠ tag := by
        rcases hs with hs | hs
        · rw [htags] at hs
          cases hs
        · rw [htags, htag0] at hs
          simpa using hs
      rwa [if_neg hne]
  · rw [h, Bool.or_true]

lemma unionHasSuper_of_split (before after : List Typ) {ti : Typ}
    (hbefore : ∀ s ∈ before, tagOf s = none ∨ tagOf s ≠ tagOf t0)
    (htag : tagOf ti ≠ none → tagOf t0 ≠ none → tagOf ti = tagOf t0) (h : check ti t0) :
    unionHasSuper check t0 (before ++ ti :: after) := by
  induction before with
  | nil =>
    rw [nil_append, unionHasSuper]
    split
    · next tag tag' htag0 htagi =>
        have heq := htag (by simp [htagi]) (by simp [htag0])
        rw [htag0, htagi] at heq
        rwa [if_pos (Option.some.inj heq)]
    · rw [h, Bool.true_or]
  | cons s before ih =>
    exact unionHasSuper_cons (hbefore s mem_cons_self)
      (ih fun s hs => hbefore s (.tail _ hs))

lemma forall_of_acceptsUnion (h : acceptsUnion check t0 types) :
    ∀ ti ∈ types, check t0 ti := by
  unfold acceptsUnion at h
  split at h
  · intro ti hti
    have := all_eq_true.mp h ti hti
    exact (Bool.and_eq_true_iff.mp this).2
  · exact all_eq_true.mp h

end Decides

attribute [local simp] guarded typeCheckXD typeCheckStep checkShapes sameType isAny isBottom
  isLiteral acceptsNil

section Nil

variable {W : World}

lemma unionHasSuper_untagged {check : Typ → Typ → Bool} {t0 : Typ} (h : tagOf t0 = none)
    (types : List Typ) : unionHasSuper check t0 types = types.any (check · t0) := by
  induction types with
  | nil => simp [unionHasSuper]
  | cons t ts ih => simp [unionHasSuper, h, ih]

lemma typeCheckX_nil {d : Nat} (hd : depth t < d) : typeCheckX W d t .nil = acceptsNil t := by
  induction d generalizing t with
  | zero => omega
  | succ d ih =>
    rw [typeCheckX]
    have hmem : ∀ {ts : List Typ}, depths ts < d + 1 → ∀ t ∈ ts,
        typeCheckX W d t .nil = acceptsNil t := fun hts t ht =>
      ih (by have := depth_lt_depths ht; omega)
    cases t with
    | union types =>
      have hany : unionHasSuper (typeCheckX W d) .nil types = types.any acceptsNil := by
        rw [unionHasSuper_untagged rfl]
        exact any_congr_mem (hmem hd)
      simp [hany, anyNil_eq_any]
    | inter types =>
      have hall : (types.all fun t => typeCheckX W d t .nil) = types.all acceptsNil :=
        all_congr_mem (hmem hd)
      simp [hall, allNil_eq_all]
    | _ => simp [isLitSubtype]

end Nil

section Stack

variable {W : World} {stack : List Typ}

/-- No type on the stack is taken for a smaller one. -/
lemma guarded_below {v : Value} {body : Bool} (hs : ∀ s ∈ stack, depth t < depth s) :
    guarded W stack t v body = guarded W [] t v body := by
  have hany : stack.any (almostSameType · t) = false := by
    rw [any_eq_false]
    intro s hmem hsame
    have := hs s hmem
    rw [depth_of_almostSameType hsame] at this
    omega
  simp [hany]

lemma anyXD_eq_any (ts : List Typ) (v : Value) :
    anyXD W stack ts v = ts.any fun t => typeCheckXD W stack t v := by
  induction ts with
  | nil => simp [anyXD]
  | cons t ts ih => rw [anyXD, any_cons, ih]

lemma allXD_eq_all (ts : List Typ) (v : Value) :
    allXD W stack ts v = ts.all fun t => typeCheckXD W stack t v := by
  induction ts with
  | nil => simp [allXD]
  | cons t ts ih => rw [allXD, all_cons, ih]

lemma below_cons {t s : Typ} (hs : ∀ s ∈ stack, depth t < depth s) (hpart : s ∈ parts t) :
    ∀ s' ∈ t :: stack, depth s < depth s' := by
  intro s' hmem
  have hlt := depth_part hpart
  rcases mem_cons.mp hmem with rfl | hmem
  · exact hlt
  · exact Nat.lt_trans hlt (hs s' hmem)

/-- The stack does not matter for what is below it. -/
lemma typeCheckXD_below {v : Value} (hs : ∀ s ∈ stack, depth t < depth s) :
    typeCheckXD W stack t v = typeCheckValue W t v := by
  unfold typeCheckValue
  induction t generalizing stack v with
  | union types ih =>
    rw [typeCheckXD, typeCheckXD, guarded_below hs, anyXD_eq_any, anyXD_eq_any,
      any_congr_mem fun t ht => ih t ht (below_cons hs ht),
      any_congr_mem fun t ht => ih t ht (below_cons (t := .union types) (by simp) ht)]
  | inter types ih =>
    rw [typeCheckXD, typeCheckXD, guarded_below hs, allXD_eq_all, allXD_eq_all,
      all_congr_mem fun t ht => ih t ht (below_cons hs ht),
      all_congr_mem fun t ht => ih t ht (below_cons (t := .inter types) (by simp) ht)]
  | _ => rw [typeCheckXD, typeCheckXD, guarded_below hs]

lemma typeCheckXD_part {s : Typ} {v : Value} (hs : s ∈ parts t) :
    typeCheckXD W [t] s v = typeCheckValue W s v :=
  typeCheckXD_below (below_cons nofun hs)

end Stack

section Equations

variable {W : World}

lemma value_nil_of_depth (hd : depth t < 65) : typeCheckValue W t .nil = acceptsNil t := by
  have hnil := typeCheckX_nil (W := W) hd
  cases t <;> simp [typeCheckValue, hnil]

attribute [local simp] typeCheckX

lemma value_any (v : Value) : typeCheckValue W .any v = !isTaggedValue v := by
  cases v <;> simp [typeCheckValue, isTaggedValue]

lemma value_literal (ht : isLiteral t) (v : Value) :
    typeCheckValue W t v = isLiteralValue t v := by
  cases t <;> simp only [isLiteral, Bool.false_eq_true] at ht <;> cases v <;>
    simp [typeCheckValue, isLiteralValue, isLitSubtype]

lemma value_object (c : Cls) (args : List Typ) (v : Value) :
    typeCheckValue W (.object c args) v =
      (hasClass c v && (arrayItems v).all (typeCheckValue W (typeArg args 0))) := by
  have hargs : ∀ items, argXD W args items = items.all (typeCheckValue W (typeArg args 0)) := by
    intro items
    cases args with
    | nil => exact all_congr rfl fun item => (value_any item).symm
    | cons t ts => rfl
  cases v with
  | nil => cases c <;> simp [typeCheckValue, hasClass]
  | _ => simp only [typeCheckValue, typeCheckXD, guarded, hargs, any_nil, Bool.false_or]

lemma value_tagged (tag : Nat) (arg : Typ) (v : Value) :
    typeCheckValue W (.tagged tag arg) v = (unwrap tag v).any (typeCheckValue W arg) := by
  cases v with
  | tagged tag' inner =>
    simp only [typeCheckValue, typeCheckXD, guarded, any_nil, Bool.false_or]
    rfl
  | _ => simp [typeCheckValue, unwrap]

lemma value_union {types : List Typ} (hd : depth (.union types) < 65) (v : Value) :
    typeCheckValue W (.union types) v = types.any (typeCheckValue W · v) := by
  cases v with
  | nil =>
    rw [value_nil_of_depth hd, acceptsNil, anyNil_eq_any]
    exact any_congr_mem fun t ht => (value_nil_of_depth
      (by have := depth_lt_depths ht; rw [depth] at hd; omega)).symm
  | _ =>
    simp only [typeCheckValue, typeCheckXD, guarded, anyXD_eq_any, any_nil, Bool.false_or]
    exact any_congr_mem fun t ht => typeCheckXD_part (t := .union types) ht

end Equations

end TyLang.Types
