import Mathlib

/-!
Types of integers in `src/types.c`: literals and ranges. `IsLitSubtype` compares them when a
program is compiled, `TypeCheck` tests integers against them when it runs.

A type is a `struct` with a `union`, in which the value `z` of a literal and the pointer `lo` of
a range share their place. In the comparison of a range with a literal, `z` of the range is read.
-/
namespace TyLang.Ranges

abbrev Word := BitVec 64

/-- A literal type that is a bound of a range, with its address. -/
structure Bound where
  address : Word
  z : Word
  not_null : address ≠ 0

inductive IntType where
  | int (z : Word)
  | range (lo hi : Option Bound)

namespace IntType

/-- The field `z` of the `union`. -/
def fieldZ : IntType → Word
  | .int z => z
  | .range none _ => 0
  | .range (some lo) _ => lo.address

def rangeLow : Option Bound → Word
  | none => 0
  | some lo => lo.z

def rangeHigh : Option Bound → Word
  | none => BitVec.intMax 64
  | some hi => hi.z

def isLitSubtype : IntType → IntType → Bool
  | .int z, .int z' => z = z'
  | .range lo hi, .int z => (rangeLow lo).sle z && (fieldZ (.range lo hi)).sle (rangeHigh hi)
  | .int z, .range lo hi => rangeLow lo = z && rangeHigh hi = z
  | .range lo hi, .range lo' hi' =>
    (rangeLow lo).sle (rangeLow lo') && (rangeHigh hi').sle (rangeHigh hi)

/-- `TypeCheck`, for an integer. -/
def typeCheck : IntType → Word → Bool
  | .int z, v => v = z
  | .range lo hi, v => (rangeLow lo).sle v && v.sle (rangeHigh hi)

def NonEmpty : IntType → Prop
  | .int _ => True
  | .range lo hi => (rangeLow lo).sle (rangeHigh hi)

/-- A range and a literal behind its lower bound, for which the upper bound does not compare
with the pointer to the lower one as it does with the literal. -/
def Confused : IntType → IntType → Prop
  | .range lo hi, .int z =>
    (rangeLow lo).sle z ∧
      ¬ ((fieldZ (.range lo hi)).sle (rangeHigh hi) ↔ z.sle (rangeHigh hi))
  | _, _ => False

section Subsets

lemma sle_refl (a : Word) : a.sle a := by
  rw [BitVec.sle_iff_toInt_le]

lemma sle_trans {a b c : Word} (h : a.sle b) (h' : b.sle c) : a.sle c := by
  rw [BitVec.sle_iff_toInt_le] at *
  exact Int.le_trans h h'

lemma eq_of_sle {a b : Word} (h : a.sle b) (h' : b.sle a) : a = b := by
  rw [BitVec.sle_iff_toInt_le] at *
  exact BitVec.eq_of_toInt_eq (Int.le_antisymm h h')

lemma typeCheck_int {z v : Word} : typeCheck (.int z) v ↔ v = z := by
  rw [typeCheck, decide_eq_true_iff]

lemma typeCheck_range {lo hi : Option Bound} {v : Word} :
    typeCheck (.range lo hi) v ↔ (rangeLow lo).sle v ∧ v.sle (rangeHigh hi) := by
  rw [typeCheck, Bool.and_eq_true]

lemma subset_range_iff {s : IntType} {lo hi : Option Bound} (h : NonEmpty (.range lo hi)) :
    (∀ v, typeCheck (.range lo hi) v → typeCheck s v) ↔
      typeCheck s (rangeLow lo) ∧ typeCheck s (rangeHigh hi) ∧
        (∀ z, s = .int z → rangeLow lo = rangeHigh hi) := by
  constructor
  · intro hsub
    have hlo := hsub _ (typeCheck_range.mpr ⟨sle_refl _, h⟩)
    have hhi := hsub _ (typeCheck_range.mpr ⟨h, sle_refl _⟩)
    refine ⟨hlo, hhi, ?_⟩
    rintro z rfl
    rw [typeCheck_int.mp hlo, typeCheck_int.mp hhi]
  · rintro ⟨hlo, hhi, hone⟩ v hv
    obtain ⟨hv, hv'⟩ := typeCheck_range.mp hv
    cases s with
    | int z =>
      rw [← hone z rfl] at hv'
      rwa [← eq_of_sle hv hv']
    | range lo' hi' =>
      exact typeCheck_range.mpr ⟨sle_trans (typeCheck_range.mp hlo).1 hv,
        sle_trans hv' (typeCheck_range.mp hhi).2⟩

end Subsets

theorem isLitSubtype_iff_subset_iff (s t : IntType) (ht : t.NonEmpty) :
    (isLitSubtype s t ↔ ∀ v, typeCheck t v → typeCheck s v) ↔
      ¬ Confused s t := by
  match s, t with
  | .int z, .int z' =>
    simp only [isLitSubtype, typeCheck_int, forall_eq, decide_eq_true_iff, Confused,
      not_false_eq_true, iff_true]
    exact eq_comm
  | .range lo hi, .int z =>
    simp only [isLitSubtype, typeCheck_int, forall_eq, typeCheck_range, Confused, Bool.and_eq_true]
    tauto
  | .int z, .range lo hi =>
    rw [subset_range_iff ht]
    simp only [isLitSubtype, typeCheck_int, Bool.and_eq_true, decide_eq_true_iff, Confused,
      not_false_eq_true, iff_true]
    exact ⟨fun ⟨hlo, hhi⟩ => ⟨hlo, hhi, fun _ _ => hlo.trans hhi.symm⟩,
      fun ⟨hlo, hhi, _⟩ => ⟨hlo, hhi⟩⟩
  | .range lo hi, .range lo' hi' =>
    rw [subset_range_iff ht]
    simp only [isLitSubtype, typeCheck_range, Bool.and_eq_true, Confused, not_false_eq_true,
      iff_true]
    constructor
    · rintro ⟨hlo, hhi⟩
      exact ⟨⟨hlo, sle_trans ht hhi⟩, ⟨sle_trans hlo ht, hhi⟩, nofun⟩
    · rintro ⟨⟨hlo, -⟩, ⟨-, hhi⟩, -⟩
      exact ⟨hlo, hhi⟩

def boundAt (z : Word) : Bound := ⟨0x55D0C0DE1000, z, by decide⟩

theorem isLitSubtype_ranges :
    isLitSubtype (.range none (some (boundAt 10))) (.range (some (boundAt 2)) (some (boundAt 5)))
        ↔
      ∀ v, typeCheck (.range (some (boundAt 2)) (some (boundAt 5))) v →
        typeCheck (.range none (some (boundAt 10))) v :=
  (isLitSubtype_iff_subset_iff _ _ (show NonEmpty (.range (some (boundAt 2)) (some (boundAt 5))) by
      unfold NonEmpty
      decide)).mpr id

/-- `5` is not found to be in `0..10`, and `100` is found to be in `..10`. -/
theorem isLitSubtype_confused :
    isLitSubtype (.range (some (boundAt 0)) (some (boundAt 10))) (.int 5) = false ∧
      typeCheck (.range (some (boundAt 0)) (some (boundAt 10))) 5 ∧
      isLitSubtype (.range none (some (boundAt 10))) (.int 100) ∧
      typeCheck (.range none (some (boundAt 10))) 100 = false := by
  decide

end IntType

end TyLang.Ranges
