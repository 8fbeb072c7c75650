import Mathlib

/-!
Integers that are kept in the 32-bit type `int` of C.
-/
namespace TyLang.CInt

def toInt (z : Int) : Int := Int.bmod z (2 ^ 32)

def IsInt (z : Int) : Prop := -2 ^ 31 ≤ z ∧ z < 2 ^ 31

lemma toInt_of_isInt {z : Int} (h : IsInt z) : toInt z = z := by
  obtain ⟨hlo, hhi⟩ := h
  unfold toInt
  rw [Int.bmod_eq_of_le] <;> omega

lemma toInt_of_ge {z : Int} (h : 2 ^ 31 ≤ z) (hlt : z < 2 ^ 32) : toInt z = z - 2 ^ 32 := by
  rw [toInt, Int.bmod_eq_iff (by decide)]
  omega

lemma toInt_le {z : Int} (h : 0 ≤ z) : toInt z ≤ z := by
  rw [toInt, Int.bmod_def]
  split <;> omega

lemma toInt_toInt_add (a b : Int) : toInt (toInt a + b) = toInt (a + b) :=
  Int.bmod_add_bmod

lemma isInt_toInt (z : Int) : IsInt (toInt z) := by
  have hle := Int.le_bmod (x := z) (m := 2 ^ 32) (by decide)
  have hlt := Int.bmod_lt (x := z) (m := 2 ^ 32) (by decide)
  unfold IsInt toInt
  omega

end TyLang.CInt
