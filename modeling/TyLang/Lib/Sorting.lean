import Mathlib

/-!
Sorting by a comparison with integer results, which is a total preorder on the items of a
list only.
-/
namespace TyLang.Sorting
open List

variable {α : Type}

structure Preordered (cmp : α → α → Int) (xs : List α) : Prop where
  sign_swap : ∀ x ∈ xs, ∀ y ∈ xs, (cmp x y).sign = -(cmp y x).sign
  trans : ∀ x ∈ xs, ∀ y ∈ xs, ∀ z ∈ xs, cmp x y ≤ 0 → cmp y z ≤ 0 → cmp x z ≤ 0

namespace Preordered

variable {cmp cmp' : α → α → Int} {xs ys : List α}

lemma mono (h : Preordered cmp xs) (hsub : ∀ x ∈ ys, x ∈ xs) : Preordered cmp ys where
  sign_swap x hx y hy := h.sign_swap x (hsub x hx) y (hsub y hy)
  trans x hx y hy z hz := h.trans x (hsub x hx) y (hsub y hy) z (hsub z hz)

lemma le_zero_iff_of_sign {y z : Int} (h : y.sign = z.sign) : y ≤ 0 ↔ z ≤ 0 := by
  rw [← Int.not_lt, ← Int.not_lt, ← Int.sign_eq_one_iff_pos, ← Int.sign_eq_one_iff_pos, h]

lemma congr_sign (h : Preordered cmp xs)
    (hsign : ∀ x ∈ xs, ∀ y ∈ xs, (cmp' x y).sign = (cmp x y).sign) : Preordered cmp' xs where
  sign_swap x hx y hy := by
    rw [hsign x hx y hy, hsign y hy x hx]
    exact h.sign_swap x hx y hy
  trans x hx y hy z hz := by
    rw [le_zero_iff_of_sign (hsign x hx y hy), le_zero_iff_of_sign (hsign y hy z hz),
      le_zero_iff_of_sign (hsign x hx z hz)]
    exact h.trans x hx y hy z hz

section Chains

variable {x y z : α}

section
variable (h : Preordered cmp xs) (hx : x ∈ xs) (hy : y ∈ xs)
include h hx hy

lemma nonpos_iff : cmp x y ≤ 0 ↔ 0 ≤ cmp y x := by
  rw [← Int.sign_nonpos_iff, h.sign_swap x hx y hy, Int.neg_nonpos_iff, Int.sign_nonneg_iff]

lemma neg_iff : cmp x y < 0 ↔ 0 < cmp y x := by
  rw [← Int.not_le, ← Int.not_le, h.nonpos_iff hy hx]

lemma lt_of_lt_of_le (hz : z ∈ xs) (hxy : cmp x y < 0) (hyz : cmp y z ≤ 0) : cmp x z < 0 := by
  have hzx := h.nonpos_iff hz hx
  have hyx := h.neg_iff hx hy
  have := h.trans y hy z hz x hx hyz
  omega

lemma lt_of_le_of_lt (hz : z ∈ xs) (hxy : cmp x y ≤ 0) (hyz : cmp y z < 0) : cmp x z < 0 := by
  have hzx := h.nonpos_iff hz hx
  have hzy := h.neg_iff hy hz
  have := fun hle => h.trans z hz x hx y hy hle hxy
  omega

end

end Chains

lemma eq_zero (h : Preordered cmp xs) {x : α} (hx : x ∈ xs) : cmp x x = 0 := by
  have hsign := h.sign_swap x hx x hx
  exact Int.sign_eq_zero_iff_zero.mp (by omega)

lemma pairwise_of_isChain (h : Preordered cmp xs)
    (hchain : xs.IsChain fun x y => cmp x y ≤ 0) : xs.Pairwise fun x y => cmp x y ≤ 0 := by
  induction xs with
  | nil => exact .nil
  | cons x xs ih =>
    have htail := ih (h.mono fun _ => mem_cons_of_mem x) hchain.of_cons
    refine pairwise_cons.mpr ⟨?_, htail⟩
    cases xs with
    | nil => exact fun y hy => absurd hy not_mem_nil
    | cons y xs =>
      have hxy := (isChain_cons_cons.mp hchain).1
      intro z hz
      rcases mem_cons.mp hz with rfl | hz'
      · exact hxy
      · have hy : y ∈ x :: y :: xs := by simp
        have hyz := rel_of_pairwise_cons htail hz'
        exact h.trans x (.head _) y hy z (mem_cons_of_mem x hz) hxy hyz

lemma pairwise_orderedInsert {x : α} (h : Preordered cmp (x :: xs))
    (hxs : xs.Pairwise fun x y => cmp x y ≤ 0) :
    (xs.orderedInsert (fun x y => cmp x y ≤ 0) x).Pairwise fun x y => cmp x y ≤ 0 := by
  induction xs with
  | nil => exact pairwise_singleton _ x
  | cons y xs ih =>
    obtain ⟨hy, htail⟩ := pairwise_cons.mp hxs
    have hmem : y ∈ x :: y :: xs := by simp
    rw [orderedInsert_cons]
    split
    next hxy =>
      refine pairwise_cons.mpr ⟨fun z hz => ?_, hxs⟩
      rcases mem_cons.mp hz with rfl | hz'
      · exact hxy
      · exact h.trans x (.head _) y hmem z (mem_cons_of_mem x hz) hxy (hy z hz')
    next hxy =>
      refine pairwise_cons.mpr ⟨fun z hz => ?_, ih (h.mono (by simp; tauto)) htail⟩
      rcases mem_orderedInsert _ |>.mp hz with rfl | hz'
      · exact Int.le_of_lt ((h.neg_iff hmem mem_cons_self).mpr (Int.not_le.mp hxy))
      · exact hy z hz'

lemma pairwise_insertionSort (h : Preordered cmp xs) :
    (xs.insertionSort fun x y => cmp x y ≤ 0).Pairwise fun x y => cmp x y ≤ 0 := by
  induction xs with
  | nil => exact .nil
  | cons x xs ih =>
    rw [insertionSort_cons]
    apply pairwise_orderedInsert
    · refine h.mono fun y hy => ?_
      rwa [mem_cons, mem_insertionSort, ← mem_cons] at hy
    · exact ih (h.mono fun _ => mem_cons_of_mem x)

end Preordered

lemma preordered_int (xs : List Int) : Preordered (fun x y => x - y) xs where
  sign_swap x _ y _ := by rw [← Int.sign_neg, Int.neg_sub]
  trans x _ y _ z _ hxy hyz := by omega

lemma exists_perm_pair {xs : List α} {x y : α} (hx : x ∈ xs) (hy : y ∈ xs) (hne : x ≠ y) :
    ∃ l, (x :: y :: l).Perm xs := by
  classical
  have hy' : y ∈ xs.erase x := (mem_erase_of_ne hne.symm).mpr hy
  refine ⟨(xs.erase x).erase y, Perm.symm ?_⟩
  exact (perm_cons_erase hx).trans ((perm_cons_erase hy').cons x)

end TyLang.Sorting
