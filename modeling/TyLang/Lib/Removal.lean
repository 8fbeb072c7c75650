import Mathlib

/-!
Items are removed from a list on the way through it: one that is to go is swapped with
the last item of what is left, and the way goes on behind the place where it was. So the
item that has come from the end is not looked at.
-/
namespace TyLang
open List

/-- What is kept of a list, and what is removed from it, in the order in which it stands
behind the end. -/
inductive Removes {α : Type} (p : α → Bool) : List α → List α → List α → Prop
  | nil : Removes p [] [] []
  | keep {a : α} {l kept removed : List α} : p a = false → Removes p l kept removed →
      Removes p (a :: l) (a :: kept) removed
  | last {a : α} : p a → Removes p [a] [] [a]
  | swap {a b : α} {l kept removed : List α} : p a → Removes p l kept removed →
      Removes p (a :: (l ++ [b])) (b :: kept) (removed ++ [a])

namespace Removes

variable {α : Type} {p q : α → Bool} {l kept removed : List α}

section
variable (h : Removes p l kept removed)
include h

lemma congr (hpq : ∀ a ∈ l, p a = q a) : Removes q l kept removed := by
  induction h with
  | nil => exact .nil
  | keep hp _ ih =>
    refine .keep (hpq _ (.head _) ▸ hp) (ih fun a ha => ?_)
    exact hpq a (.tail _ ha)
  | last hp => exact .last (hpq _ (.head _) ▸ hp)
  | swap hp _ ih =>
    refine .swap (hpq _ (.head _) ▸ hp) (ih fun a ha => ?_)
    exact hpq a (.tail _ (mem_append_left _ ha))

lemma perm : l.Perm (kept ++ removed) := by
  induction h with
  | nil => exact .refl _
  | keep _ _ ih => exact ih.cons _
  | last => exact .refl _
  | @swap a b l kept removed _ _ ih =>
    calc (a :: (l ++ [b])).Perm (a :: b :: l) := (perm_append_singleton b l).cons a
      _ |>.Perm (a :: b :: (kept ++ removed)) := (ih.cons b).cons a
      _ |>.Perm (b :: a :: (kept ++ removed)) := .swap b a _
      _ |>.Perm (b :: (kept ++ removed ++ [a])) := (perm_append_singleton a _).symm.cons b
      _ |>.Perm (b :: kept ++ (removed ++ [a])) := by
        rw [cons_append, append_assoc]

lemma of_mem_removed {a : α} (ha : a ∈ removed) : p a := by
  induction h with
  | nil => cases ha
  | keep _ _ ih => exact ih ha
  | last hp => exact mem_singleton.mp ha ▸ hp
  | swap hp _ ih =>
    rcases mem_append.mp ha with ha | ha
    · exact ih ha
    · exact mem_singleton.mp ha ▸ hp

/-- All that is to go does go exactly if none of it stands among the last items, one less
than there are to go. -/
lemma kept_iff :
    (∀ a ∈ kept, p a = false) ↔ ∀ a ∈ l.drop (l.length + 1 - l.countP p), p a = false := by
  induction h with
  | nil => simp
  | @keep a l kept removed hp _ ih =>
    have hle : l.countP p ≤ l.length := countP_le_length
    have hdrop : (a :: l).length + 1 - (a :: l).countP p = l.length + 1 - l.countP p + 1 := by
      rw [countP_cons_of_neg (by simp [hp]), length_cons]
      omega
    rw [hdrop, drop_succ_cons, ← ih, forall_mem_cons]
    exact and_iff_right hp
  | last hp => simp [hp]
  | @swap a b l kept removed hp _ ih =>
    rw [forall_mem_cons, ih, countP_cons_of_pos hp, countP_append, length_cons, length_append]
    have hle : l.countP p ≤ l.length := countP_le_length
    cases hb : p b with
    | true =>
      refine iff_of_false (fun hkept => by cases hkept.1) fun hlast => ?_
      have hmem : b ∈ (a :: (l ++ [b])).drop
          (l.length + [b].length + 1 + 1 - (l.countP p + [b].countP p + 1)) := by
        rw [countP_singleton, hb, if_pos rfl, length_singleton, ← cons_append,
          drop_append_of_le_length (by rw [length_cons]; omega)]
        exact mem_append_right _ (.head _)
      exact absurd (hlast b hmem) (by simp [hb])
    | false =>
      have hdrop : l.length + [b].length + 1 + 1 - (l.countP p + [b].countP p + 1) =
          l.length + 1 - l.countP p + 1 := by
        rw [countP_singleton, hb, length_singleton]
        simp only [Bool.false_eq_true, if_false]
        omega
      rw [hdrop, drop_succ_cons]
      by_cases hzero : l.countP p = 0
      · rw [hzero, drop_eq_nil_of_le (by omega), drop_eq_nil_of_le (by simp)]
        simp
      · rw [drop_append_of_le_length (by omega), forall_mem_append]
        simp [hb]

end

end Removes

end TyLang
