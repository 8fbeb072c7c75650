import Mathlib

/-!
Memory as a total function from addresses to cells, written one cell or one
block at a time. What lies outside the cells in use is simply there: a program
that reads it gets whatever it holds.
-/
namespace TyLang.Block

variable {V : Type} (mem src : Nat → V) (a n i : Nat) (v : V)

def store : Nat → V := fun j => if j = a then v else mem j

def blit : Nat → V := fun j => if a ≤ j ∧ j < a + n then src (j - a) else mem j

@[simp] lemma store_self : store mem a v a = v := if_pos rfl

lemma store_of_ne {mem : Nat → V} {a i : Nat} {v : V} (h : i ≠ a) : store mem a v i = mem i :=
  if_neg h

section
variable {mem src : Nat → V} {a n i : Nat}

lemma blit_of_lt (h : i < a) : blit mem src a n i = mem i :=
  if_neg (by omega)

lemma blit_of_le (h : a + n ≤ i) : blit mem src a n i = mem i :=
  if_neg (by omega)

lemma blit_add (h : i < n) : blit mem src a n (a + i) = src i := by
  unfold blit
  rw [if_pos (by omega), Nat.add_sub_cancel_left]

end

end TyLang.Block
