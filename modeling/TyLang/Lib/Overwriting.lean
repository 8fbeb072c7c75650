import Mathlib

/-!
A list that is overwritten from its start while it is read: what is written stays behind
what is still to be read.
-/
namespace TyLang.Overwriting
open List

variable {β : Type} {xs items out : List β} {i j : Nat}

/-- The items from `i` on are still those of `xs`, and `out` is written before them. -/
structure Writing (xs items : List β) (i : Nat) (out : List β) : Prop where
  length : items.length = xs.length
  unread : items.drop i = xs.drop i
  written : items.take out.length = out
  behind : out.length ≤ i

lemma writing_start (xs : List β) : Writing xs xs 0 [] := ⟨rfl, rfl, rfl, .refl⟩

lemma Writing.skip (h : Writing xs items i out) (hj : i ≤ j) : Writing xs items j out where
  length := h.length
  unread := by
    rw [show j = i + (j - i) by omega, ← drop_drop, h.unread, drop_drop]
  written := h.written
  behind := Nat.le_trans h.behind hj

lemma Writing.set (h : Writing xs items i out) (v : β) (hi : i < xs.length) (hj : i < j) :
    Writing xs (items.set out.length v) j (out ++ [v]) where
  length := by rw [length_set, h.length]
  unread := by
    have hbehind := h.behind
    rw [drop_set_of_lt (by omega), (h.skip (Nat.le_of_lt hj)).unread]
  written := by
    have hbehind := h.behind
    have hlen := h.length
    rw [length_append, length_singleton, take_succ_eq_append_getElem
      (by rw [length_set]; omega), take_set_of_le .refl, h.written]
    simp
  behind := by
    have hbehind := h.behind
    rw [length_append, length_singleton]
    omega

lemma Writing.getElem? (h : Writing xs items i out) : items[i]? = xs[i]? := by
  rw [← head?_drop, h.unread, head?_drop]

end TyLang.Overwriting
