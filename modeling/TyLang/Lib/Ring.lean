import TyLang.Lib.Cyclic

/-!
Sequences in a block of cells that goes round at its end. A cell that was never written
has no value.
-/
namespace TyLang.Ring

open List Cyclic

variable {α : Type} {cells : List (Option α)} {head : Nat} {xs : List α} {x : α}

/-- The sequence is in the cells from `head` on. -/
def Holds (cells : List (Option α)) (head : Nat) (xs : List α) : Prop :=
  ∀ (i : Nat) (x : α), xs[i]? = some x → cells[(head + i) % cells.length]? = some (some x)

lemma Holds.nil : Holds cells head [] := nofun

lemma mod_injOn {n a i j : Nat} (ha : a < n) (hi : i < n) (hj : j < n)
    (h : (a + i) % n = (a + j) % n) : i = j := by
  rw [mod_of_lt_two_mul (by omega), mod_of_lt_two_mul (by omega)] at h
  split at h <;> split at h <;> omega

lemma Holds.set (h : Holds cells head xs) (hhead : head < cells.length) {k : Nat}
    (hk : k < cells.length) (hlen : xs.length ≤ k) (y : Option α) :
    Holds (cells.set ((head + k) % cells.length) y) head xs := by
  intro i x hx
  have hi : i < xs.length := (List.getElem?_eq_some_iff.mp hx).1
  have hne : (head + k) % cells.length ≠ (head + i) % cells.length := fun heq => by
    have := mod_injOn hhead hk (by omega) heq
    omega
  rw [length_set, getElem?_set_ne hne]
  exact h i x hx

lemma Holds.snoc (h : Holds cells head xs) (hhead : head < cells.length)
    (hlen : xs.length < cells.length) (x : α) :
    Holds (cells.set ((head + xs.length) % cells.length) (some x)) head (xs ++ [x]) := by
  intro i y hy
  have hset := h.set hhead hlen .refl (some x)
  by_cases hi : i < xs.length
  · rw [getElem?_append_left hi] at hy
    exact hset i y hy
  have hlt := (List.getElem?_eq_some_iff.mp hy).1
  rw [length_append, length_singleton] at hlt
  obtain rfl : i = xs.length := by omega
  rw [getElem?_concat_length] at hy
  cases hy
  rw [length_set, getElem?_set_self (Nat.mod_lt _ (by omega))]

lemma mod_pred {n a : Nat} (ha : a < n) : ((a + n - 1) % n + 1) % n = a := by
  rw [Nat.mod_add_mod, Nat.sub_add_cancel (by omega), Nat.add_mod_right, Nat.mod_eq_of_lt ha]

lemma mod_succ {n a : Nat} (ha : a < n) : ((a + 1) % n + n - 1) % n = a := by
  rw [Nat.add_sub_assoc (by omega), Nat.mod_add_mod, Nat.add_assoc, Nat.add_sub_cancel' (by omega),
    Nat.add_mod_right, Nat.mod_eq_of_lt ha]

lemma Holds.cons (h : Holds cells head xs) (hhead : head < cells.length)
    (hlen : xs.length < cells.length) (x : α) :
    Holds (cells.set ((head + cells.length - 1) % cells.length) (some x))
      ((head + cells.length - 1) % cells.length) (x :: xs) := by
  have hpos : (head + cells.length - 1) % cells.length < cells.length := Nat.mod_lt _ (by omega)
  have hback : (head + (cells.length - 1)) % cells.length =
      (head + cells.length - 1) % cells.length := by
    rw [Nat.add_sub_assoc (by omega)]
  have hset := h.set hhead (Nat.sub_lt (by omega) Nat.one_pos) (by omega) (some x)
  rw [hback] at hset
  intro i y hy
  cases i with
  | zero =>
    cases hy
    rw [length_set, Nat.add_zero, Nat.mod_eq_of_lt hpos, getElem?_set_self hpos]
  | succ i =>
    have hi := hset i y hy
    rw [length_set] at hi ⊢
    have hstep : ((head + cells.length - 1) % cells.length + (i + 1)) % cells.length =
        (head + i) % cells.length := by
      rw [← Nat.add_assoc, Nat.add_right_comm, ← Nat.mod_add_mod, mod_pred hhead]
    rwa [hstep]

lemma Holds.first (h : Holds cells head (x :: xs)) (hhead : head < cells.length) :
    cells[head]? = some (some x) := by
  have := h 0 x rfl
  rwa [Nat.add_zero, Nat.mod_eq_of_lt hhead] at this

lemma Holds.tail (h : Holds cells head (x :: xs)) :
    Holds cells ((head + 1) % cells.length) xs := by
  intro i y hy
  have := h (i + 1) y hy
  rwa [Nat.mod_add_mod, Nat.add_assoc, Nat.add_comm 1 i]

lemma Holds.init (h : Holds cells head (xs ++ [x])) : Holds cells head xs := by
  intro i y hy
  exact h i y (by rwa [List.getElem?_append_left (List.getElem?_eq_some_iff.mp hy).1])

lemma Holds.last (h : Holds cells head (xs ++ [x])) :
    cells[(head + xs.length) % cells.length]? = some (some x) :=
  h xs.length x getElem?_concat_length

end TyLang.Ring
