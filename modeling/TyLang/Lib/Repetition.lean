import Mathlib

/-!
A list that is repeated, and cut.
-/
namespace TyLang.Repetition
open List

variable {α : Type} {p : List α} {i j n : Nat}

lemma length_flatten_replicate (j : Nat) (p : List α) :
    (replicate j p).flatten.length = j * p.length := by
  simp

lemma getElem?_flatten_replicate (j : Nat) (hi : i < j * p.length) :
    (replicate j p).flatten[i]? = p[i % p.length]? := by
  induction j generalizing i with
  | zero => omega
  | succ j ih =>
    rw [Nat.succ_mul] at hi
    rw [replicate_succ, flatten_cons]
    by_cases hlt : i < p.length
    · rw [getElem?_append_left hlt, Nat.mod_eq_of_lt hlt]
    · rw [getElem?_append_right (by omega), ih (by omega), ← Nat.mod_eq_sub_mod (by omega)]

/-- The first items of the repeated list. -/
def repeated (p : List α) (n : Nat) : List α := (replicate n p).flatten.take n

lemma length_repeated (hp : p ≠ []) (n : Nat) : (repeated p n).length = n := by
  have hpos := length_pos_iff.mpr hp
  have hle := Nat.le_mul_of_pos_right n hpos
  rw [repeated, length_take, length_flatten_replicate, Nat.min_eq_left hle]

lemma getElem?_repeated (hp : p ≠ []) (hi : i < n) : (repeated p n)[i]? = p[i % p.length]? := by
  have hpos := length_pos_iff.mpr hp
  have hle := Nat.le_mul_of_pos_right n hpos
  rw [repeated, getElem?_take_of_lt hi, getElem?_flatten_replicate n (by omega)]

lemma eq_repeated {l : List α} (hp : p ≠ []) (h : ∀ i < l.length, l[i]? = p[i % p.length]?) :
    l = repeated p l.length := by
  refine ext_getElem? fun i => ?_
  by_cases hi : i < l.length
  · rw [h i hi, getElem?_repeated hp hi]
  · rw [getElem?_eq_none (by omega), getElem?_eq_none (by rw [length_repeated hp]; omega)]

lemma repeated_of_lt (hp : p ≠ []) (hn : n < p.length) : repeated p n = p.take n := by
  have hlen : (p.take n).length = n := length_take_of_le (Nat.le_of_lt hn)
  have heq := eq_repeated (l := p.take n) hp fun i hi => by
    rw [hlen] at hi
    rw [getElem?_take_of_lt hi, Nat.mod_eq_of_lt (by omega)]
  rw [hlen] at heq
  exact heq.symm

lemma repeated_of_le (hp : p ≠ []) (hn : p.length ≤ n) :
    repeated p n = p ++ repeated p (n - p.length) := by
  have hlen : (p ++ repeated p (n - p.length)).length = n := by
    rw [length_append, length_repeated hp]
    omega
  have heq := eq_repeated (l := p ++ repeated p (n - p.length)) hp fun i hi => by
    rw [hlen] at hi
    by_cases hlt : i < p.length
    · rw [getElem?_append_left hlt, Nat.mod_eq_of_lt hlt]
    · rw [getElem?_append_right (by omega), getElem?_repeated hp (by omega),
        ← Nat.mod_eq_sub_mod (by omega)]
  rw [hlen] at heq
  exact heq.symm

end TyLang.Repetition
