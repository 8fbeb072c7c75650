import Mathlib

/-!
Distances and paths on a ring of `n` slots, the geometry of open addressing
with linear probing. Nothing here mentions a table: a path is a statement that
every slot met on the way satisfies a given property.
-/
namespace TyLang.Cyclic

/-- Number of forward steps from slot `a` to slot `b`. -/
def ahead (n a b : Nat) : Nat := (b + n - a) % n

/-- Every slot from `a` inclusive to `b` exclusive, going forward, satisfies `P`. -/
def Stretch (n : Nat) (P : Nat → Prop) (a b : Nat) : Prop :=
  ∀ s, s < ahead n a b → P ((a + s) % n)

lemma mod_of_lt_two_mul {n x : Nat} (h : x < 2 * n) : x % n = if x < n then x else x - n := by
  split
  next hx => exact Nat.mod_eq_of_lt hx
  next hx =>
    rw [Nat.mod_eq_sub_mod (by omega)]
    exact Nat.mod_eq_of_lt (by omega)

variable {n a b : Nat}

lemma ahead_eq (ha : a < n) (hb : b < n) : ahead n a b = if a ≤ b then b - a else b + n - a := by
  unfold ahead
  rw [mod_of_lt_two_mul (by omega)]
  split <;> split <;> omega

lemma ahead_lt (ha : a < n) (hb : b < n) : ahead n a b < n := by
  rw [ahead_eq ha hb]
  split <;> omega

lemma ahead_self {n a : Nat} (ha : a < n) : ahead n a a = 0 := by
  rw [ahead_eq ha ha]
  simp

lemma add_ahead (ha : a < n) (hb : b < n) : (a + ahead n a b) % n = b := by
  have hd := ahead_lt ha hb
  rw [mod_of_lt_two_mul (by omega), ahead_eq ha hb]
  split <;> split <;> omega

lemma ahead_add {n a s : Nat} (ha : a < n) (hs : s < n) : ahead n a ((a + s) % n) = s := by
  rw [mod_of_lt_two_mul (by omega)]
  split
  next h => rw [ahead_eq ha h]; split <;> omega
  next h => rw [ahead_eq ha (by omega)]; split <;> omega

section
variable {n a b : Nat} (ha : a < n) (hb : b < n)
include ha hb

lemma eq_of_ahead_eq_zero (h : ahead n a b = 0) : a = b := by
  have := add_ahead ha hb
  rwa [h, Nat.add_zero, Nat.mod_eq_of_lt ha] at this

lemma ahead_succ :
    ahead n a ((b + 1) % n) =
      if ahead n a b + 1 = n then 0 else ahead n a b + 1 := by
  rw [mod_of_lt_two_mul (by omega)]
  have hd := ahead_eq ha hb
  split
  next h =>
    rw [ahead_eq ha h]
    split at hd <;> split <;> split <;> omega
  next h =>
    rw [ahead_eq ha (by omega)]
    split at hd <;> split <;> split <;> omega

lemma ahead_succ_left (hab : a ≠ b) : ahead n ((a + 1) % n) b + 1 = ahead n a b := by
  rw [mod_of_lt_two_mul (by omega)]
  have hd := ahead_eq ha hb
  split
  next h =>
    rw [ahead_eq h hb]
    split at hd <;> split <;> omega
  next h =>
    rw [ahead_eq (by omega) hb]
    split at hd <;> split <;> omega

end

lemma ahead_succ_self {n a : Nat} (ha : a < n) : ahead n ((a + 1) % n) a + 1 = n := by
  rw [mod_of_lt_two_mul (by omega)]
  split
  next h => rw [ahead_eq h ha]; split <;> omega
  next h => rw [ahead_eq (by omega) ha]; split <;> omega

lemma ahead_inj {n a b c : Nat} (ha : a < n) (hb : b < n) (hc : c < n)
    (h : ahead n a b = ahead n a c) : b = c := by
  rw [← add_ahead ha hb, ← add_ahead ha hc, h]

section Paths
variable {n : Nat} {P Q : Nat → Prop} {a b c : Nat}

lemma Stretch.refl (ha : a < n) : Stretch n P a a := by
  intro s hs
  rw [ahead_self ha] at hs
  omega

lemma Stretch.mono (h : Stretch n P a b) (hPQ : ∀ i, P i → Q i) : Stretch n Q a b :=
  fun s hs => hPQ _ (h s hs)

lemma Stretch.snoc (ha : a < n) (hb : b < n) (h : Stretch n P a b) (hP : P b) :
    Stretch n P a ((b + 1) % n) := by
  intro s hs
  rw [ahead_succ ha hb] at hs
  split at hs
  · omega
  by_cases hlt : s < ahead n a b
  · exact h s hlt
  · have hs' : s = ahead n a b := by omega
    rwa [hs', add_ahead ha hb]

lemma Stretch.tail (ha : a < n) (hb : b < n) (hab : a ≠ b) (h : Stretch n P a b) :
    Stretch n P ((a + 1) % n) b := by
  intro s hs
  have hd := ahead_succ_left ha hb hab
  have hP := h (s + 1) (by omega)
  rw [Nat.mod_add_mod]
  rwa [Nat.add_assoc, Nat.add_comm 1 s]

lemma Stretch.head (ha : a < n) (hb : b < n) (hab : a ≠ b) (h : Stretch n P a b) : P a := by
  have hd := ahead_succ_left ha hb hab
  have hP := h 0 (by omega)
  rwa [Nat.add_zero, Nat.mod_eq_of_lt ha] at hP

/-- The slots of a path in terms of their own distance from the start. -/
lemma Stretch.at (ha : a < n) (hc : c < n) (h : Stretch n P a b)
    (hlt : ahead n a c < ahead n a b) : P c := by
  have hP := h _ hlt
  rwa [add_ahead ha hc] at hP

lemma stretch_of_forall (ha : a < n) (hb : b < n)
    (h : ∀ c, c < n → ahead n a c < ahead n a b → P c) : Stretch n P a b := by
  intro s hs
  have hd := ahead_lt ha hb
  refine h _ (Nat.mod_lt _ (by omega)) ?_
  rwa [ahead_add ha (by omega)]

instance decidableStretch [DecidablePred P] : Decidable (Stretch n P a b) :=
  inferInstanceAs (Decidable (∀ s, s < ahead n a b → P ((a + s) % n)))

end Paths

end TyLang.Cyclic
