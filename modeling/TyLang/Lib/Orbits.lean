import Mathlib

/-!
Steps of one width around a circle of places. From the places below the greatest common
divisor of the width and the number of places, the steps lead to every place once.
-/
namespace TyLang.Orbits
open List

/-- The place after `m` steps of `d` from `i`. -/
def place (n d i m : Nat) : Nat := (i + m * d) % n

variable {n d i i' m m' : Nat}

lemma place_lt (hn : 0 < n) (i m : Nat) : place n d i m < n := Nat.mod_lt _ hn

lemma place_zero (hi : i < n) : place n d i 0 = i := by
  rw [place, Nat.zero_mul, Nat.add_zero, Nat.mod_eq_of_lt hi]

lemma place_succ (i m : Nat) : place n d i (m + 1) = (place n d i m + d) % n := by
  rw [place, place, Nat.mod_add_mod, Nat.add_one_mul, Nat.add_assoc]

lemma place_round (hi : i < n) : place n d i (n / n.gcd d) = i := by
  have hdvd : n ∣ n / n.gcd d * d := by
    rw [Nat.div_mul_right_comm (Nat.gcd_dvd_left n d), Nat.mul_div_assoc _ (Nat.gcd_dvd_right n d)]
    exact Nat.dvd_mul_right n _
  rw [place, Nat.add_mod, Nat.mod_eq_zero_of_dvd hdvd, Nat.add_zero, Nat.mod_mod,
    Nat.mod_eq_of_lt hi]

lemma eq_of_place_eq (hn : 0 < n) (hi : i < n.gcd d) (hi' : i' < n.gcd d)
    (hm : m < n / n.gcd d) (hm' : m' < n / n.gcd d) (h : place n d i m = place n d i' m') :
    i = i' ∧ m = m' := by
  have hmod : i + m * d ≡ i' + m' * d [MOD n] := h
  -- the width does not matter modulo the greatest common divisor
  have hgcd := hmod.of_dvd (Nat.gcd_dvd_left n d)
  have hstep : ∀ k, k * d ≡ 0 [MOD n.gcd d] := fun k =>
    (Nat.modEq_zero_iff_dvd).mpr (Dvd.dvd.mul_left (Nat.gcd_dvd_right n d) k)
  have hstart : i ≡ i' [MOD n.gcd d] :=
    Nat.ModEq.add_right_cancel ((hstep m).trans (hstep m').symm) hgcd
  obtain rfl : i = i' := hstart.eq_of_lt_of_lt hi hi'
  have hcancel := Nat.ModEq.cancel_right_div_gcd hn (Nat.ModEq.add_left_cancel' i hmod)
  exact ⟨rfl, hcancel.eq_of_lt_of_lt hm hm'⟩

/-- The places from `i` on, up to where one is back. -/
def orbit (n d i : Nat) : List Nat := (List.range (n / n.gcd d)).map (place n d i)

def orbits (n d : Nat) : List Nat := (List.range (n.gcd d)).flatMap (orbit n d)

lemma orbits_nodup (hn : 0 < n) : (orbits n d).Nodup := by
  refine nodup_flatMap.mpr ⟨fun i hi => ?_, nodup_range.imp_of_mem fun {i i'} hi hi' hne => ?_⟩
  · have hi := mem_range.mp hi
    refine Nodup.map_on (fun m hm m' hm' h => ?_) nodup_range
    exact (eq_of_place_eq hn hi hi (mem_range.mp hm) (mem_range.mp hm') h).2
  · intro p hp hp'
    obtain ⟨m, hm, rfl⟩ := mem_map.mp hp
    obtain ⟨m', hm', h⟩ := mem_map.mp hp'
    exact hne (eq_of_place_eq hn (mem_range.mp hi) (mem_range.mp hi')
      (mem_range.mp hm) (mem_range.mp hm') h.symm).1

lemma orbits_perm (hn : 0 < n) : (orbits n d).Perm (List.range n) := by
  have hsub : orbits n d ⊆ range n := by
    intro p hp
    obtain ⟨i, -, hp⟩ := mem_flatMap.mp hp
    obtain ⟨m, -, rfl⟩ := mem_map.mp hp
    exact mem_range.mpr (place_lt hn i m)
  refine (subperm_of_subset (orbits_nodup hn) hsub).perm_of_length_le (Nat.le_of_eq ?_)
  simp [orbits, orbit, length_flatMap, Nat.mul_div_cancel' (Nat.gcd_dvd_left n d)]

end TyLang.Orbits
