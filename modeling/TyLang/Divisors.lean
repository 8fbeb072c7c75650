import Mathlib

/-!
`gcd` and `lcm` of `src/functions.c` on integers. Both run Euclid's loop with the remainder of
C, which has the sign of the dividend, so that the sign of the result depends on the number of
rounds. A result of another sign is what makes `lcm` negative as well.
-/
namespace TyLang.Divisors

inductive Fault where
  /-- The processor traps on the division. -/
  | trap
  | overflow
  deriving DecidableEq, Repr

/-- The loop of both functions. -/
def euclid (a b : Int) : Except Fault Int :=
  if b = 0 then .ok a
  else if a = -2 ^ 63 ∧ b = -1 then .error .trap
  else euclid b (a.tmod b)
termination_by b.natAbs
decreasing_by
  rw [Int.natAbs_tmod]
  exact Nat.mod_lt _ (Int.natAbs_pos.mpr ‹_›)

/-- The result of an operation on `imax`. -/
def imax (z : Int) : Except Fault Int :=
  if -2 ^ 63 ≤ z ∧ z < 2 ^ 63 then .ok z else .error .overflow

def builtinGcd (a b : Int) : Except Fault Int := euclid a b

def builtinLcm (a b : Int) : Except Fault Int := do
  let g ← euclid a b
  let product ← imax (a * b)
  let product ← imax product.natAbs
  if g = 0 then .error .trap else .ok (product.tdiv g)

/-- The rounds of the loop, which do not depend on the signs. -/
def rounds (a b : Nat) : Nat := if b = 0 then 0 else rounds b (a % b) + 1
termination_by b
decreasing_by exact Nat.mod_lt _ (Nat.pos_of_ne_zero ‹_›)

/-- The argument that has the sign of the result. -/
def leading (a b : Int) : Int := if rounds a.natAbs b.natAbs % 2 = 0 then a else b

variable {a b : Int}

lemma leading_tmod (hb : b ≠ 0) : 0 ≤ leading b (a.tmod b) ↔ 0 ≤ leading a b := by
  have hrounds : rounds a.natAbs b.natAbs = rounds b.natAbs (a.tmod b).natAbs + 1 := by
    rw [rounds, if_neg (Int.natAbs_ne_zero.mpr hb), Int.natAbs_tmod]
  rw [leading, leading, hrounds]
  split
  · rw [if_neg (by omega)]
  next hodd =>
  rw [if_pos (by omega)]
  have hne : a.tmod b ≠ 0 := by
    intro h
    rw [h, Int.natAbs_zero, rounds] at hodd
    exact hodd rfl
  refine ⟨fun h => ?_, Int.tmod_nonneg b⟩
  by_contra ha
  have hneg := Int.tmod_nonneg b (show 0 ≤ -a by omega)
  rw [Int.neg_tmod] at hneg
  omega

/-- The loop never traps, and finds the greatest common divisor up to its sign. -/
lemma euclid_eq (ha : -2 ^ 63 < a) (hb : -2 ^ 63 < b) :
    euclid a b = .ok (if 0 ≤ leading a b then (a.gcd b : Int) else -a.gcd b) := by
  induction h : b.natAbs using Nat.strong_induction_on generalizing a b with
  | _ n ih =>
    subst h
    rw [euclid]
    split
    · next hb0 =>
      subst hb0
      rw [Int.gcd_zero_right, leading, Int.natAbs_zero, rounds, if_pos rfl, if_pos rfl]
      split <;> congr 1 <;> omega
    · next hb0 =>
      have hlt : (a.tmod b).natAbs < b.natAbs := by
        rw [Int.natAbs_tmod]
        exact Nat.mod_lt _ (Int.natAbs_pos.mpr hb0)
      have hmod : -2 ^ 63 < a.tmod b := by
        have hle : (a.tmod b).natAbs ≤ a.natAbs := by
          rw [Int.natAbs_tmod]
          exact Nat.mod_le _ _
        rcases Int.le_total 0 a with h0 | h0
        · have := Int.tmod_nonneg b h0
          omega
        · omega
      have hgcd : b.gcd (a.tmod b) = a.gcd b := by
        rw [Int.gcd, Int.natAbs_tmod, Nat.gcd_comm, ← Nat.gcd_rec, Nat.gcd_comm]
        rfl
      rw [if_neg (by omega), ih _ hlt hb hmod rfl, hgcd]
      simp only [leading_tmod hb0]

lemma imax_eq {z : Int} (h : -2 ^ 63 ≤ z ∧ z < 2 ^ 63) : imax z = .ok z := if_pos h

lemma imax_error {z : Int} (h : ¬ (-2 ^ 63 ≤ z ∧ z < 2 ^ 63)) : imax z = .error .overflow :=
  if_neg h

lemma ok_bind {α β : Type} (a : α) (f : α → Except Fault β) : (Except.ok a >>= f) = f a := rfl

lemma error_bind {α β : Type} (e : Fault) (f : α → Except Fault β) :
    (Except.error e >>= f) = .error e := rfl

lemma builtinLcm_overflow {g : Int} (hg : euclid a b = .ok g) (h : 2 ^ 63 ≤ (a * b).natAbs) :
    builtinLcm a b = .error .overflow := by
  rw [builtinLcm, hg, ok_bind]
  by_cases hproduct : -2 ^ 63 ≤ a * b ∧ a * b < 2 ^ 63
  · rw [imax_eq hproduct, ok_bind, imax_error (by omega), error_bind]
  · rw [imax_error hproduct, error_bind]

lemma builtinLcm_eq {g : Int} (hg : euclid a b = .ok g) (h : (a * b).natAbs < 2 ^ 63) :
    builtinLcm a b = if g = 0 then .error .trap else .ok (((a * b).natAbs : Int).tdiv g) := by
  rw [builtinLcm, hg, ok_bind, imax_eq (by omega), ok_bind, imax_eq (by omega), ok_bind]

lemma natAbs_tdiv_gcd (a b : Int) : ((a * b).natAbs : Int).tdiv (a.gcd b) = a.lcm b := by
  rw [Int.natAbs_mul, ← Int.ofNat_tdiv]
  rfl

lemma builtinLcm_iff (ha : -2 ^ 63 < a) (hb : -2 ^ 63 < b) :
    builtinLcm a b = .ok (a.lcm b : Int) ↔
      (a * b).natAbs < 2 ^ 63 ∧ (a ≠ 0 ∨ b ≠ 0) ∧ (a * b = 0 ∨ 0 ≤ leading a b) := by
  have heuclid := euclid_eq ha hb
  by_cases hroom : (a * b).natAbs < 2 ^ 63
  · rw [builtinLcm_eq heuclid hroom]
    by_cases hboth : a.gcd b = 0
    · have hzero := Int.gcd_eq_zero_iff.mp hboth
      simp [hzero]
    have hne : a ≠ 0 ∨ b ≠ 0 := by
      rwa [← not_and_or, ← Int.gcd_eq_zero_iff]
    have hzero : (a.lcm b : Int) = 0 ↔ a * b = 0 := by
      rw [Int.natCast_eq_zero, Int.lcm_eq_zero_iff, Int.mul_eq_zero]
    by_cases hsign : 0 ≤ leading a b
    · rw [if_pos hsign, if_neg (by omega), natAbs_tdiv_gcd]
      exact iff_of_true rfl ⟨hroom, hne, .inr hsign⟩
    rw [if_neg hsign, if_neg (by omega), Int.tdiv_neg, natAbs_tdiv_gcd, Except.ok.injEq,
      ← hzero]
    constructor
    · intro h
      exact ⟨hroom, hne, .inl (by omega)⟩
    · rintro ⟨-, -, h | h⟩
      · omega
      · exact absurd h hsign
  · rw [builtinLcm_overflow heuclid (by omega)]
    exact iff_of_false nofun fun h => hroom h.1

/-- `gcd` is right just if the argument is not negative that the number of rounds selects, and
`lcm` just if in addition the product has room and not both arguments are zero. -/
theorem gcd_lcm_iff (ha : -2 ^ 63 < a) (hb : -2 ^ 63 < b) :
    (builtinGcd a b = .ok (a.gcd b : Int) ↔ 0 ≤ leading a b) ∧
    (builtinLcm a b = .ok (a.lcm b : Int) ↔
      (a * b).natAbs < 2 ^ 63 ∧ (a ≠ 0 ∨ b ≠ 0) ∧ (a * b = 0 ∨ 0 ≤ leading a b)) ∧
    ∀ g l, builtinGcd a b = .ok g → builtinLcm a b = .ok l → g * l = (a * b).natAbs := by
  have heuclid := euclid_eq ha hb
  refine ⟨?_, builtinLcm_iff ha hb, fun g l hg hl => ?_⟩
  · rw [builtinGcd, heuclid, Except.ok.injEq]
    split
    · next h => exact iff_of_true rfl h
    · next h =>
      refine iff_of_false (fun heq => h ?_) h
      have hzero := Int.gcd_eq_zero_iff.mp (show a.gcd b = 0 by omega)
      simp [leading, hzero]
  · have hdvd : g ∣ (a * b).natAbs := by
      rw [builtinGcd, heuclid, Except.ok.injEq] at hg
      have h : (a.gcd b : Int) ∣ (a * b).natAbs := by
        rw [Int.dvd_natAbs]
        exact (Int.gcd_dvd_left a b).mul_right b
      split at hg <;> subst hg
      · exact h
      · exact Int.neg_dvd.mpr h
    by_cases hroom : (a * b).natAbs < 2 ^ 63
    · rw [builtinLcm_eq hg hroom] at hl
      split at hl
      · cases hl
      · rw [← Except.ok.inj hl, Int.mul_tdiv_cancel' hdvd]
    · rw [builtinLcm_overflow hg (by omega)] at hl
      cases hl

theorem gcd_lcm_twelve : -2 ^ 63 < (12 : Int) ∧ -2 ^ 63 < (-18 : Int) ∧
    (builtinGcd 12 (-18) = .ok 6 ↔ 0 ≤ leading 12 (-18)) :=
  ⟨by decide, by decide, (gcd_lcm_iff (by decide) (by decide)).1⟩

theorem gcd_lcm_faults : builtinGcd 4 (-2) = .ok (-2) ∧ builtinLcm 4 (-2) = .ok (-4) ∧
    builtinLcm 0 0 = .error .trap ∧ builtinLcm 4294967296 4294967296 = .error .overflow := by
  have heuclid : euclid 4 (-2) = .ok (-2) := by simp [euclid]
  refine ⟨heuclid, ?_, ?_, ?_⟩
  · rw [builtinLcm_eq heuclid (by decide)]
    rfl
  · rw [builtinLcm_eq (g := 0) (by simp [euclid]) (by decide), if_pos rfl]
  · exact builtinLcm_overflow (g := 4294967296) (by simp [euclid]) (by decide)

end TyLang.Divisors
