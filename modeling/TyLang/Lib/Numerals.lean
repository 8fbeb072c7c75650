import Mathlib

/-!
Texts of digits in a base, and writing a number as such a text from its last digits on.
-/
namespace TyLang.Numerals
open List

/-- The value of a digit in any base up to 36; no other character is one. -/
def digitValue (c : Char) : Nat :=
  if '0' ≤ c ∧ c ≤ '9' then c.toNat - 48
  else if 'a' ≤ c ∧ c ≤ 'z' then c.toNat - 87
  else if 'A' ≤ c ∧ c ≤ 'Z' then c.toNat - 55
  else 36

def valueFrom (b : Nat) : Nat → List Char → Option Nat
  | acc, [] => some acc
  | acc, c :: s => if digitValue c < b then valueFrom b (acc * b + digitValue c) s else none

/-- The number that a text of digits stands for. -/
def value (b : Nat) (s : List Char) : Option Nat := valueFrom b 0 s

variable {b v w n : Nat} {s t : List Char}

lemma valueFrom_eq (acc : Nat) (h : value b s = some v) :
    valueFrom b acc s = some (acc * b ^ s.length + v) := by
  suffices hgen : ∀ acc acc' v, valueFrom b acc s = some v →
      ∃ k, v = acc * b ^ s.length + k ∧ valueFrom b acc' s = some (acc' * b ^ s.length + k) by
    obtain ⟨k, hk, heq⟩ := hgen 0 acc v h
    rw [heq, hk, Nat.zero_mul, Nat.zero_add]
  clear h
  induction s with
  | nil =>
    rintro acc acc' v h
    cases h
    exact ⟨0, by simp, by simp [valueFrom]⟩
  | cons c s ih =>
    intro acc acc' v h
    rw [valueFrom] at h ⊢
    split at h
    · next hc =>
      obtain ⟨k, hk, heq⟩ := ih _ (acc' * b + digitValue c) _ h
      refine ⟨digitValue c * b ^ s.length + k, ?_, ?_⟩
      · rw [hk, length_cons]
        ring
      · rw [if_pos hc, heq, length_cons]
        congr 1
        ring
    · cases h

lemma valueFrom_append (acc : Nat) :
    valueFrom b acc (s ++ t) = (valueFrom b acc s).bind fun v => valueFrom b v t := by
  induction s generalizing acc with
  | nil => rfl
  | cons c s ih =>
    rw [cons_append, valueFrom, valueFrom]
    split
    · exact ih _
    · rfl

lemma value_append (hs : value b s = some v) (ht : value b t = some w) :
    value b (s ++ t) = some (v * b ^ t.length + w) := by
  rw [value, valueFrom_append, ← value, hs]
  exact valueFrom_eq v ht

lemma value_zeros (hb : 0 < b) (k : Nat) (hs : value b s = some v) :
    value b (replicate k '0' ++ s) = some v := by
  induction k with
  | zero => exact hs
  | succ k ih => simpa [replicate_succ, value, valueFrom, digitValue, hb] using ih

/-- Writes a number block by block, from the last one on, in front of a text. -/
def blocks (B : Nat) (block last : Nat → List Char) : Nat → Nat → List Char → List Char
  | 0, _, s => s
  | fuel + 1, n, s =>
    if n / B = 0 then last n ++ s else blocks B block last fuel (n / B) (block (n % B) ++ s)

section Blocks

variable {B k : Nat} {block last : Nat → List Char}

lemma value_blocks (hB : B = b ^ k) (hpos : 0 < B)
    (hblock : ∀ d < B, value b (block d) = some d ∧ (block d).length = k)
    (hlast : ∀ d < B, value b (last d) = some d) {fuel : Nat} (hn : n < B ^ (fuel + 1))
    (hs : value b s = some v) :
    value b (blocks B block last (fuel + 1) n s) = some (n * b ^ s.length + v) := by
  induction fuel generalizing n s v with
  | zero =>
    have hn : n < B := by simpa using hn
    rw [blocks, if_pos (Nat.div_eq_of_lt hn)]
    exact value_append (hlast n hn) hs
  | succ fuel ih =>
    rw [blocks]
    split
    · next hzero => exact value_append (hlast n ((Nat.div_eq_zero_iff_lt hpos).mp hzero)) hs
    · obtain ⟨hval, hlen⟩ := hblock _ (Nat.mod_lt n hpos)
      have hdiv : n / B < B ^ (fuel + 1) := Nat.div_lt_of_lt_mul (by rwa [← Nat.pow_succ'])
      rw [ih hdiv (value_append hval hs), length_append, hlen, Nat.pow_add, ← hB]
      conv_rhs => rw [← Nat.div_add_mod n B]
      ring

lemma length_blocks_le {m : Nat} (hblock : ∀ d, (block d).length ≤ m)
    (hlast : ∀ d, (last d).length ≤ m) (fuel n : Nat) (s : List Char) :
    (blocks B block last fuel n s).length ≤ fuel * m + s.length := by
  induction fuel generalizing n s with
  | zero => simp [blocks]
  | succ fuel ih =>
    rw [blocks, Nat.succ_mul]
    split
    · have := hlast n
      rw [length_append]
      omega
    · have := ih (n / B) (block (n % B) ++ s)
      have := hblock (n % B)
      rw [length_append] at *
      omega

lemma blocks_ne_nil (hlast : ∀ d, last d ≠ []) (hblock : ∀ d, block d ≠ []) (fuel n : Nat)
    (s : List Char) : blocks B block last (fuel + 1) n s ≠ [] := by
  induction fuel generalizing n s with
  | zero =>
    rw [blocks]
    split
    · exact append_ne_nil_of_left_ne_nil (hlast n) s
    · exact append_ne_nil_of_left_ne_nil (hblock _) s
  | succ fuel ih =>
    rw [blocks]
    split
    · exact append_ne_nil_of_left_ne_nil (hlast n) s
    · exact ih _ _

end Blocks

end TyLang.Numerals
