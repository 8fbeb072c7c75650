import Mathlib

/-!
Base64 (`src/functions.c`). The two functions of the library hand over a string, whose length has
32 bits.
-/
namespace TyLang.Base64
open List

abbrev Bytes := List UInt8

def alphabet : Bytes :=
  "ABCDEFGHIJKLMNOPQRSTUVWXYZabcdefghijklmnopqrstuvwxyz0123456789+/".toUTF8.toList

def encTable (s : UInt8) : UInt8 := alphabet.getD s.toNat 0

/-- The place of a letter, and 0 for any other. -/
def decTable (c : UInt8) : UInt8 :=
  match alphabet.idxOf? c with
  | some i => UInt8.ofNat i
  | none => 0

def sextet1 (g0 : UInt8) : UInt8 := g0 >>> 2
def sextet2 (g0 g1 : UInt8) : UInt8 := ((g0 &&& 0x03) <<< 4) ||| (g1 >>> 4)
def sextet3 (g1 g2 : UInt8) : UInt8 := ((g1 &&& 0x0F) <<< 2) ||| (g2 >>> 6)
def sextet4 (g2 : UInt8) : UInt8 := g2 &&& 0x3F

def octet1 (s1 s2 : UInt8) : UInt8 := (s1 <<< 2) ||| (s2 >>> 4)
def octet2 (s2 s3 : UInt8) : UInt8 := ((s2 &&& 0x0F) <<< 4) ||| (s3 >>> 2)
def octet3 (s3 s4 : UInt8) : UInt8 := ((s3 &&& 0x03) <<< 6) ||| s4

/-- The character `=`. -/
def pad : UInt8 := 61

def b64enc : Bytes → Bytes
  | g0 :: g1 :: g2 :: s => encTable (sextet1 g0) :: encTable (sextet2 g0 g1) ::
      encTable (sextet3 g1 g2) :: encTable (sextet4 g2) :: b64enc s
  | [g0, g1] => [encTable (sextet1 g0), encTable (sextet2 g0 g1), encTable (sextet3 g1 0), pad]
  | [g0] => [encTable (sextet1 g0), encTable (sextet2 g0 0), pad, pad]
  | [] => []

/-- The groups of four, and the group that is left. -/
def decGroups : Bytes → Bytes
  | g0 :: g1 :: g2 :: g3 :: s => octet1 (decTable g0) (decTable g1) ::
      octet2 (decTable g1) (decTable g2) :: octet3 (decTable g2) (decTable g3) :: decGroups s
  | [g0, g1, g2] => [octet1 (decTable g0) (decTable g1), octet2 (decTable g1) (decTable g2)]
  | [g0, g1] => [octet1 (decTable g0) (decTable g1)]
  | [g0] => [decTable g0 <<< 2]
  | [] => []

def b64dec (s : Bytes) : Option Bytes :=
  let s := s.rdropWhile (· == pad)
  if s.any (fun c => c != 65 && decTable c == 0) then none else some (decGroups s)

/-- The string that `vSs` clones: its length is of type `u32`. -/
def vSs (s : Bytes) : Bytes := s.take (s.length % 2 ^ 32)

def base64Encode (data : Bytes) (len : Option Int) : Bytes :=
  let size : Int := data.length
  let len := len.getD size
  let len := if len < 0 then len + size else len
  vSs (b64enc (data.take (max 0 (min len size)).toNat))

def base64Decode (s : Bytes) : Option Bytes := b64dec s

/-- A value of six bits. -/
def IsSextet (s : UInt8) : Prop := s &&& 63 = s

lemma isSextet : (∀ a, IsSextet (sextet1 a)) ∧ (∀ a b, IsSextet (sextet2 a b)) ∧
    (∀ a b, IsSextet (sextet3 a b)) ∧ ∀ a, IsSextet (sextet4 a) := by
  refine ⟨fun a => ?_, fun a b => ?_, fun a b => ?_, fun a => ?_⟩ <;>
    apply UInt8.toBitVec_inj.mp <;> ext i hi <;> interval_cases i <;>
    simp [sextet1, sextet2, sextet3, sextet4]

lemma octets : (∀ a b, octet1 (sextet1 a) (sextet2 a b) = a) ∧
    (∀ a b c, octet2 (sextet2 a b) (sextet3 b c) = b) ∧
    ∀ b c, octet3 (sextet3 b c) (sextet4 c) = c := by
  refine ⟨fun a b => ?_, fun a b c => ?_, fun b c => ?_⟩ <;> apply UInt8.toBitVec_inj.mp <;>
    ext i hi <;> interval_cases i <;>
    simp [octet1, octet2, octet3, sextet1, sextet2, sextet3, sextet4]

lemma encTable_spec {s : UInt8} (h : IsSextet s) :
    encTable s ∈ alphabet ∧ decTable (encTable s) = s := by
  have htable : ∀ i < 64, encTable (UInt8.ofNat i) ∈ alphabet ∧
      decTable (encTable (UInt8.ofNat i)) = UInt8.ofNat i := by decide +kernel
  have hlt : s.toNat < 64 := by
    rw [← h, UInt8.toNat_and]
    exact Nat.lt_succ_of_le Nat.and_le_right
  simpa using htable s.toNat hlt

lemma mem_alphabet : ∀ c ∈ alphabet, ¬ (c == pad) ∧ ¬ (c != 65 && decTable c == 0) := by
  decide +kernel

/-- An encoding without its padding. -/
def letters : Bytes → Bytes
  | g0 :: g1 :: g2 :: s => encTable (sextet1 g0) :: encTable (sextet2 g0 g1) ::
      encTable (sextet3 g1 g2) :: encTable (sextet4 g2) :: letters s
  | [g0, g1] => [encTable (sextet1 g0), encTable (sextet2 g0 g1), encTable (sextet3 g1 0)]
  | [g0] => [encTable (sextet1 g0), encTable (sextet2 g0 0)]
  | [] => []

lemma b64enc_eq (x : Bytes) : b64enc x = letters x ++ replicate (2 * x.length % 3) pad := by
  fun_induction b64enc x with
  | case1 g0 g1 g2 s ih =>
    have hlen : 2 * (g0 :: g1 :: g2 :: s).length % 3 = 2 * s.length % 3 := by
      simp only [length_cons]
      omega
    rw [hlen, ih]
    rfl
  | case2 | case3 | case4 => simp [letters, replicate]

lemma mem_letters (x : Bytes) : ∀ c ∈ letters x, c ∈ alphabet := by
  fun_induction letters x <;> simp_all [isSextet, encTable_spec]

lemma decGroups_letters (x : Bytes) : decGroups (letters x) = x := by
  fun_induction letters x <;> simp_all [decGroups, isSextet, encTable_spec, octets]

lemma length_b64enc (x : Bytes) : (b64enc x).length = 4 * ((x.length + 2) / 3) := by
  fun_induction b64enc x with
  | case1 g0 g1 g2 s ih =>
    simp only [length_cons, ih]
    omega
  | case2 | case3 | case4 => simp

lemma length_decGroups (s : Bytes) : 4 * (decGroups s).length ≤ 3 * s.length + 1 := by
  fun_induction decGroups s <;> simp only [length_cons, length_nil] <;> omega

lemma length_of_b64dec {s x : Bytes} (h : b64dec s = some x) :
    4 * x.length ≤ 3 * s.length + 1 := by
  have hle := (List.rdropWhile_prefix (· == pad) (l := s)).length_le
  simp only [b64dec] at h
  split at h
  · cases h
  · cases h
    have hlen := length_decGroups (s.rdropWhile (· == pad))
    omega

lemma rdropWhile_pads (s : Bytes) (k : Nat) :
    (s ++ replicate k pad).rdropWhile (· == pad) = s.rdropWhile (· == pad) := by
  induction k with
  | zero => rw [replicate_zero, append_nil]
  | succ k ih => rw [replicate_succ', ← append_assoc, rdropWhile_concat_pos _ _ _ (by decide), ih]

lemma b64dec_b64enc (x : Bytes) : b64dec (b64enc x) = some x := by
  have hmem := mem_letters x
  have hdrop : (b64enc x).rdropWhile (· == pad) = letters x := by
    rw [b64enc_eq, rdropWhile_pads, rdropWhile_eq_self_iff]
    exact fun hne => (mem_alphabet _ (hmem _ (getLast_mem hne))).1
  have hany : (letters x).any (fun c => c != 65 && decTable c == 0) = false := by
    rw [any_eq_false]
    exact fun c hc => (mem_alphabet c (hmem c hc)).2
  rw [b64dec, hdrop, hany, decGroups_letters]
  rfl

lemma base64Encode_eq (x : Bytes) : base64Encode x none = vSs (b64enc x) := by
  have hlen : ¬ (x.length : Int) < 0 := by omega
  simp [base64Encode, hlen]

lemma vSs_eq_iff (s : Bytes) : vSs s = s ↔ s.length < 2 ^ 32 := by
  constructor <;> intro h
  · have hlen := congrArg length h
    rw [vSs, length_take] at hlen
    omega
  · rw [vSs, Nat.mod_eq_of_lt h, take_length]

/-- The string is cut as soon as its length does not fit. -/
lemma base64Decode_base64Encode (x : Bytes) : base64Decode (base64Encode x none) = some x ↔
    4 * ((x.length + 2) / 3) < 2 ^ 32 := by
  rw [base64Encode_eq, base64Decode]
  constructor
  · intro h
    have hle := length_of_b64dec h
    rw [vSs, length_take, length_b64enc] at hle
    omega
  · intro h
    rw [(vSs_eq_iff _).mpr (by rwa [length_b64enc]), b64dec_b64enc]

theorem base64_iff (x : Bytes) : b64dec (b64enc x) = some x ∧
    (b64enc x).length = 4 * ((x.length + 2) / 3) ∧
    (∃ letters pads, b64enc x = letters ++ replicate pads pad ∧ pads ≤ 2 ∧
      ∀ c ∈ letters, c ∈ alphabet) ∧
    (base64Encode x none = b64enc x ↔ 4 * ((x.length + 2) / 3) < 2 ^ 32) ∧
    (base64Decode (base64Encode x none) = some x ↔ 4 * ((x.length + 2) / 3) < 2 ^ 32) :=
  ⟨b64dec_b64enc x, length_b64enc x, ⟨_, _, b64enc_eq x, by omega, mem_letters x⟩,
    by rw [base64Encode_eq, vSs_eq_iff, length_b64enc], base64Decode_base64Encode x⟩

/-- The encoding of a blob of three gigabytes. -/
theorem base64_gigabytes : base64Decode (base64Encode (replicate (3 * 2 ^ 30) 0) none) ≠
    some (replicate (3 * 2 ^ 30) 0) := by
  intro h
  have := (base64Decode_base64Encode _).mp h
  rw [length_replicate] at this
  omega

end TyLang.Base64
