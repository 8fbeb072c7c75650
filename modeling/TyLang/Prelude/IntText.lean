import TyLang.Lib.Numerals

/-!
`Int.str` with a base (`lib/prelude.ty`), and `int` that reads the text (`src/functions.c`). Four
bases are formatted by `fmt`, which prints the bits of a negative number for three of them; the
other ones by a loop over the absolute value. That of the smallest integer is negative.
-/
namespace TyLang.Prelude
open List Numerals

def digits : List Char := "0123456789ABCDEF".toList

/-- Some character of a string, from the end if the place is negative. -/
def charAt (s : List Char) (i : Int) : Option Char := s[(if i < 0 then i + s.length else i).toNat]?

/-! ### Formatting -/

/-- `radixnum` of `stb_sprintf.h`. -/
def radixnum (h : List Char) (bits n64 : Nat) : List Char :=
  blocks (2 ^ bits) (fun d => [h.getD d '0']) (fun d => [h.getD d '0']) 64 n64 []

/-- `utobsx`, with the number of places from the mask on. -/
def leadingPlaces (z : Nat) : Nat → Nat
  | 0 => 0
  | i + 1 => if z.testBit i then i + 1 else leadingPlaces z i

def bitsFrom (z : Nat) : Nat → List Char
  | 0 => []
  | i + 1 => (if z.testBit i then '1' else '0') :: bitsFrom z i

def utobsx (z : Nat) : List Char :=
  let places := leadingPlaces z 64
  if places = 0 then ['0'] else bitsFrom z places

def digitPair (n : Nat) : List Char := [digits.getD (n / 10) '0', digits.getD (n % 10) '0']

/-- The digits of a part of the number, in pairs. -/
def pairs (n : Nat) : List Char := blocks 100 digitPair digitPair 4 n []

def padded (s : List Char) : List Char := replicate (8 - s.length) '0' ++ s

/-- The first digit may be one too many. -/
def dropZero (s : List Char) : List Char := if s.head? = some '0' then s.tail else s

def stripped (s : List Char) : List Char := if dropZero s = [] then ['0'] else dropZero s

/-- The digits for `%d`, in parts of eight. -/
def decimal (n64 : Nat) : List Char :=
  blocks 100000000 (fun n => padded (pairs n)) (fun n => stripped (pairs n)) 3 n64 []

/-- `fmt` of an integer. -/
inductive Spec where
  | b | o | d | x

def fmt (spec : Spec) (n : BitVec 64) : List Char :=
  match spec with
  | .b => utobsx n.toNat
  | .o => radixnum digits 3 n.toNat
  | .x => radixnum "0123456789abcdef".toList 4 n.toNat
  | .d => if n.toInt < 0 then '-' :: decimal (-n).toNat else decimal n.toNat

/-- The loop of `str`, for a number of rounds. -/
def strLoop (base : Int) : Nat → Int → List Char → Option (List Char)
  | 0, _, _ => none
  | rounds + 1, k, s =>
    if k ≠ 0 ∨ s.length = 0 then
      match charAt digits (k.tmod base) with
      | none => none
      | some c => strLoop base rounds (k.tdiv base) (c :: s)
    else some s

def intStr (rounds : Nat) (n : BitVec 64) (base : Nat) : Option (List Char) :=
  match base with
  | 2 => some (fmt .b n)
  | 8 => some (fmt .o n)
  | 10 => some (fmt .d n)
  | 16 => some (fmt .x n)
  | _ => (strLoop base rounds n.abs.toInt []).map fun s => if n.toInt < 0 then '-' :: s else s

/-! ### Reading -/

def sign (negative : Bool) : List Char := if negative then ['-'] else []

def signed (negative : Bool) (v : Nat) : Int := if negative then -v else v

def InRange (z : Int) : Prop := -2 ^ 63 ≤ z ∧ z < 2 ^ 63

/-- `strtoimax`: the number, what is left of the text, and whether `errno` is set. -/
structure Strtoimax where
  strtoimax : List Char → Nat → Int × List Char × Bool
  reads : ∀ negative s b v, 2 ≤ b → b ≤ 36 → s ≠ [] → value b s = some v →
    InRange (signed negative v) → strtoimax (sign negative ++ s) b = (signed negative v, [], false)
  overflows : ∀ negative s b v, 2 ≤ b → b ≤ 36 → s ≠ [] → value b s = some v →
    ¬ InRange (signed negative v) → (strtoimax (sign negative ++ s) b).2.2
  stops : ∀ negative s b, 2 ≤ b → b ≤ 36 → (∀ c ∈ s, c ∈ digits) → value b s = none →
    (strtoimax (sign negative ++ s) b).2.1 ≠ []

/-- `int` of a string, with a base that it allows. `none` is nil. -/
def builtinInt (l : Strtoimax) (s : List Char) (base : Nat) : Option Int :=
  if 2097152 ≤ s.length then none
  else
    let (base, s) := if base = 0 ∧ s.take 2 = ['0', 'b'] then (2, s.drop 2) else (base, s)
    let (base, s) := if base = 0 ∧ s.take 2 = ['0', 'o'] then (8, s.drop 2) else (base, s)
    let (n, rest, errno) := l.strtoimax s base
    if errno ∨ rest ≠ [] ∨ rest = s then none else some n

instance : DecidablePred InRange := fun _ => inferInstanceAs (Decidable (_ ∧ _))

/-- `s` without the sign. -/
def unsigned (s : List Char) : List Char := if s.head? = some '-' then s.tail else s

variable {s : List Char}

lemma unsigned_sign (hs : s.head? ≠ some '-') (negative : Bool) :
    unsigned (sign negative ++ s) = s ∧
      decide ((sign negative ++ s).head? = some '-') = negative := by
  cases negative <;> simp [unsigned, sign, hs]

lemma head?_ne_minus {b v : Nat} (hb : b ≤ 36) (hs : s ≠ [])
    (h : value b s = some v) : s.head? ≠ some '-' := by
  obtain ⟨c, s, rfl⟩ := exists_cons_of_ne_nil hs
  rintro hc
  cases hc
  have hlarge : ¬ digitValue '-' < b := Nat.not_lt.mpr hb
  rw [value, valueFrom, if_neg hlarge] at h
  cases h

def plainStrtoimax : Strtoimax where
  strtoimax s b :=
    match value b (unsigned s) with
    | none => (0, s, false)
    | some v =>
      let z := signed (s.head? = some '-') v
      if InRange z then (z, [], false) else (z, [], true)
  reads negative s b v _ hb hne h hrange := by
    obtain ⟨hs, hsign⟩ := unsigned_sign (head?_ne_minus hb hne h) negative
    simp only [hs, h, hsign, hrange, if_true]
  overflows negative s b v _ hb hne h hrange := by
    obtain ⟨hs, hsign⟩ := unsigned_sign (head?_ne_minus hb hne h) negative
    simp only [hs, h, hsign, hrange, if_false]
  stops negative s b _ _ hdigits h := by
    have hne : s ≠ [] := by
      rintro rfl
      cases h
    have hhead : s.head? ≠ some '-' := fun hc => by
      have := hdigits _ (mem_of_mem_head? hc)
      revert this
      decide
    simp [(unsigned_sign hhead negative).1, h, hne]

/-! ### What is written -/

/-- A text of some digits, which stands for `v`. -/
structure Writes (b : Nat) (s : List Char) (v : Nat) : Prop where
  value : value b s = some v
  ne_nil : s ≠ []
  length : s.length ≤ 64

lemma value_singleton {b d : Nat} {c : Char} (hc : digitValue c = d) (hd : d < b) :
    value b [c] = some d := by
  simp [value, valueFrom, hc, hd]

lemma digitValue_digits : ∀ d < 16, digitValue (digits.getD d '0') = d := by decide

/-- Digit by digit, in a base up to 16. -/
lemma writes_blocks {b n fuel : Nat} {h : List Char} (hb : 2 ≤ b)
    (hh : ∀ d < b, digitValue (h.getD d '0') = d) (hn : n < b ^ (fuel + 1)) (hfuel : fuel < 64) :
    Writes b (blocks b (fun d => [h.getD d '0']) (fun d => [h.getD d '0']) (fuel + 1) n []) n := by
  have hdigit : ∀ d < b, value b [h.getD d '0'] = some d := fun d hd => value_singleton (hh d hd) hd
  refine ⟨?_, blocks_ne_nil (fun _ => cons_ne_nil _ _) (fun _ => cons_ne_nil _ _) _ _ _, ?_⟩
  · have hvalue : value b [] = some 0 := rfl
    rw [value_blocks (Nat.pow_one b).symm (by omega)
      (fun d hd => ⟨hdigit d hd, rfl⟩) hdigit hn hvalue,
      length_nil, Nat.pow_zero, Nat.mul_one, Nat.add_zero]
  · have hone : ∀ d, [h.getD d '0'].length ≤ 1 := fun _ => Nat.le_refl 1
    refine Nat.le_trans (length_blocks_le hone hone (fuel + 1) n []) ?_
    rw [length_nil]
    omega

lemma writes_radixnum {h : List Char} {bits n : Nat} (hbits : 1 ≤ bits)
    (hh : ∀ d < 2 ^ bits, digitValue (h.getD d '0') = d) (hn : n < 2 ^ 64) :
    Writes (2 ^ bits) (radixnum h bits n) n := by
  have hb : 2 ≤ 2 ^ bits := Nat.pow_le_pow_right Nat.two_pos hbits
  exact writes_blocks hb hh (Nat.lt_of_lt_of_le hn (Nat.pow_le_pow_left hb 64)) (by decide)

lemma valueFrom_bitsFrom (z acc i : Nat) :
    valueFrom 2 acc (bitsFrom z i) = some (acc * 2 ^ i + z % 2 ^ i) := by
  induction i generalizing acc with
  | zero => simp [bitsFrom, valueFrom, Nat.mod_one]
  | succ i ih =>
    have hbit : digitValue (if z.testBit i then '1' else '0') = (z.testBit i).toNat := by
      cases z.testBit i <;> rfl
    have hlt : (z.testBit i).toNat < 2 := Bool.toNat_lt _
    rw [bitsFrom, valueFrom, hbit, if_pos hlt, ih, Nat.mod_pow_succ, ← Nat.toNat_testBit]
    ring

lemma leadingPlaces_spec (z i : Nat) :
    leadingPlaces z i ≤ i ∧ z % 2 ^ leadingPlaces z i = z % 2 ^ i := by
  induction i with
  | zero => simp [leadingPlaces]
  | succ i ih =>
    rw [leadingPlaces]
    split
    · simp
    · next hbit =>
      refine ⟨Nat.le_succ_of_le ih.1, ?_⟩
      rw [ih.2, Nat.mod_pow_succ, ← Nat.toNat_testBit, Bool.eq_false_iff.mpr hbit]
      rfl

lemma length_bitsFrom (z i : Nat) : (bitsFrom z i).length = i := by
  induction i with
  | zero => rfl
  | succ i ih => rw [bitsFrom, length_cons, ih]

lemma writes_utobsx {z : Nat} (hz : z < 2 ^ 64) : Writes 2 (utobsx z) z := by
  obtain ⟨hle, hmod⟩ := leadingPlaces_spec z 64
  rw [Nat.mod_eq_of_lt hz] at hmod
  rw [utobsx]
  split
  · next hzero =>
    rw [hzero, Nat.pow_zero, Nat.mod_one] at hmod
    exact ⟨by rw [← hmod]; rfl, cons_ne_nil _ _, by decide⟩
  · next hpos =>
    refine ⟨?_, ?_, by rwa [length_bitsFrom]⟩
    · rw [value, valueFrom_bitsFrom, hmod, Nat.zero_mul, Nat.zero_add]
    · rw [← length_pos_iff, length_bitsFrom]
      omega

lemma value_pairs {n : Nat} (hn : n < 100000000) : value 10 (pairs n) = some n := by
  have hpair : ∀ d < 100, value 10 (digitPair d) = some d := by decide
  have h := value_blocks (s := []) (v := 0) (show 100 = 10 ^ 2 by decide) (by decide)
    (fun d hd => ⟨hpair d hd, rfl⟩) hpair (show n < 100 ^ (3 + 1) by omega) rfl
  rwa [length_nil, Nat.pow_zero, Nat.mul_one, Nat.add_zero] at h

lemma length_pairs_le (n : Nat) : (pairs n).length ≤ 8 := by
  have hpair : ∀ d, (digitPair d).length ≤ 2 := fun _ => Nat.le_refl 2
  exact length_blocks_le hpair hpair 4 n []

lemma length_padded (hs : s.length ≤ 8) : (padded s).length = 8 := by
  rw [padded, length_append, length_replicate]
  omega

lemma value_stripped {v : Nat} (hv : value 10 s = some v) : value 10 (stripped s) = some v := by
  have htail : value 10 (dropZero s) = some v := by
    rw [dropZero]
    split
    · next hhead =>
      obtain ⟨t, rfl⟩ := head?_eq_some_iff.mp hhead
      exact hv
    · exact hv
  rw [stripped]
  split
  · next hnil => rwa [hnil] at htail
  · exact htail

lemma stripped_ne_nil (s : List Char) : stripped s ≠ [] := by
  rw [stripped]
  split
  · exact cons_ne_nil _ _
  · assumption

lemma length_stripped_le (hs : s.length ≤ 8) : (stripped s).length ≤ 8 := by
  rw [stripped]
  split
  · exact Nat.succ_le_succ (Nat.zero_le 7)
  · rw [dropZero]
    split
    · rw [length_tail]
      omega
    · exact hs

lemma writes_decimal {n : Nat} (hn : n < 2 ^ 64) : Writes 10 (decimal n) n := by
  have hpadded : ∀ d, (padded (pairs d)).length = 8 := fun d => length_padded (length_pairs_le d)
  refine ⟨?_, blocks_ne_nil (fun d => stripped_ne_nil _) (fun d hnil => ?_) 2 n [], ?_⟩
  · have h := value_blocks (s := []) (v := 0) (show 100000000 = 10 ^ 8 by decide) (by decide)
      (fun d hd => ⟨value_zeros (by decide) _ (value_pairs hd), hpadded d⟩)
      (fun d hd => value_stripped (value_pairs hd)) (show n < 100000000 ^ (2 + 1) by omega) rfl
    rwa [length_nil, Nat.pow_zero, Nat.mul_one, Nat.add_zero] at h
  · have h := hpadded d
    rw [hnil] at h
    cases h
  · have h := length_blocks_le (B := 100000000) (fun d => Nat.le_of_eq (hpadded d))
      (fun d => length_stripped_le (length_pairs_le d)) 3 n []
    exact h.trans (by decide)

/-! ### The loop -/

lemma strLoop_eq {base k fuel : Nat} (hbase : 2 ≤ base) (hle : base ≤ 16)
    (hk : k < base ^ (fuel + 1)) (hs : k ≠ 0 ∨ s = []) : strLoop base (fuel + 2) k s =
      some (blocks base (fun d => [digits.getD d '0']) (fun d => [digits.getD d '0'])
        (fuel + 1) k s) := by
  have hchar : ∀ k : Nat, charAt digits ((k : Int).tmod base) =
      some (digits.getD (k % base) '0') := by
    intro k
    have hlt : k % base < 16 := Nat.lt_of_lt_of_le (Nat.mod_lt k (by omega)) hle
    rw [charAt, ← Int.ofNat_tmod, if_neg (Int.not_lt.mpr (Int.natCast_nonneg _)), Int.toNat_natCast,
      getD_eq_getElem?_getD, getElem?_eq_getElem (show k % base < digits.length from hlt)]
    rfl
  have hstop : ∀ fuel c s, strLoop base (fuel + 1) ((0 : Nat) : Int) (c :: s) = some (c :: s) := by
    simp [strLoop]
  have hcond : ∀ {k : Nat} {s : List Char}, k ≠ 0 ∨ s = [] → (k : Int) ≠ 0 ∨ s.length = 0 := by simp
  induction fuel generalizing k s with
  | zero =>
    have hlt : k < base := by simpa using hk
    rw [strLoop, if_pos (hcond hs), hchar, ← Int.ofNat_tdiv, blocks, Nat.div_eq_of_lt hlt,
      if_pos rfl, Nat.mod_eq_of_lt hlt]
    exact hstop 0 _ s
  | succ fuel ih =>
    rw [strLoop, if_pos (hcond hs), hchar, ← Int.ofNat_tdiv, blocks]
    by_cases hzero : k / base = 0
    · have hlt : k < base := (Nat.div_eq_zero_iff_lt (by omega)).mp hzero
      rw [if_pos hzero, hzero, Nat.mod_eq_of_lt hlt]
      exact hstop (fuel + 1) _ s
    · have hdiv : k / base < base ^ (fuel + 1) := Nat.div_lt_of_lt_mul (by rwa [← Nat.pow_succ'])
      rw [if_neg hzero]
      exact ih hdiv (.inl hzero)

/-! ### Reading it back -/

variable {l : Strtoimax} {n : BitVec 64} {b v : Nat} {s : List Char}

lemma builtinInt_eq (hb : 2 ≤ b) (hs : s.length < 100) : builtinInt l s b =
    if (l.strtoimax s b).2.2 ∨ (l.strtoimax s b).2.1 ≠ [] ∨ (l.strtoimax s b).2.1 = s then none
    else some (l.strtoimax s b).1 := by
  have hzero : b ≠ 0 := by omega
  rw [builtinInt, if_neg (by omega)]
  simp only [hzero, false_and, if_false]

lemma Writes.builtinInt_eq (h : Writes b s v) (hb : 2 ≤ b) (hle : b ≤ 16) (negative : Bool) :
    (InRange (signed negative v) → builtinInt l (sign negative ++ s) b = some (signed negative v)) ∧
      (¬ InRange (signed negative v) → builtinInt l (sign negative ++ s) b = none) := by
  have hlen : (sign negative ++ s).length < 100 := by
    have := h.length
    cases negative <;> simp [sign] <;> omega
  rw [Prelude.builtinInt_eq hb hlen]
  constructor
  · intro hrange
    rw [l.reads negative s b v hb (by omega) h.ne_nil h.value hrange]
    simp [h.ne_nil]
  · intro hrange
    rw [l.overflows negative s b v hb (by omega) h.ne_nil h.value hrange]
    simp

/-- The bits of a number are read back only if it is not negative. -/
lemma Writes.builtinInt_toNat_iff (h : Writes b s n.toNat) (hb : 2 ≤ b) (hle : b ≤ 16) :
    builtinInt l s b = some n.toInt ↔ 0 ≤ n.toInt := by
  obtain ⟨hin, hout⟩ := h.builtinInt_eq (l := l) hb hle false
  rw [show sign false ++ s = s from rfl, show signed false n.toNat = n.toNat from rfl] at hin hout
  have hcases := BitVec.toInt_eq_toNat_cond n
  by_cases hneg : 2 * n.toNat < 2 ^ 64
  · rw [if_pos hneg] at hcases
    rw [hin (by unfold InRange; omega), hcases]
    simp
  · rw [if_neg hneg] at hcases
    rw [hout (by unfold InRange; omega)]
    refine iff_of_false nofun ?_
    omega

lemma Writes.builtinInt_natAbs (h : Writes b s n.toInt.natAbs) (hb : 2 ≤ b) (hle : b ≤ 16) :
    builtinInt l (sign (n.toInt < 0) ++ s) b = some n.toInt := by
  have hsigned : signed (n.toInt < 0) n.toInt.natAbs = n.toInt := by
    by_cases hneg : n.toInt < 0
    · rw [signed, if_pos (decide_eq_true hneg)]
      omega
    · rw [signed, if_neg (by simpa using hneg)]
      omega
  have hlt := BitVec.toInt_lt (x := n)
  have hge := BitVec.le_toInt (x := n)
  have hin := (h.builtinInt_eq (l := l) hb hle (n.toInt < 0)).1
  rw [hsigned] at hin
  exact hin ⟨hge, hlt⟩

/-- The smallest integer in the other bases: the digits are negative, and so are taken from the
end of the table. -/
lemma strLoop_intMin : ∀ b ∈ [3, 4, 5, 6, 7, 9, 11, 12, 13, 14, 15],
    (strLoop (b : Nat) 65 (BitVec.intMin 64).abs.toInt []).any fun s =>
      s ≠ [] ∧ s.length ≤ 64 ∧ s.all (· ∈ digits) ∧ value b s ≠ some (2 ^ 63) := by
  decide +kernel

lemma builtinInt_intMin (hb : b ∈ [3, 4, 5, 6, 7, 9, 11, 12, 13, 14, 15]) :
    ∃ s, strLoop b 65 (BitVec.intMin 64).abs.toInt [] = some s ∧
      builtinInt l (sign true ++ s) b ≠ some (-2 ^ 63) := by
  obtain ⟨s, hs, hspec⟩ := (Option.any_eq_true _ _).mp (strLoop_intMin b hb)
  obtain ⟨hne, hlen, hdigits, hval⟩ := of_decide_eq_true hspec
  have hrange : 2 ≤ b ∧ b ≤ 16 := by
    simp only [mem_cons, not_mem_nil, or_false] at hb
    omega
  refine ⟨s, hs, ?_⟩
  cases hv : value b s with
  | none =>
    have hstop := l.stops true s b hrange.1 (by omega) (by simpa using hdigits) hv
    rw [builtinInt_eq hrange.1 (by simp [sign]; omega), if_pos (.inr (.inl hstop))]
    exact nofun
  | some v =>
    obtain ⟨hin, hout⟩ := (Writes.mk hv hne hlen).builtinInt_eq (l := l) hrange.1 hrange.2 true
    by_cases hr : InRange (signed true v)
    · have hv63 : v ≠ 2 ^ 63 := fun h => hval (h ▸ hv)
      rw [hin hr, signed, if_pos rfl, Ne, Option.some.injEq]
      omega
    · rw [hout hr]
      exact nofun

lemma writes_fmt (n : BitVec 64) : Writes 2 (fmt .b n) n.toNat ∧ Writes 8 (fmt .o n) n.toNat ∧
    Writes 16 (fmt .x n) n.toNat :=
  ⟨writes_utobsx n.isLt, writes_radixnum (show 1 ≤ 3 by decide) (by decide) n.isLt,
    writes_radixnum (show 1 ≤ 4 by decide) (by decide) n.isLt⟩

lemma fmt_d_eq (n : BitVec 64) : fmt .d n = sign (n.toInt < 0) ++ decimal n.toInt.natAbs := by
  have hcases := BitVec.toInt_eq_toNat_cond n
  have hneg := BitVec.toNat_neg n
  rw [fmt]
  split at hcases
  · rw [if_neg (by omega), sign, if_neg (by simp; omega), nil_append]
    congr 1
    omega
  · rw [if_pos (by omega), sign, if_pos (by simp; omega), singleton_append]
    congr 2
    omega

/-- In the bases that `fmt` knows for the bits of a number, a negative one is not read back; nor is
the smallest one in the bases that it does not know. All others are. -/
theorem int_str_iff (l : Strtoimax) (n : BitVec 64) (b : Nat) (hb : 2 ≤ b) (hle : b ≤ 16) :
    ∃ rounds text, intStr rounds n b = some text ∧
      (builtinInt l text b = some n.toInt ↔
        0 ≤ n.toInt ∨ b = 10 ∨ b ∉ [2, 8, 16] ∧ n ≠ BitVec.intMin 64) := by
  by_cases hbits : b ∈ [2, 8, 16]
  · obtain ⟨h2, h8, h16⟩ := writes_fmt n
    have h : ∃ s, intStr 0 n b = some s ∧ Writes b s n.toNat := by
      simp only [mem_cons, not_mem_nil, or_false] at hbits
      rcases hbits with rfl | rfl | rfl
      · exact ⟨_, rfl, h2⟩
      · exact ⟨_, rfl, h8⟩
      · exact ⟨_, rfl, h16⟩
    obtain ⟨s, hs, hw⟩ := h
    have hten : b ≠ 10 := by
      rintro rfl
      simp at hbits
    refine ⟨0, s, hs, ?_⟩
    rw [hw.builtinInt_toNat_iff hb hle]
    simp [hbits, hten]
  by_cases hten : b = 10
  · subst hten
    have habs : n.toInt.natAbs < 2 ^ 64 := by
      have hlt := BitVec.toInt_lt (x := n)
      have hge := BitVec.le_toInt (x := n)
      omega
    have hw := (writes_decimal habs).builtinInt_natAbs (l := l) hb hle
    exact ⟨0, _, congrArg some (fmt_d_eq n), iff_of_true hw (.inr (.inl rfl))⟩
  have hstr : ∀ s, strLoop b 65 n.abs.toInt [] = some s →
      intStr 65 n b = some (sign (n.toInt < 0) ++ s) := by
    intro s hs
    simp only [mem_cons, not_mem_nil, or_false, not_or] at hbits
    rw [intStr, hs]
    · by_cases hneg : n.toInt < 0 <;> simp [sign, hneg]
    all_goals omega
  by_cases hmin : n = BitVec.intMin 64
  · subst hmin
    obtain ⟨s, hs, hlost⟩ := builtinInt_intMin (l := l) (b := b) (by
      simp only [mem_cons, not_mem_nil, or_false, not_or] at hbits ⊢
      omega)
    refine ⟨65, _, hstr s hs, iff_of_false hlost ?_⟩
    have hneg : (BitVec.intMin 64).toInt < 0 := by decide
    simp [hten, hneg]
  · have habs := BitVec.toInt_abs_eq_natAbs_of_ne_intMin hmin
    have hlt : n.toInt.natAbs < b ^ (63 + 1) := by
      have hlt := BitVec.toInt_lt (x := n)
      have hge := BitVec.le_toInt (x := n)
      exact Nat.lt_of_lt_of_le (by omega) (Nat.pow_le_pow_left hb 64)
    have hloop := strLoop_eq hb hle hlt (.inr rfl)
    rw [← habs] at hloop
    have hw := writes_blocks hb (fun d hd => digitValue_digits d (by omega)) hlt (by decide)
    exact ⟨65, _, hstr _ hloop,
      iff_of_true (hw.builtinInt_natAbs hb hle) (.inr (.inr ⟨hbits, hmin⟩))⟩

theorem int_str_iff_seven : ∃ rounds text, intStr rounds (-5) 7 = some text ∧
    builtinInt plainStrtoimax text 7 = some (-5) := by
  obtain ⟨rounds, text, htext, hiff⟩ := int_str_iff plainStrtoimax (-5) 7 (by decide) (by decide)
  exact ⟨rounds, text, htext, hiff.mpr (by decide)⟩

/-- A negative number in base 16 is printed as one that is too large. -/
theorem int_str_lost : intStr 0 (-1) 16 = some "ffffffffffffffff".toList ∧
    builtinInt plainStrtoimax "ffffffffffffffff".toList 16 = none := by
  decide +kernel

end TyLang.Prelude
