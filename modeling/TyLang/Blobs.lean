import TyLang.Lib.Repetition

/-!
`xor` and `pad` of blobs (`src/blob.c`), on a little-endian machine.
-/
namespace TyLang.Blobs
open List Repetition

abbrev Bytes := List UInt8

/-! ### Words in memory -/

def loadWord : Bytes → Nat
  | [] => 0
  | b :: bs => b.toNat + 256 * loadWord bs

def storeWord : Nat → Nat → Bytes
  | 0, _ => []
  | k + 1, w => UInt8.ofNat w :: storeWord k (w / 256)

/-- A byte of a word, as the shifts in the source select it. -/
def byteOf (w i : Nat) : UInt8 := UInt8.ofNat (w >>> (8 * i))

lemma byteOf_succ (w i : Nat) : byteOf w (i + 1) = byteOf (w / 256) i := by
  rw [byteOf, byteOf, Nat.mul_succ, Nat.add_comm, Nat.shiftRight_add, Nat.shiftRight_eq_div_pow w 8]

lemma byteOf_xor (v w i : Nat) : byteOf (v ^^^ w) i = byteOf v i ^^^ byteOf w i := by
  rw [byteOf, Nat.shiftRight_xor_distrib, UInt8.ofNat_xor]
  rfl

@[simp] lemma length_storeWord (k w : Nat) : (storeWord k w).length = k := by
  induction k generalizing w with
  | zero => rfl
  | succ k ih => rw [storeWord, length_cons, ih]

lemma getElem?_storeWord (k w i : Nat) :
    (storeWord k w)[i]? = if i < k then some (byteOf w i) else none := by
  induction k generalizing w i with
  | zero => rfl
  | succ k ih =>
    cases i with
    | zero => rfl
    | succ i =>
      rw [storeWord, getElem?_cons_succ, ih, byteOf_succ]
      simp only [Nat.add_lt_add_iff_right]

lemma byteOf_loadWord {bs : Bytes} {i : Nat} {b : UInt8} (h : bs[i]? = some b) :
    byteOf (loadWord bs) i = b := by
  induction bs generalizing i with
  | nil => cases h
  | cons c bs ih =>
    have hc := c.toNat_lt
    cases i with
    | zero =>
      cases h
      rw [byteOf, Nat.mul_zero, Nat.shiftRight_zero, loadWord, ← UInt8.toNat_inj,
        UInt8.toNat_ofNat']
      omega
    | succ i =>
      rw [byteOf_succ, loadWord, show (c.toNat + 256 * loadWord bs) / 256 = loadWord bs by omega]
      exact ih h

/-! ### Masks -/

/-- The byte at a place is changed by a mask. -/
def xorAt (bs : Bytes) (i : Nat) (x : UInt8) : Bytes := bs.modify i (· ^^^ x)

def xorBytes (f : Nat → UInt8) (bs : Bytes) : Nat → Bytes
  | 0 => bs
  | i + 1 => xorAt (xorBytes f bs i) i (f i)

/-- `p[i] ^= mask` for a pointer to words of `k` bytes. -/
def xorWord (k mask : Nat) (bs : Bytes) (i : Nat) : Bytes :=
  bs.take (k * i) ++ (storeWord k (loadWord ((bs.drop (k * i)).take k) ^^^ mask) ++
    bs.drop (k * i + k))

def xorWords (k mask : Nat) (bs : Bytes) : Nat → Bytes
  | 0 => bs
  | i + 1 => xorWord k mask (xorWords k mask bs i) i

/-- The bytes behind the last word. -/
def xorRest (start mask : Nat) (bs : Bytes) : Nat → Bytes
  | 0 => bs
  | i + 1 => xorAt (xorRest start mask bs i) (start + i) (byteOf mask i)

/-- The branch for words of `k` bytes. -/
def xorMask (k : Nat) (z : BitVec 64) (bs : Bytes) : Bytes :=
  let mask := (z.setWidth (8 * k)).toNat
  let r := bs.length % k
  xorRest (bs.length - r) mask (xorWords k mask bs (bs.length / k)) r

def blobXorBlob (bs key : Bytes) : Bytes :=
  if 0 < key.length then xorBytes (fun i => key.getD (i % key.length) 0) bs bs.length else bs

/-- `none` for a size that is refused. -/
def blobXorInt (bs : Bytes) (z size : BitVec 64) : Option Bytes :=
  match (size.setWidth 8).toNat with
  | 1 => some (xorBytes (fun _ => UInt8.ofNat (z.setWidth 8).toNat) bs bs.length)
  | 2 => some (xorMask 2 z bs)
  | 4 => some (xorMask 4 z bs)
  | 8 => some (xorMask 8 z bs)
  | _ => none

/-- Every byte of `bs` before a place is changed by a mask of its own. -/
structure Masked (f : Nat → UInt8) (bs : Bytes) (n : Nat) (out : Bytes) : Prop where
  length : out.length = bs.length
  getElem? : ∀ i, out[i]? = bs[i]?.map fun b => if i < n then b ^^^ f i else b

namespace Masked

variable {f g : Nat → UInt8} {bs out out' : Bytes} {n m : Nat}

lemma start (f : Nat → UInt8) (bs : Bytes) : Masked f bs 0 bs := ⟨rfl, fun i => by simp⟩

lemma unique (h : Masked f bs n out) (h' : Masked f bs n out') : out = out' :=
  ext_getElem? fun i => (h.getElem? i).trans (h'.getElem? i).symm

lemma xorAt (h : Masked f bs n out) : Masked f bs (n + 1) (xorAt out n (f n)) where
  length := by rw [Blobs.xorAt, length_modify, h.length]
  getElem? i := by
    rw [Blobs.xorAt, getElem?_modify, h.getElem? i]
    cases bs[i]? with
    | none => rfl
    | some b =>
      rcases Nat.lt_trichotomy i n with hi | rfl | hi
      · simp [hi, Nat.lt_succ_of_lt hi, Nat.ne_of_gt hi]
      · simp
      · simp [Nat.not_lt_of_lt hi, show ¬ i < n + 1 by omega, Nat.ne_of_lt hi]

lemma of_eq (h : Masked f bs n out) (heq : ∀ i < n, f i = g i) : Masked g bs n out where
  length := h.length
  getElem? i := by
    rw [h.getElem? i]
    cases bs[i]? with
    | none => rfl
    | some b =>
      by_cases hi : i < n
      · simp [hi, heq i hi]
      · simp [hi]

lemma mapIdx (h : Masked f bs bs.length out) : out = bs.mapIdx fun i b => b ^^^ f i := by
  refine ext_getElem? fun i => ?_
  rw [h.getElem? i, getElem?_mapIdx]
  cases hb : bs[i]? with
  | none => rfl
  | some b => simp [(List.getElem?_eq_some_iff.mp hb).1]

end Masked

lemma masked_xorBytes (f : Nat → UInt8) (bs : Bytes) (n : Nat) :
    Masked f bs n (xorBytes f bs n) := by
  induction n with
  | zero => exact .start f bs
  | succ n ih => exact ih.xorAt

lemma masked_xorWord {k mask n : Nat} {bs out : Bytes}
    (h : Masked (fun i => byteOf mask (i % k)) bs (k * n) out) (hfits : k * n + k ≤ bs.length) :
    Masked (fun i => byteOf mask (i % k)) bs (k * (n + 1)) (xorWord k mask out n) where
  length := by
    simp only [xorWord, length_append, length_take, length_drop, length_storeWord, h.length]
    omega
  getElem? i := by
    have hlen := h.length
    have hi := h.getElem? i
    have htake : (out.take (k * n)).length = k * n := length_take_of_le (by omega)
    rw [xorWord, Nat.mul_succ]
    by_cases hbefore : i < k * n
    · rw [getElem?_append_left (by omega), getElem?_take_of_lt hbefore, hi]
      simp [hbefore, show i < k * n + k by omega]
    rw [getElem?_append_right (by omega), htake]
    by_cases hin : i < k * n + k
    · have hmod : i % k = i - k * n := by
        obtain ⟨j, rfl⟩ := Nat.exists_eq_add_of_le (Nat.le_of_not_lt hbefore)
        rw [Nat.mul_add_mod, Nat.mod_eq_of_lt (by omega), Nat.add_sub_cancel_left]
      have hget : i < bs.length := by omega
      have hword : ((out.drop (k * n)).take k)[i - k * n]? = some bs[i] := by
        rw [getElem?_take_of_lt (by omega), getElem?_drop,
          show k * n + (i - k * n) = i by omega, hi]
        simp [hbefore, hget]
      rw [getElem?_append_left (by rw [length_storeWord]; omega), getElem?_storeWord,
        if_pos (by omega), byteOf_xor, byteOf_loadWord hword]
      simp [hget, hin, hmod]
    · rw [getElem?_append_right (by rw [length_storeWord]; omega), length_storeWord,
        getElem?_drop, show k * n + k + (i - k * n - k) = i by omega, hi]
      simp [hbefore, hin]

lemma masked_xorWords (k mask n : Nat) (bs : Bytes) (hfits : k * n ≤ bs.length) :
    Masked (fun i => byteOf mask (i % k)) bs (k * n) (xorWords k mask bs n) := by
  induction n with
  | zero => exact .start _ bs
  | succ n ih =>
    rw [Nat.mul_succ] at hfits
    exact masked_xorWord (ih (by omega)) hfits

lemma masked_xorRest {f : Nat → UInt8} {start : Nat} (mask n : Nat) {bs out : Bytes}
    (h : Masked f bs start out) (hf : ∀ i < n, f (start + i) = byteOf mask i) :
    Masked f bs (start + n) (xorRest start mask out n) := by
  induction n with
  | zero => exact h
  | succ n ih =>
    rw [xorRest, ← hf n (Nat.lt_succ_self n)]
    exact (ih fun i hi => hf i (Nat.lt_succ_of_lt hi)).xorAt

lemma byteOf_setWidth (z : BitVec 64) {k i : Nat} (hi : i < k) :
    byteOf (z.setWidth (8 * k)).toNat i = byteOf z.toNat i := by
  refine UInt8.eq_of_toBitVec_eq (BitVec.eq_of_getLsbD_eq fun j hj => ?_)
  simp only [byteOf, UInt8.toBitVec_ofNat', BitVec.getLsbD_ofNat, Nat.testBit_shiftRight,
    BitVec.testBit_toNat, BitVec.getLsbD_setWidth]
  simp [hj, show 8 * i + j < 8 * k by omega]

lemma masked_xorMask {k : Nat} (hk : 0 < k) (z : BitVec 64) (bs : Bytes) :
    Masked (fun i => byteOf z.toNat (i % k)) bs bs.length (xorMask k z bs) := by
  have hdiv := Nat.div_add_mod bs.length k
  have hwords := masked_xorWords k (z.setWidth (8 * k)).toNat (bs.length / k) bs (by omega)
  have hstart : bs.length - bs.length % k = k * (bs.length / k) := by omega
  have hrest := masked_xorRest (z.setWidth (8 * k)).toNat (bs.length % k) hwords
    fun i hi => by
      have hlt := Nat.mod_lt bs.length hk
      rw [Nat.mul_add_mod, Nat.mod_eq_of_lt (by omega)]
  rw [hdiv] at hrest
  rw [xorMask, hstart]
  exact hrest.of_eq fun i _ => byteOf_setWidth z (Nat.mod_lt i hk)

/-- The bytes of the integer that are used, the lowest one first. -/
def lowBytes (z : BitVec 64) (k : Nat) : Bytes := storeWord k z.toNat

lemma masked_blobXorBlob {k : Nat} (hk : 0 < k) (z : BitVec 64) (bs : Bytes) :
    Masked (fun i => byteOf z.toNat (i % k)) bs bs.length (blobXorBlob bs (lowBytes z k)) := by
  rw [blobXorBlob, lowBytes, length_storeWord, if_pos hk]
  refine (masked_xorBytes _ bs _).of_eq fun i _ => ?_
  rw [getD_eq_getElem?_getD, getElem?_storeWord, if_pos (Nat.mod_lt i hk), Option.getD_some]

lemma blobXorInt_masked (bs : Bytes) (z : BitVec 64) {k : Nat} (hk : k ∈ [1, 2, 4, 8]) :
    ∃ out, blobXorInt bs z (BitVec.ofNat 64 k) = some out ∧
      Masked (fun i => byteOf z.toNat (i % k)) bs bs.length out := by
  simp only [mem_cons, not_mem_nil, or_false] at hk
  rcases hk with rfl | rfl | rfl | rfl
  · refine ⟨_, rfl, (masked_xorBytes _ bs _).of_eq fun i _ => ?_⟩
    rw [Nat.mod_one, ← byteOf_setWidth z (show 0 < 1 by decide)]
    rfl
  all_goals exact ⟨_, rfl, masked_xorMask (by decide) z bs⟩

/-- Both forms change byte `i` by byte `i mod k` of the integer, and undo themselves. -/
theorem blobXor_agree (bs : Bytes) (z : BitVec 64) (k : Nat) (hk : k ∈ [1, 2, 4, 8]) :
    blobXorInt bs z (BitVec.ofNat 64 k) = some (blobXorBlob bs (lowBytes z k)) ∧
    blobXorBlob bs (lowBytes z k) = bs.mapIdx (fun i b => b ^^^ byteOf z.toNat (i % k)) ∧
    blobXorBlob (blobXorBlob bs (lowBytes z k)) (lowBytes z k) = bs ∧
    (blobXorInt bs z (BitVec.ofNat 64 k)).bind (blobXorInt · z (BitVec.ofNat 64 k)) = some bs := by
  have hpos : 0 < k := by
    simp only [mem_cons, not_mem_nil, or_false] at hk
    omega
  have hforms (bs : Bytes) :
      blobXorInt bs z (BitVec.ofNat 64 k) = some (blobXorBlob bs (lowBytes z k)) := by
    obtain ⟨out, hout, hmasked⟩ := blobXorInt_masked bs z hk
    rw [hout, hmasked.unique (masked_blobXorBlob hpos z bs)]
  have hbytes (bs : Bytes) := (masked_blobXorBlob hpos z bs).mapIdx
  have htwice : blobXorBlob (blobXorBlob bs (lowBytes z k)) (lowBytes z k) = bs := by
    rw [hbytes, hbytes bs, mapIdx_mapIdx]
    refine ext_getElem? fun i => ?_
    rw [getElem?_mapIdx]
    simp [Function.comp_def]
  refine ⟨hforms bs, hbytes bs, htwice, ?_⟩
  rw [hforms bs, Option.bind_some, hforms, htwice]

theorem blobXor_agree_two :
    blobXorInt [1, 2, 3] 0x0504 2 = some (blobXorBlob [1, 2, 3] (lowBytes 0x0504 2)) ∧
      blobXorInt [1, 2, 3] 0x0504 2 = some [5, 7, 7] :=
  ⟨(blobXor_agree [1, 2, 3] 0x0504 2 (by decide)).1, by decide +kernel⟩

/-! ### Padding -/

/-- A vector of bytes: its memory, with what is behind the bytes in use. -/
structure Blob where
  items : Bytes
  count : Nat
  fits : count ≤ items.length

namespace Blob

def capacity (b : Blob) : Nat := b.items.length

def bytes (b : Blob) : Bytes := b.items.take b.count

lemma length_bytes (b : Blob) : b.bytes.length = b.count := length_take_of_le b.fits

end Blob

section Model

-- what new memory holds
variable (junk : Nat → UInt8)

/-- `resize`, to at least the memory there is. -/
def resized (items : Bytes) (capacity : Nat) : Bytes :=
  items ++ (List.range' items.length (capacity - items.length)).map junk

/-- `vec_reserve` -/
def reserve (b : Blob) (n : Nat) : Blob :=
  { b with
    items := resized junk b.items n
    fits := by
      rw [resized, length_append]
      exact Nat.le_add_right_of_le b.fits }

lemma reserve_bytes (b : Blob) (n : Nat) : (reserve junk b n).bytes = b.bytes :=
  take_append_of_le_length b.fits

lemma reserve_capacity (b : Blob) (n : Nat) : (reserve junk b n).capacity = max b.capacity n := by
  simp only [Blob.capacity, reserve, resized, length_append, length_map, length_range']
  omega

/-- `fit2`, for a number of rounds. -/
def fit2 : Nat → Nat → Nat → Nat
  | 0, cap, _ => cap
  | rounds + 1, cap, least => if cap < least then fit2 rounds (2 * cap) least else cap

/-- Bytes are copied behind those in use. -/
def copied (b : Blob) (s : Bytes) : Blob where
  items := b.items.take b.count ++ (s ++ b.items.drop (b.count + s.length))
  count := b.count + s.length
  fits := by
    have hfits := b.fits
    simp only [length_append, length_take, length_drop]
    omega

/-- `vec_push_n` -/
def pushN (b : Blob) (s : Bytes) : Blob :=
  if b.capacity < b.count + s.length then
    let capacity := if b.capacity = 0 then 4 else 2 * b.capacity
    copied (reserve junk b (fit2 64 capacity (b.count + s.length))) s
  else copied b s

inductive Pad where
  | integer (z : BitVec 64)
  | string (s : { s : Bytes // s.length < 2 ^ 32 })

def padLoop (goal : Nat) (s : Bytes) : Nat → Blob → Option Blob
  | 0, _ => none
  | rounds + 1, b => if b.count < goal then padLoop goal s rounds (pushN junk b s) else some b

/-- `blob_pad`, for a number of rounds of its loop. -/
def blobPad (rounds : Nat) (b : Blob) (n : BitVec 64) (pad : Pad) : Option (Blob × Bool) :=
  let goal := n.toNat
  if goal ≤ b.count then some (b, false)
  else
    match pad with
    | .integer z =>
      let r := reserve junk b goal
      let items := r.items.take r.count ++
        (replicate (goal - r.count) (UInt8.ofNat z.toNat) ++ r.items.drop goal)
      some ({ items, count := items.length, fits := Nat.le_refl _ }, true)
    | .string ⟨s, _⟩ =>
      (padLoop junk goal s rounds (reserve junk b (n + BitVec.ofNat 64 s.length).toNat)).map
        (·, true)

end Model

/-- The bytes that are added repeat those of the pad. -/
structure Padded (old new : Bytes) (n : Nat) (pad : Bytes) : Prop where
  length : new.length = max old.length n
  take : new.take old.length = old
  added : ∀ i, old.length + i < n → new[old.length + i]? = pad[i % pad.length]?

def Pad.bytes : Pad → Bytes
  | .integer z => [UInt8.ofNat z.toNat]
  | .string s => s.1

variable {junk : Nat → UInt8} {b b' : Blob} {s : Bytes} {goal : Nat}

variable (junk b s) in
lemma pushN_of_le (h : b.count + s.length ≤ b.capacity) :
    (pushN junk b s).bytes = b.bytes ++ s ∧ (pushN junk b s).capacity = b.capacity := by
  have htake := length_take_of_le b.fits
  rw [pushN, if_neg (Nat.not_lt_of_le h)]
  constructor
  · change (b.items.take b.count ++ (s ++ b.items.drop (b.count + s.length))).take
      (b.count + s.length) = b.items.take b.count ++ s
    rw [← append_assoc, take_left' (by rw [length_append, htake])]
  · rw [Blob.capacity] at h
    simp only [Blob.capacity, copied, length_append, length_drop, htake]
    omega

lemma padLoop_bytes {rounds : Nat} (hcap : goal + s.length ≤ b.capacity)
    (h : padLoop junk goal s rounds b = some b') :
    ∃ j, b'.bytes = b.bytes ++ (replicate j s).flatten := by
  induction rounds generalizing b with
  | zero => cases h
  | succ rounds ih =>
    rw [padLoop] at h
    split at h
    · obtain ⟨hbytes, hsame⟩ := pushN_of_le junk b s (by omega)
      obtain ⟨j, hj⟩ := ih (by rwa [hsame]) h
      refine ⟨j + 1, ?_⟩
      rw [hj, hbytes, replicate_succ, flatten_cons, append_assoc]
    · cases h
      exact ⟨0, by simp⟩

lemma padLoop_ends {j : Nat} (hs : s ≠ []) (hcap : goal + s.length ≤ b.capacity)
    (hgoal : goal = b.count + j * s.length) :
    ∃ b', padLoop junk goal s (j + 1) b = some b' ∧
      b'.bytes = b.bytes ++ (replicate j s).flatten := by
  have hpos := length_pos_iff.mpr hs
  induction j generalizing b with
  | zero =>
    refine ⟨b, ?_, by simp⟩
    rw [padLoop, if_neg (by omega)]
  | succ j ih =>
    rw [Nat.succ_mul] at hgoal
    obtain ⟨hbytes, hsame⟩ := pushN_of_le junk b s (by omega)
    have hcount : (pushN junk b s).count = b.count + s.length := by
      rw [← Blob.length_bytes, hbytes, length_append, Blob.length_bytes]
    obtain ⟨b', hb', hj⟩ := ih (b := pushN junk b s) (by rwa [hsame]) (by omega)
    refine ⟨b', ?_, ?_⟩
    · rwa [padLoop, if_pos (by omega)]
    · rw [hj, hbytes, replicate_succ, flatten_cons, append_assoc]

lemma padded_append {old added pad : Bytes} {n : Nat} (hn : old.length ≤ n)
    (hlen : added.length = n - old.length)
    (h : ∀ i < added.length, added[i]? = pad[i % pad.length]?) :
    Padded old (old ++ added) n pad where
  length := by
    rw [length_append]
    omega
  take := take_left
  added i hi := by
    rw [getElem?_append_right (Nat.le_add_right _ _), Nat.add_sub_cancel_left, h i (by omega)]

lemma integer_padded_iff {z : BitVec 64} {n : BitVec 64} (hn : ¬ n.toNat ≤ b.count) (rounds : Nat) :
    (∃ b' r, blobPad junk rounds b n (.integer z) = some (b', r) ∧
      Padded b.bytes b'.bytes n.toNat [UInt8.ofNat z.toNat]) ↔ b.capacity ≤ n.toNat := by
  have hcap := reserve_capacity junk b n.toNat
  have hbytes := reserve_bytes junk b n.toNat
  have hlen := (reserve junk b n.toNat).length_bytes
  rw [hbytes, b.length_bytes] at hlen
  rw [Blob.capacity] at hcap
  have hitems : ∃ b', blobPad junk rounds b n (.integer z) = some (b', true) ∧
      b'.bytes = b.bytes ++ (replicate (n.toNat - b.count) (UInt8.ofNat z.toNat) ++
        (reserve junk b n.toNat).items.drop n.toNat) := by
    refine ⟨_, by rw [blobPad]; exact if_neg hn, ?_⟩
    rw [Blob.bytes, take_length, ← hlen, ← hbytes]
    rfl
  obtain ⟨b', hb', heq⟩ := hitems
  rw [hb']
  constructor
  · rintro ⟨_, _, ⟨⟩, hpadded⟩
    have hlength := hpadded.length
    simp only [heq, length_append, length_replicate, length_drop, b.length_bytes, hcap] at hlength
    omega
  · intro hle
    refine ⟨b', true, rfl, ?_⟩
    rw [heq, drop_of_length_le (by omega), append_nil]
    refine padded_append (by rw [b.length_bytes]; omega) (by simp [b.length_bytes]) fun i hi => ?_
    rw [length_replicate] at hi
    simp [hi, Nat.mod_one]

lemma string_padded_iff {n : BitVec 64} (hn : ¬ n.toNat ≤ b.count) (hpos : 0 ≤ n.toInt)
    (hs : s.length < 2 ^ 32) :
    (∃ rounds b' r, blobPad junk rounds b n (.string ⟨s, hs⟩) = some (b', r) ∧
      Padded b.bytes b'.bytes n.toNat s) ↔ s ≠ [] ∧ s.length ∣ n.toNat - b.count := by
  have hsum : (n + BitVec.ofNat 64 s.length).toNat = n.toNat + s.length := by
    rw [BitVec.toInt_eq_toNat_cond] at hpos
    have hlt := n.isLt
    split at hpos
    · rw [BitVec.toNat_add, BitVec.toNat_ofNat]
      omega
    · omega
  have hcap := reserve_capacity junk b (n.toNat + s.length)
  have hbytes := reserve_bytes junk b (n.toNat + s.length)
  have hloop (rounds : Nat) : blobPad junk rounds b n (.string ⟨s, hs⟩) =
      (padLoop junk n.toNat s rounds (reserve junk b (n.toNat + s.length))).map (·, true) := by
    rw [blobPad, ← hsum]
    exact if_neg hn
  simp only [hloop]
  constructor
  · rintro ⟨rounds, b', r, hrun, hpadded⟩
    obtain ⟨_, hb', ⟨⟩⟩ := Option.map_eq_some_iff.mp hrun
    obtain ⟨j, hj⟩ := padLoop_bytes (by omega) hb'
    have hlength := hpadded.length
    rw [hj, hbytes, length_append, b.length_bytes, length_flatten_replicate] at hlength
    refine ⟨fun hnil => ?_, j, ?_⟩
    · rw [hnil, length_nil, Nat.mul_zero] at hlength
      omega
    · rw [Nat.mul_comm]
      omega
  · rintro ⟨hne, j, hj⟩
    rw [Nat.mul_comm] at hj
    have hcount : (reserve junk b (n.toNat + s.length)).count = b.count := rfl
    have hends : ∃ b', padLoop junk n.toNat s (j + 1) (reserve junk b (n.toNat + s.length)) =
      some b' ∧ _ :=
      padLoop_ends hne (by omega) (by omega)
    obtain ⟨b', hb', hflat⟩ := hends
    refine ⟨j + 1, b', true, by rw [hb']; rfl, ?_⟩
    rw [hflat, hbytes]
    refine padded_append (by rw [b.length_bytes]; omega) ?_ fun i hi => ?_
    · rw [length_flatten_replicate, b.length_bytes, hj]
    · rw [length_flatten_replicate] at hi
      exact getElem?_flatten_replicate j hi

/-- Padding ends with the bytes asked for exactly if there is nothing to do, or the pad is a byte
and there is no memory left, or it is a string that fits a number of times. -/
theorem blobPad_exact_iff (junk : Nat → UInt8) (b : Blob) (n : BitVec 64) (pad : Pad)
    (hn : 0 ≤ n.toInt) :
    (∃ rounds b' r, blobPad junk rounds b n pad = some (b', r) ∧
      Padded b.bytes b'.bytes n.toNat pad.bytes) ↔
    n.toNat ≤ b.count ∨
      match pad with
      | .integer _ => b.capacity ≤ n.toNat
      | .string s => s.1 ≠ [] ∧ s.1.length ∣ n.toNat - b.count := by
  by_cases hle : n.toNat ≤ b.count
  · refine iff_of_true ⟨0, b, false, if_pos hle, ?_⟩ (.inl hle)
    rw [← append_nil b.bytes]
    have hlen := b.length_bytes
    refine ⟨?_, ?_, fun i hi => ?_⟩
    · rw [append_nil, hlen]
      omega
    · rw [append_nil, take_length]
    · rw [append_nil] at hi
      omega
  · rw [or_iff_right hle]
    cases pad with
    | integer z =>
      refine Iff.trans ⟨?_, fun h => ⟨0, h⟩⟩ (integer_padded_iff hle 0)
      exact fun ⟨_, h⟩ => h
    | string s => exact string_padded_iff hle hn s.2

/-- One byte in a memory of four: padding to two takes all of it. -/
theorem blobPad_all_memory : ∃ b : Blob, b.bytes = [7] ∧
    (blobPad (fun _ => 0) 0 b 2 (.integer 1)).map (fun r => r.1.bytes) = some [7, 1, 9, 9] :=
  ⟨⟨[7, 9, 9, 9], 1, by decide⟩, rfl, by decide⟩

theorem blobPad_exact_twice : ∃ b : Blob, b.bytes = [7] ∧
    ∃ rounds b' r, blobPad (fun _ => 0) rounds b 5 (.string ⟨[1, 2], by decide⟩) = some (b', r) ∧
      Padded b.bytes b'.bytes 5 [1, 2] :=
  ⟨⟨[7, 9, 9, 9], 1, by decide⟩, rfl, (blobPad_exact_iff (fun _ => 0) ⟨[7, 9, 9, 9], 1, by decide⟩ 5
    (.string ⟨[1, 2], by decide⟩) (by decide)).mpr (.inr ⟨by decide, by decide⟩)⟩

end TyLang.Blobs
