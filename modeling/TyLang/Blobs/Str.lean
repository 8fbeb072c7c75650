import TyLang.Blobs
import TyLang.Lib.Utf8

/-!
`Blob.str` (`src/blob.c`). Bytes that are not UTF-8 become two bytes or none. The number of
bytes to allocate has 32 bits.
-/
namespace TyLang.Blobs
open List Utf8

/-- `utf8proc_iterate`: the length of the character at the beginning of a text that is not
empty, or a negative value. -/
structure Utf8proc where
  iterate : Bytes → Int
  iterate_eq : ∀ (c : Char) (rest : Bytes),
    iterate (String.utf8EncodeChar c ++ rest) = (String.utf8EncodeChar c).length
  iterate_neg : ∀ s, s ≠ [] →
    (∀ (c : Char) (rest : Bytes), s ≠ String.utf8EncodeChar c ++ rest) → iterate s < 0

inductive StrFailure where
  | invalidArguments (start n : Int) (size : Nat)
  | outOfBounds
  /-- The rounds have run out. -/
  | rounds
  deriving DecidableEq

/-- The bytes that are selected. -/
def strSelect (blob : Bytes) (start n : Option Int) : Except StrFailure Bytes :=
  let size : Int := blob.length
  let n := match start, n with
    | none, _ => size
    | some _, none => 2 ^ 31 - 1
    | some _, some n => n
  let start := start.getD 0
  let start := if start < 0 then start + size else start
  let n := max 0 (min n (size - start))
  if start < 0 ∨ n + start > size then .error (.invalidArguments start n blob.length)
  else .ok ((blob.drop start.toNat).take n.toNat)

variable (u : Utf8proc)

/-- The loop, which fills a buffer of `room` bytes. -/
def strLoop (room : Nat) : Nat → Bytes → Bytes → Except StrFailure Bytes
  | _, [], str => .ok str
  | 0, _ :: _, _ => .error .rounds
  | rounds + 1, b :: s, str =>
    let sz := u.iterate (b :: s)
    if sz < 0 then
      if b < 0xC0 then
        if str.length + 2 ≤ room then strLoop room rounds s (str ++ [0xC2, b])
        else .error .outOfBounds
      else strLoop room rounds s str
    else if str.length + sz.toNat ≤ room then
      strLoop room rounds ((b :: s).drop sz.toNat) (str ++ (b :: s).take sz.toNat)
    else .error .outOfBounds

/-- The length of the string is one of 32 bits too, and the buffer is not longer. -/
def blobStr (blob : Bytes) (start n : Option Int) : Except StrFailure Bytes := do
  let s ← strSelect blob start n
  strLoop u (2 * s.length % 2 ^ 32) s.length s []

/-- The bytes that are written. -/
def strBytes : Nat → Bytes → Bytes
  | 0, _ => []
  | _, [] => []
  | rounds + 1, b :: s =>
    let sz := u.iterate (b :: s)
    if sz < 0 then (if b < 0xC0 then [0xC2, b] else []) ++ strBytes rounds s
    else (b :: s).take sz.toNat ++ strBytes rounds ((b :: s).drop sz.toNat)

def IsUtf8 (s : Bytes) : Prop := ∃ cs, s = encode cs

lemma encodeChar_byte : ∀ b < 192, String.utf8EncodeChar (Char.ofNat b) =
    if b < 128 then [UInt8.ofNat b] else [0xC2, UInt8.ofNat b] := by
  decide +kernel

variable {u}

/-- A byte below `0xC0` that does not begin a character, as the second of two bytes. -/
lemma isUtf8_replaced {b : UInt8} {s : Bytes}
    (hno : ∀ (c : Char) (rest : Bytes), b :: s ≠ String.utf8EncodeChar c ++ rest) :
    IsUtf8 (if b < 0xC0 then [0xC2, b] else []) := by
  split
  · next hb =>
    have hchar := encodeChar_byte b.toNat (UInt8.lt_iff_toNat_lt.mp hb)
    rw [UInt8.ofNat_toNat] at hchar
    split at hchar
    · exact absurd (by rw [hchar]; rfl) (hno (Char.ofNat b.toNat) s)
    · exact ⟨[Char.ofNat b.toNat], by rw [encode_cons, hchar]; rfl⟩
  · exact ⟨[], rfl⟩

lemma IsUtf8.append {s t : Bytes} (hs : IsUtf8 s) (ht : IsUtf8 t) : IsUtf8 (s ++ t) := by
  obtain ⟨cs, rfl⟩ := hs
  obtain ⟨ds, rfl⟩ := ht
  exact ⟨cs ++ ds, (encode_append cs ds).symm⟩

/-- What a round does, by the bytes that it takes and those that it writes. -/
lemma strBytes_step (rounds : Nat) {s : Bytes} (hs : s ≠ []) : ∃ taken written rest,
    s = taken ++ rest ∧ taken ≠ [] ∧ IsUtf8 written ∧ written.length ≤ 2 * taken.length ∧
    (IsUtf8 s → written = taken ∧ IsUtf8 rest) ∧
    strBytes u (rounds + 1) s = written ++ strBytes u rounds rest ∧
    ∀ room str, str.length ≤ room → strLoop u room (rounds + 1) s str =
      if str.length + written.length ≤ room then strLoop u room rounds rest (str ++ written)
      else .error .outOfBounds := by
  obtain ⟨b, t, rfl⟩ := exists_cons_of_ne_nil hs
  by_cases hchar : ∃ (c : Char) (rest : Bytes), b :: t = String.utf8EncodeChar c ++ rest
  · obtain ⟨c, rest, heq⟩ := hchar
    refine ⟨_, String.utf8EncodeChar c, rest, heq, String.utf8EncodeChar_ne_nil,
      ⟨[c], (append_nil _).symm⟩, by omega, fun h => ⟨rfl, ?_⟩, ?_, fun room str hstr => ?_⟩
    · obtain ⟨ds, hds⟩ := h
      cases ds with
      | nil => cases hds
      | cons d ds => exact ⟨ds, (encodeChar_append_inj (heq.symm.trans hds)).2⟩
    · simp [strBytes, heq, u.iterate_eq]
    · simp [strLoop, heq, u.iterate_eq]
  · have hno : ∀ (c : Char) (rest : Bytes), b :: t ≠ String.utf8EncodeChar c ++ rest :=
      fun c rest heq => hchar ⟨c, rest, heq⟩
    have hneg := u.iterate_neg _ hs hno
    refine ⟨[b], _, t, rfl, cons_ne_nil _ _, isUtf8_replaced hno, ?_, fun h => ?_, ?_,
      fun room str hstr => ?_⟩
    · split <;> simp
    · obtain ⟨ds, hds⟩ := h
      cases ds with
      | nil => cases hds
      | cons d ds => exact absurd hds (hno d (encode ds))
    · simp only [strBytes, hneg, ↓reduceIte]
    · simp only [strLoop, hneg, ↓reduceIte]
      split <;> simp [hstr]

lemma strBytes_spec {rounds : Nat} {s : Bytes} (h : s.length ≤ rounds) :
    IsUtf8 (strBytes u rounds s) ∧ (strBytes u rounds s).length ≤ 2 * s.length ∧
    (IsUtf8 s → strBytes u rounds s = s) ∧
    ∀ room str, str.length ≤ room → strLoop u room rounds s str =
      if str.length + (strBytes u rounds s).length ≤ room then .ok (str ++ strBytes u rounds s)
      else .error .outOfBounds := by
  induction rounds generalizing s with
  | zero =>
    obtain rfl := length_eq_zero_iff.mp (Nat.le_zero.mp h)
    refine ⟨⟨[], rfl⟩, Nat.zero_le _, fun _ => rfl, fun room str hstr => ?_⟩
    simp [strLoop, strBytes, hstr]
  | succ rounds ih =>
    by_cases hs : s = []
    · subst hs
      refine ⟨⟨[], rfl⟩, Nat.zero_le _, fun _ => rfl, fun room str hstr => ?_⟩
      simp [strLoop, strBytes, hstr]
    obtain ⟨taken, written, rest, rfl, htaken, hutf8, hlen, hsame, heq, hloop⟩ :=
      strBytes_step (u := u) rounds hs
    have hpos := length_pos_iff.mpr htaken
    rw [length_append] at h
    obtain ⟨hutf8', hlen', hsame', hloop'⟩ := ih (s := rest) (by omega)
    rw [heq]
    refine ⟨hutf8.append hutf8', ?_, fun h => ?_, fun room str hstr => ?_⟩
    · simp only [length_append]
      omega
    · obtain ⟨hw, hrest⟩ := hsame h
      rw [hw, hsame' hrest]
    · rw [hloop room str hstr]
      split
      · next hroom =>
        rw [hloop' room _ (by simpa using hroom)]
        simp only [length_append, append_assoc, Nat.add_assoc]
      · rw [if_neg (by rw [length_append]; omega)]

lemma blobStr_eq {blob s : Bytes} {start n : Option Int} (h : strSelect blob start n = .ok s) :
    blobStr u blob start n =
      if (strBytes u s.length s).length ≤ 2 * s.length % 2 ^ 32 then .ok (strBytes u s.length s)
      else .error .outOfBounds := by
  rw [blobStr, h]
  have hloop := (strBytes_spec (u := u) (Nat.le_refl s.length)).2.2.2
    (2 * s.length % 2 ^ 32) [] (Nat.zero_le _)
  simp only [nil_append, length_nil, Nat.zero_add] at hloop
  exact hloop

lemma strSelect_all (s : Bytes) : strSelect s none none = .ok s := by
  simp [strSelect]

theorem blobStr_iff (u : Utf8proc) {blob s : Bytes} {start n : Option Int}
    (h : strSelect blob start n = .ok s) :
    (∃ str, blobStr u blob start n = .ok str ∧ IsUtf8 str ∧ str.length ≤ 2 * s.length ∧
      (IsUtf8 s → str = s) ∧ blobStr u str none none = .ok str) ↔
      (strBytes u s.length s).length < 2 ^ 31 ∧
        (strBytes u s.length s).length ≤ 2 * s.length % 2 ^ 32 := by
  obtain ⟨hutf8, hlen, hsame, -⟩ := strBytes_spec (u := u) (Nat.le_refl s.length)
  have hagain := (strBytes_spec (u := u) (Nat.le_refl (strBytes u s.length s).length)).2.2.1 hutf8
  rw [blobStr_eq h]
  constructor
  · rintro ⟨str, hstr, -, -, -, hstr'⟩
    split at hstr
    · next hroom =>
      cases hstr
      rw [blobStr_eq (strSelect_all _), hagain] at hstr'
      split at hstr'
      · omega
      · cases hstr'
    · cases hstr
  · rintro ⟨hshort, hroom⟩
    refine ⟨_, if_pos hroom, hutf8, hlen, hsame, ?_⟩
    rw [blobStr_eq (strSelect_all _), hagain, if_pos (by omega)]

/-- The decoder of the standard library. -/
def plainUtf8proc : Utf8proc where
  iterate s := match s.toByteArray.utf8DecodeChar? 0 with
    | some c => c.utf8Size
    | none => -1
  iterate_eq c rest := by
    rw [toByteArray_append, ByteArray.utf8DecodeChar?_utf8EncodeChar_append,
      String.length_utf8EncodeChar]
  iterate_neg s _ hno := by
    split
    · next c hc =>
      obtain ⟨l, hl⟩ := ByteArray.exists_of_utf8DecodeChar?_eq_some hc
      refine absurd ?_ (hno c l.data.toList)
      simpa using congrArg (·.data.toList) hl
    · decide

theorem blobStr_a : ∃ str, blobStr plainUtf8proc [0x61, 0xFF] (some (-2)) none = .ok str ∧
    IsUtf8 str ∧ str.length ≤ 4 ∧ (IsUtf8 [0x61, 0xFF] → str = [0x61, 0xFF]) ∧
    blobStr plainUtf8proc str none none = .ok str :=
  (blobStr_iff plainUtf8proc (s := [0x61, 0xFF]) (by decide)).mpr (by decide +kernel)

/-- For a text of two gigabytes no byte is allocated. -/
theorem blobStr_gigabytes :
    blobStr plainUtf8proc (encode (replicate (2 ^ 31) 'a')) none none =
      .error .outOfBounds := by
  have hlen (k : Nat) : (encode (replicate k 'a')).length = k := by
    induction k with
    | zero => rfl
    | succ k ih => rw [replicate_succ, encode_cons, length_append, ih, Nat.add_comm]; rfl
  have hsame := (strBytes_spec (u := plainUtf8proc)
    (Nat.le_refl (encode (replicate (2 ^ 31) 'a')).length)).2.2.1 ⟨_, rfl⟩
  rw [blobStr_eq (strSelect_all _), hsame, hlen, if_neg (by decide)]

end TyLang.Blobs
