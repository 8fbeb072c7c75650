import TyLang.Lib.Repetition
import TyLang.Strings.Slice

/-!
`lpad` and `rpad` (`src/str.c`) on strings in UTF-8. The size of the memory for the result is
given to `value_string_alloc` as a `u32`.
-/
namespace TyLang.Strings
open List Utf8 Repetition Option

section Model

variable (u : Utf8proc)

/-- `memcpy` behind what has been written; `none` is a write behind the memory. -/
def memcpy (size : Nat) (result data : Text) : Option Text :=
  if result.length + data.length ≤ size then some (result ++ data) else none

/-- The loop that writes whole pads, from a number of code points on. -/
def padLoop (size : Nat) (pad : Text) (padLen goal : Int) : Nat → Int → Text → Option (Int × Text)
  | 0, _, _ => none
  | fuel + 1, current, result =>
    if current + padLen ≤ goal then
      (memcpy size result pad).bind (padLoop size pad padLen goal fuel (current + padLen))
    else some (current, result)

/-- Whole pads, and a part of one. Every turn of the loop adds a code point. -/
def writePads (size : Nat) (pad : Text) (padLen goal current : Int) (result : Text) : Option Text :=
  (padLoop size pad padLen goal ((goal - current).toNat + 1) current result).bind
    fun (current, result) =>
      if current ≠ goal then memcpy size result (pad.take (xXX u pad (goal - current)))
      else some result

/-- The bytes and the code points of the pad, which is a space if none is given. -/
def padOf (pad : Option Str) : Text × Int :=
  match pad with
  | none => ([32], 1)
  | some pad => (pad.text, runeCount u pad.text)

def padSize (string : Str) (pad : Text) (padLen missing : Int) : BitVec 32 :=
  BitVec.ofInt 32 (string.bytes.toNat + pad.length * (missing / padLen + 1))

/-- `STRING` of new memory. -/
def newString (result : Text) : Str where
  str0 := result
  offset := 0
  bytes := BitVec.ofNat 32 result.length
  null := false
  fits := Str.fits_ofNat result
  null_empty := Str.empty_of_null result

/-- `none` is a division by zero or a write behind the memory. -/
def stringPadLeft (string : Str) (width : BitVec 64) (pad : Option Str) : Option Str :=
  let len := runeCount u string.text
  if width.toInt ≤ len then some string
  else
    let (pad, padLen) := padOf u pad
    if padLen = 0 then none
    else
      let size := (padSize string pad padLen (width.toInt - len)).toNat
      (writePads u size pad padLen (width.toInt - len) 0 []).bind fun result =>
        (memcpy size result string.text).map newString

def stringPadRight (string : Str) (width : BitVec 64) (pad : Option Str) : Option Str :=
  let len := runeCount u string.text
  if width.toInt ≤ len then some string
  else
    let (pad, padLen) := padOf u pad
    if padLen = 0 then none
    else
      let size := (padSize string pad padLen (width.toInt - len)).toNat
      (memcpy size [] string.text).bind fun result =>
        (writePads u size pad padLen width.toInt len result).map newString

end Model

variable {u : Utf8proc} {size : Nat} {string : Str} {cs ps : List Char} {result : Text}

lemma memcpy_memcpy (size : Nat) (result a b : Text) :
    (memcpy size result a).bind (memcpy size · b) = memcpy size result (a ++ b) := by
  unfold memcpy
  split
  · simp only [bind_some, length_append, append_assoc, Nat.add_assoc]
  · next h =>
    rw [if_neg (by rw [length_append]; omega)]
    rfl

/-- What is missing is written, the pad repeated and cut. -/
lemma writePads_eq (hps : ps ≠ []) {goal current : Int} (missing : Nat)
    (hgoal : goal = current + missing) (hresult : result.length ≤ size) :
    writePads u size (encode ps) ps.length goal current result =
      memcpy size result (encode (repeated ps missing)) := by
  have hpos := length_pos_iff.mpr hps
  have hloop : ∀ fuel missing current result, missing < fuel → result.length ≤ size →
      goal = current + (missing : Nat) →
      ((padLoop size (encode ps) ps.length goal fuel current result).bind fun (current, result) =>
        if current ≠ goal then memcpy size result
          ((encode ps).take (xXX u (encode ps) (goal - current)))
        else some result) = memcpy size result (encode (repeated ps missing)) := by
    intro fuel
    induction fuel with
    | zero => omega
    | succ fuel ih =>
      intro missing current result hfuel hresult hgoal
      rw [padLoop]
      by_cases hle : ps.length ≤ missing
      · rw [if_pos (by omega), repeated_of_le hps hle, encode_append, ← memcpy_memcpy]
        cases hcopy : memcpy size result (encode ps) with
        | none => rfl
        | some result' =>
          have hresult' : result'.length ≤ size := by
            unfold memcpy at hcopy
            split at hcopy
            · cases hcopy
              rwa [length_append]
            · cases hcopy
          exact ih (missing - ps.length) _ result' (by omega) hresult' (by omega)
      · rw [if_neg (by omega), bind_some, repeated_of_lt hps (by omega)]
        dsimp only
        by_cases hzero : missing = 0
        · rw [if_neg (by omega), hzero, take_zero, encode_nil, memcpy,
            if_pos (by simpa using hresult), append_nil]
        · rw [if_pos (by omega), xXX_encode, take_encode,
            show (goal - current).toNat = missing by omega]
  exact hloop _ missing current result (by omega) hresult hgoal

lemma length_encode_repeated (hps : ps ≠ []) (n : Nat) :
    (encode ps).length * (n / ps.length) ≤ (encode (repeated ps n)).length ∧
      (encode (repeated ps n)).length ≤ (encode ps).length * (n / ps.length + 1) := by
  have hpos := length_pos_iff.mpr hps
  induction n using Nat.strongRecOn with
  | ind n ih =>
    by_cases hle : ps.length ≤ n
    · obtain ⟨hlow, hhigh⟩ := ih (n - ps.length) (by omega)
      rw [repeated_of_le hps hle, encode_append, length_append, Nat.div_eq_sub_div hpos hle]
      simp only [Nat.mul_add, Nat.mul_one] at hhigh ⊢
      omega
    · rw [repeated_of_lt hps (by omega), Nat.div_eq_of_lt (by omega), ← take_encode]
      have := (List.take_prefix (encode (ps.take n)).length (encode ps)).length_le
      omega

/-- The number of bytes that the source asks for. -/
def padBytes (string : Str) (ps : List Char) (missing : Nat) : Nat :=
  string.bytes.toNat + (encode ps).length * (missing / ps.length + 1)

lemma padSize_eq (string : Str) (ps : List Char) (missing : Nat) :
    (padSize string (encode ps) ps.length missing).toNat = padBytes string ps missing % 2 ^ 32 := by
  rw [padSize, BitVec.toNat_ofInt, padBytes]
  norm_cast

/-- If the number does not fit, more is written than the memory holds. -/
lemma written_le_iff (hs : string.text = encode cs) (hps : ps ≠ [])
    (hpad : (encode ps).length < 2 ^ 32) (missing : Nat) :
    (encode cs).length + (encode (repeated ps missing)).length ≤
      padBytes string ps missing % 2 ^ 32 ↔ padBytes string ps missing < 2 ^ 32 := by
  obtain ⟨hlow, hhigh⟩ := length_encode_repeated hps missing
  have hlen : string.bytes.toNat = (encode cs).length := by rw [← Str.text_length, hs]
  rw [padBytes, hlen]
  rw [Nat.mul_succ] at *
  omega

lemma newString_text (h : result.length < 2 ^ 32) : (newString result).text = result :=
  Str.text_of result h

/-- The characters that are added: the pad repeated, and cut. -/
structure IsPadding (ps ds : List Char) (missing : Nat) : Prop where
  length : ds.length = missing
  getElem? : ∀ i < missing, ds[i]? = ps[i % ps.length]?

section Pad

variable {pad : Option Str} {width : BitVec 64} (hs : string.text = encode cs)
  (hpad : padOf u pad = (encode ps, (ps.length : Int))) (hlt : (encode ps).length < 2 ^ 32)
  (hwidth : ¬ width.toInt ≤ cs.length)
include hs hpad hlt hwidth

lemma stringPadLeft_eq {missing : Nat} (hmissing : width.toInt - cs.length = missing) :
    stringPadLeft u string width pad =
      if ps ≠ [] ∧ padBytes string ps missing < 2 ^ 32 then
        some (newString (encode (repeated ps missing ++ cs)))
      else none := by
  simp only [stringPadLeft, hs, runeCount_encode, if_neg hwidth, hpad, hmissing]
  by_cases hps : ps = []
  · simp [hps]
  rw [if_neg (by simpa using hps), padSize_eq,
    writePads_eq hps _ (Int.zero_add _).symm (Nat.zero_le _)]
  refine Eq.trans (map_bind ..).symm ?_
  rw [memcpy_memcpy, ← encode_append, memcpy, nil_append, length_nil, Nat.zero_add,
    encode_append, length_append, Nat.add_comm, apply_ite (Option.map newString)]
  refine if_congr ?_ rfl rfl
  rw [written_le_iff hs hps hlt, and_iff_right hps]

lemma stringPadRight_eq {missing : Nat} (hmissing : width.toInt - cs.length = missing) :
    stringPadRight u string width pad =
      if ps ≠ [] ∧ padBytes string ps missing < 2 ^ 32 then
        some (newString (encode (cs ++ repeated ps missing)))
      else none := by
  simp only [stringPadRight, hs, runeCount_encode, if_neg hwidth, hpad, hmissing]
  by_cases hps : ps = []
  · simp [hps]
  have hwritten := written_le_iff hs hps hlt missing
  rw [if_neg (by simpa using hps), padSize_eq, memcpy, nil_append, length_nil, Nat.zero_add]
  by_cases hfits : padBytes string ps missing < 2 ^ 32
  · have hle := hwritten.mpr hfits
    rw [if_pos (by omega), bind_some, writePads_eq hps missing (by omega) (by omega),
      memcpy, if_pos hle, if_pos ⟨hps, hfits⟩, encode_append]
    rfl
  · rw [if_neg (show ¬ (ps ≠ [] ∧ _) from fun h => hfits h.2)]
    split
    · next hle =>
      rw [bind_some, writePads_eq hps missing (by omega) hle, memcpy,
        if_neg (mt hwritten.mp hfits)]
      rfl
    · rfl

end Pad

lemma padOf_eq {pad : Option Str} {ps : List Char}
    (hp : encode ps = match pad with | none => [32] | some pad => pad.text) :
    padOf u pad = (encode ps, (ps.length : Int)) ∧ (encode ps).length < 2 ^ 32 := by
  cases pad with
  | none =>
    have hone : ps = [' '] := by
      have hpre : encode ps <+: encode [' '] := by rw [hp]; exact List.prefix_refl _
      have hpre' : encode [' '] <+: encode ps := by rw [hp]; exact List.prefix_refl _
      exact (encode_prefix_iff.mp hpre).eq_of_length_le (encode_prefix_iff.mp hpre').length_le
    subst hone
    exact ⟨rfl, by decide⟩
  | some pad =>
    dsimp only at hp
    refine ⟨?_, ?_⟩
    · rw [padOf, ← hp, runeCount_encode]
    · rw [hp]
      exact pad.text_length_lt

/-- Padding returns the padded string exactly if there is nothing to add, or the pad is not empty
and the number of bytes asked for is one of type `u32`. -/
theorem pad_exact_iff (u : Utf8proc) (string : Str) (cs : List Char) (hs : string.text = encode cs)
    (width : BitVec 64) (pad : Option Str) (ps : List Char)
    (hp : encode ps = match pad with | none => [32] | some pad => pad.text) :
    ((∃ r ds, stringPadLeft u string width pad = some r ∧ r.text = encode (ds ++ cs) ∧
        IsPadding ps ds (width.toInt - cs.length).toNat) ∧
      ∃ r ds, stringPadRight u string width pad = some r ∧ r.text = encode (cs ++ ds) ∧
        IsPadding ps ds (width.toInt - cs.length).toNat) ↔
    width.toInt ≤ cs.length ∨
      ps ≠ [] ∧ padBytes string ps (width.toInt - cs.length).toNat < 2 ^ 32 := by
  obtain ⟨hpad, hlt⟩ := padOf_eq (u := u) hp
  by_cases hwidth : width.toInt ≤ cs.length
  · refine iff_of_true ?_ (.inl hwidth)
    have hnone : IsPadding ps [] (width.toInt - cs.length).toNat := by
      rw [show (width.toInt - cs.length).toNat = 0 by omega]
      exact ⟨rfl, nofun⟩
    simp only [stringPadLeft, stringPadRight, hs, runeCount_encode, if_pos hwidth]
    exact ⟨⟨string, [], rfl, hs, hnone⟩, string, [], rfl, by rw [hs, append_nil], hnone⟩
  · obtain ⟨missing, hmissing⟩ : ∃ k : Nat, width.toInt - cs.length = k :=
      ⟨(width.toInt - cs.length).toNat, by omega⟩
    rw [or_iff_right hwidth, stringPadLeft_eq hs hpad hlt hwidth hmissing,
      stringPadRight_eq hs hpad hlt hwidth hmissing, hmissing, Int.toNat_natCast]
    constructor
    · rintro ⟨⟨r, ds, hr, -⟩, -⟩
      split at hr
      · next h => exact h
      · cases hr
    · rintro ⟨hps, hfits⟩
      have hwritten := (written_le_iff hs hps hlt missing).mpr hfits
      have hpadding : IsPadding ps (repeated ps missing) missing :=
        ⟨length_repeated hps missing, fun i hi => getElem?_repeated hps hi⟩
      rw [if_pos ⟨hps, hfits⟩, if_pos ⟨hps, hfits⟩]
      refine ⟨⟨_, _, rfl, newString_text ?_, hpadding⟩, _, _, rfl, newString_text ?_, hpadding⟩
      all_goals
        rw [encode_append, length_append]
        omega

/-- With an empty pad, the missing code points are divided by zero. -/
theorem pad_empty : ∃ string pad : Str, string.text = encode ['a'] ∧ pad.text = encode [] ∧
    stringPadLeft plainUtf8proc string 2 (some pad) = none :=
  ⟨.of [0x61] (by decide), stringEmpty, by decide, rfl, by decide +kernel⟩

theorem pad_exact_five : ∃ string pad : Str, string.text = encode ['a'] ∧
    pad.text = encode ['é', 'b'] ∧
    ∃ r ds, stringPadLeft plainUtf8proc string 4 (some pad) = some r ∧
    r.text = encode (ds ++ ['a']) ∧
      IsPadding ['é', 'b'] ds 3 :=
  ⟨.of [0x61] (by decide), .of [0xC3, 0xA9, 0x62] (by decide), by decide, by decide,
    ((pad_exact_iff plainUtf8proc (.of [0x61] (by decide)) ['a'] (by decide) 4
      (some (.of [0xC3, 0xA9, 0x62] (by decide))) ['é', 'b'] (by decide)).mpr
      (.inr ⟨by decide, by decide⟩)).1⟩

end TyLang.Strings
