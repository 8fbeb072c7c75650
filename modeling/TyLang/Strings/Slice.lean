import TyLang.Lib.Utf8
import TyLang.Strings.Model

/-!
`String.slice` (`src/str.c`) on strings in UTF-8. The places are found by decoding, with
limits that are numbers of bytes.
-/
namespace TyLang.Strings
open List Utf8

/-- What comes from `utf8proc`. -/
structure Utf8proc where
  iterate : Text → Int
  iterate_le : ∀ s, iterate s ≤ s.length
  iterate_eq : ∀ (c : Char) (rest : Text),
    iterate (String.utf8EncodeChar c ++ rest) = (String.utf8EncodeChar c).length

section Model

variable (u : Utf8proc)

def runeCountLoop : Nat → Text → Int → Int
  | 0, _, count => count
  | fuel + 1, s, count =>
    if s = [] then count
    else
      let bytes := u.iterate s
      if bytes ≤ 0 then runeCountLoop fuel (s.drop 1) count
      else runeCountLoop fuel (s.drop bytes.toNat) (count + 1)

/-- Every turn of the loop passes over a byte, so there are no more turns than bytes. -/
def runeCount (s : Text) : Int := runeCountLoop u s.length s 0

def runeBytes (s : Text) : Nat :=
  let bytes := u.iterate s
  if bytes ≤ 0 then 1 else bytes.toNat

def xXXLoop (s : Text) (ncp : Int) : Nat → Nat → Int → Nat
  | 0, off, _ => off
  | fuel + 1, off, count =>
    if off < s.length ∧ count < ncp then
      xXXLoop s ncp fuel (off + runeBytes u (s.drop off)) (count + 1)
    else off

/-- `x_x_x`: the number of bytes of the first `ncp` code points. -/
def xXX (s : Text) (ncp : Int) : Nat := xXXLoop u s ncp s.length 0 0

lemma runeBytes_le {s : Text} (hs : s ≠ []) : runeBytes u s ≤ s.length := by
  have hpos := length_pos_iff.mpr hs
  have hle := u.iterate_le s
  unfold runeBytes
  dsimp only
  split <;> omega

lemma xXXLoop_le (s : Text) (ncp : Int) : ∀ fuel off count, off ≤ s.length →
    xXXLoop u s ncp fuel off count ≤ s.length := by
  intro fuel
  induction fuel with
  | zero => exact fun off count hoff => hoff
  | succ fuel ih =>
    intro off count hoff
    rw [xXXLoop]
    split
    · next hgo =>
      have hne : s.drop off ≠ [] := by
        rw [Ne, drop_eq_nil_iff]
        omega
      have hle := runeBytes_le u hne
      rw [length_drop] at hle
      exact ih _ _ (by omega)
    · exact hoff

lemma xXX_le (s : Text) (ncp : Int) : xXX u s ncp ≤ s.length :=
  xXXLoop_le u s ncp _ _ _ (Nat.zero_le _)

/-- The start and the number of code points, counted from the end if they are negative. -/
def fromEnd (s : Text) (i n : Int) : Int × Int :=
  if i < 0 ∨ n < 0 then
    let ncp := runeCount u s
    (if i < 0 then i + ncp else i, if n < 0 then n + ncp else n)
  else (i, n)

def stringSlice (s : Str) (i : BitVec 64) (n : Option (BitVec 64)) : Str :=
  let sz : Int := s.bytes.toNat
  let (i, n) := fromEnd u s.text i.toInt (match n with | some n => n.toInt | none => sz)
  let i := min (max 0 i) sz
  let n := min (max 0 n) sz
  let drop := xXX u s.text i
  let take := xXX u (s.text.drop drop) n
  stringView s drop take (by
    have hdrop := xXX_le u s.text i
    have htake := xXX_le u (s.text.drop drop) n
    rw [length_drop] at htake
    rw [Str.text_length] at hdrop htake
    omega)

end Model

section Valid

variable {u : Utf8proc}

lemma runeBytes_encode (c : Char) (cs : List Char) :
    runeBytes u (encode (c :: cs)) = (String.utf8EncodeChar c).length := by
  have hpos := encodeChar_length_pos c
  unfold runeBytes
  rw [encode_cons, u.iterate_eq]
  rw [if_neg (by omega), Int.toNat_natCast]

lemma runeCountLoop_encode (cs : List Char) : ∀ fuel count, cs.length ≤ fuel →
    runeCountLoop u fuel (encode cs) count = count + cs.length := by
  induction cs with
  | nil =>
    intro fuel count _
    cases fuel <;> simp [runeCountLoop]
  | cons c cs ih =>
    intro fuel count hfuel
    rw [length_cons] at hfuel
    obtain _ | fuel := fuel
    · omega
    have hpos := encodeChar_length_pos c
    have hne : String.utf8EncodeChar c ++ encode cs ≠ [] :=
      append_ne_nil_of_left_ne_nil (length_pos_iff.mp hpos) _
    rw [runeCountLoop, encode_cons, u.iterate_eq, if_neg hne]
    rw [if_neg (by omega),
      Int.toNat_natCast, drop_left, ih fuel (count + 1) (by omega), length_cons]
    omega

lemma runeCount_encode (cs : List Char) : runeCount u (encode cs) = cs.length := by
  rw [runeCount, runeCountLoop_encode cs _ _ (length_le_encode_length cs), Int.zero_add]

lemma xXXLoop_encode (ncp : Int) (cs : List Char) : ∀ (before : List Char) fuel count,
    cs.length ≤ fuel →
    xXXLoop u (encode (before ++ cs)) ncp fuel (encode before).length count =
      (encode (before ++ cs.take (ncp - count).toNat)).length := by
  induction cs with
  | nil =>
    intro before fuel count _
    cases fuel <;> simp [xXXLoop]
  | cons c cs ih =>
    intro before fuel count hfuel
    rw [length_cons] at hfuel
    obtain _ | fuel := fuel
    · omega
    have hpos := encodeChar_length_pos c
    have hoff : (encode before).length < (encode (before ++ c :: cs)).length := by
      rw [encode_append, encode_cons, length_append, length_append]
      omega
    rw [xXXLoop]
    by_cases hcount : count < ncp
    · have hnext : (encode before).length + (String.utf8EncodeChar c).length =
          (encode (before ++ [c])).length := by
        rw [encode_append, encode_cons, encode_nil, append_nil, length_append]
      have htake : (ncp - count).toNat = (ncp - (count + 1)).toNat + 1 := by omega
      rw [if_pos ⟨hoff, hcount⟩, encode_append, drop_left, runeBytes_encode, hnext,
        ← encode_append, append_cons, ih (before ++ [c]) fuel (count + 1) (by omega), htake,
        take_succ_cons, append_assoc, singleton_append]
    · rw [if_neg fun h => hcount h.2, show (ncp - count).toNat = 0 by omega, take_zero, append_nil]

lemma xXX_encode (cs : List Char) (ncp : Int) :
    xXX u (encode cs) ncp = (encode (cs.take ncp.toNat)).length := by
  have hloop := xXXLoop_encode (u := u) ncp cs [] _ 0 (length_le_encode_length cs)
  rwa [nil_append, nil_append, Int.sub_zero] at hloop

lemma take_clamped {cs : List Char} {sz : Nat} (hsz : cs.length ≤ sz) (n : Int) :
    cs.take (min (max 0 n) sz).toNat = cs.take n.toNat := by
  by_cases hn : n ≤ sz
  · rw [show (min (max 0 n) (sz : Int)).toNat = n.toNat by omega]
  · rw [take_of_length_le (by omega), take_of_length_le (by omega)]

lemma fromEnd_encode (cs : List Char) (i n : Int) :
    fromEnd u (encode cs) i n =
      (if i < 0 then i + cs.length else i, if n < 0 then n + cs.length else n) := by
  unfold fromEnd
  split
  · rw [runeCount_encode]
  · next h =>
    rw [not_or] at h
    rw [if_neg h.1, if_neg h.2]

/-- A place in the string, counted from the end if it is negative, and not before the start. -/
def position (z : BitVec 64) (count : Nat) : Nat :=
  (if z.toInt < 0 then z.toInt + count else z.toInt).toNat

/-- A part of the string, behind some of its characters. -/
structure IsView (v s : Str) (before chars : List Char) : Prop where
  str0 : v.str0 = s.str0
  offset : v.offset = s.offset + (encode before).length
  text : v.text = encode chars

/-- The slice between two places in the string. -/
lemma stringSlice_isView {s : Str} {cs : List Char} (hs : s.text = encode cs) (i : BitVec 64)
    (n : Option (BitVec 64)) :
    IsView (stringSlice u s i n) s (cs.take (position i cs.length))
      ((cs.drop (position i cs.length)).take
        (match n with | some n => position n cs.length | none => (encode cs).length)) := by
  have hle := length_le_encode_length cs
  have hsz : s.bytes.toNat = (encode cs).length := by rw [← hs, Str.text_length]
  have hclamp := take_clamped hle (if i.toInt < 0 then i.toInt + cs.length else i.toInt)
  refine ⟨rfl, ?_, ?_⟩
  · simp only [stringSlice, stringView]
    rw [hs, hsz, fromEnd_encode, xXX_encode, hclamp]
    rfl
  simp only [stringSlice, text_stringView]
  rw [hs, hsz, fromEnd_encode, xXX_encode, hclamp, drop_encode, xXX_encode]
  have hle' : (cs.drop (position i cs.length)).length ≤ (encode cs).length := by
    rw [length_drop]
    omega
  cases n with
  | some n =>
    rw [← position, take_clamped hle', take_encode]
    rfl
  | none =>
    dsimp only
    rw [← position, take_clamped hle', if_neg (by omega), Int.toNat_natCast, take_encode]

end Valid

lemma position_ofNat {k count : Nat} (hk : k < 2 ^ 32) :
    position (BitVec.ofNat 64 k) count = k := by
  have htoInt : (BitVec.ofNat 64 k).toInt = k := by
    rw [BitVec.toInt_ofNat', Int.bmod_eq_of_le] <;> omega
  rw [position, htoInt, if_neg (by omega), Int.toNat_natCast]

/-- Slicing is slicing of the list of characters, and two slices at the same place make up
the string. -/
theorem stringSlice_eq_slice (u : Utf8proc) (s : Str) (cs : List Char) (hs : s.text = encode cs) :
    (∀ i n, IsView (stringSlice u s i (some n)) s (cs.take (position i cs.length))
      ((cs.drop (position i cs.length)).take (position n cs.length))) ∧
    (∀ i, IsView (stringSlice u s i none) s (cs.take (position i cs.length))
      (cs.drop (position i cs.length))) ∧
    ∀ k ≤ cs.length, (opBuiltinAdd (stringSlice u s 0 (some (BitVec.ofNat 64 k)))
      (stringSlice u s (BitVec.ofNat 64 k) none)).text = s.text := by
  have hle := length_le_encode_length cs
  have hlt := s.text_length_lt
  rw [hs] at hlt
  have hrest (i : BitVec 64) : IsView (stringSlice u s i none) s (cs.take (position i cs.length))
      (cs.drop (position i cs.length)) := by
    have hall : (cs.drop (position i cs.length)).take (encode cs).length =
        cs.drop (position i cs.length) := by
      rw [take_of_length_le]
      rw [length_drop]
      omega
    have hview := stringSlice_isView (u := u) hs i none
    rwa [hall] at hview
  refine ⟨fun i n => stringSlice_isView hs i (some n), hrest, fun k hk => ?_⟩
  have hleft := (stringSlice_isView (u := u) hs 0 (some (BitVec.ofNat 64 k))).text
  have hright := (hrest (BitVec.ofNat 64 k)).text
  rw [position_ofNat (by omega)] at hright
  dsimp only at hleft
  rw [position_ofNat (by omega), show position 0 cs.length = 0 from rfl, drop_zero] at hleft
  have hjoin : encode (cs.take k) ++ encode (cs.drop k) = encode cs := by
    rw [← encode_append, take_append_drop]
  rw [text_opBuiltinAdd, hleft, hright, hjoin, hs]
  rwa [hleft, hright, ← length_append, hjoin]

def plainIterate (s : Text) : Int :=
  match s.toByteArray.utf8DecodeChar? 0 with
  | some c => min (String.utf8EncodeChar c).length s.length
  | none => -3

lemma plainIterate_le (s : Text) : plainIterate s ≤ s.length := by
  unfold plainIterate
  split <;> omega

lemma plainIterate_eq (c : Char) (rest : Text) :
    plainIterate (String.utf8EncodeChar c ++ rest) = (String.utf8EncodeChar c).length := by
  rw [plainIterate, toByteArray_append, ByteArray.utf8DecodeChar?_utf8EncodeChar_append,
    length_append]
  dsimp only
  omega

def plainUtf8proc : Utf8proc where
  iterate := plainIterate
  iterate_le := plainIterate_le
  iterate_eq := plainIterate_eq

def accented : Str := .of [0xC3, 0xA9, 0x21] (by decide)

theorem stringSlice_accented :
    IsView (stringSlice plainUtf8proc accented (-1) (some 5)) accented ['é'] ['!'] :=
  (stringSlice_eq_slice plainUtf8proc accented ['é', '!'] (by decide)).1 (-1) 5

end TyLang.Strings
