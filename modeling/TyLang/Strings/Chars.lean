import TyLang.Strings.Slice

/-!
`char` (`src/str.c`) on strings in UTF-8. Every call of the decoder is given the size of the whole
string, also for the characters behind the first one.
-/
namespace TyLang.Strings
open List Utf8

section Model

variable (u : Utf8proc) (s : Str)

/-- A call of `utf8proc_iterate`, with what it can see of the memory. -/
def iterateAt (offset : Nat) : Int :=
  u.iterate ((s.str0.drop (s.offset + offset)).take s.bytes.toNat)

/-- The loop: the offset, the size of the character there, and the offsets of the calls. -/
def charLoop : Nat → Int → Nat → Int → Nat × Int × List Nat
  | 0, _, offset, n => (offset, n, [])
  | fuel + 1, j, offset, n =>
    if offset < s.bytes.toNat ∧ 0 < n ∧ 0 < j then
      let next := offset + (max 1 n).toNat
      let (offset', n', calls) := charLoop fuel (j - 1) next (iterateAt u s next)
      (offset', n', next :: calls)
    else (offset, n, [])

/-- Every turn of the loop passes over a byte. -/
def charWalk (i : BitVec 64) : Nat × Int × List Nat :=
  let i := if i.toInt < 0 then i.toInt + runeCount u s.text else i.toInt
  charLoop u s s.bytes.toNat i 0 (iterateAt u s 0)

/-- The offset and the size of the view, or nil. -/
def stringChar (i : BitVec 64) : Option (Nat × Nat) :=
  let (offset, n, _) := charWalk u s i
  if offset = s.bytes.toNat then none else some (offset, n.toNat)

/-- Where the calls of the decoder start. The length given is that of the string. -/
def charCalls (i : BitVec 64) : List Nat := 0 :: (charWalk u s i).2.2

end Model

variable {u : Utf8proc} {s : Str} {cs : List Char}

lemma iterateAt_encode (before : List Char) {c : Char} {rest : List Char}
    (hs : s.text = encode (before ++ c :: rest)) :
    iterateAt u s (encode before).length = (String.utf8EncodeChar c).length := by
  have hlen := congrArg length hs
  rw [encode_append, encode_cons, Str.text_length] at hlen
  simp only [length_append] at hlen
  have hmem : s.str0.drop (s.offset + (encode before).length) =
      String.utf8EncodeChar c ++ (encode rest ++ (s.str0.drop (s.offset + s.bytes.toNat))) := by
    have htext : s.str0.drop s.offset =
        encode before ++ (String.utf8EncodeChar c ++ encode rest) ++
          s.str0.drop (s.offset + s.bytes.toNat) := by
      rw [← encode_cons, ← encode_append, ← hs, Str.text, ← drop_drop, take_append_drop]
    rw [← drop_drop, htext, append_assoc, drop_left, append_assoc]
  rw [iterateAt, hmem, take_append, take_of_length_le (by omega), u.iterate_eq]

/-- From a character on, the loop passes over as many as are asked for, if there are so many. -/
lemma charLoop_encode (rest : List Char) : ∀ (before : List Char) fuel j (n : Int),
    s.text = encode (before ++ rest) → rest.length ≤ fuel →
    (∀ c r, rest = c :: r → n = (String.utf8EncodeChar c).length) →
    (charLoop u s fuel j (encode before).length n).1 =
      (encode (before ++ rest.take j.toNat)).length ∧
    (∀ c r, rest.drop j.toNat = c :: r →
      (charLoop u s fuel j (encode before).length n).2.1 = (String.utf8EncodeChar c).length) ∧
    ((charLoop u s fuel j (encode before).length n).2.2 = [] ↔ rest = [] ∨ j ≤ 0) := by
  induction rest with
  | nil =>
    intro before fuel j n hs _ _
    have hstop : charLoop u s fuel j (encode before).length n =
        ((encode before).length, n, []) := by
      have hlen := congrArg length hs
      rw [Str.text_length, append_nil] at hlen
      cases fuel with
      | zero => rfl
      | succ fuel => rw [charLoop, if_neg (by omega)]
    rw [hstop]
    simp
  | cons c rest ih =>
    intro before fuel j n hs hfuel hn
    rw [length_cons] at hfuel
    obtain _ | fuel := fuel
    · omega
    have hpos := encodeChar_length_pos c
    have hlen := congrArg length hs
    rw [encode_append, encode_cons, Str.text_length] at hlen
    simp only [length_append] at hlen
    obtain rfl := hn c rest rfl
    rw [charLoop]
    by_cases hj : 0 < j
    · have hnext : (encode before).length + (max 1 ((String.utf8EncodeChar c).length : Int)).toNat =
          (encode (before ++ [c])).length := by
        rw [encode_append, encode_cons, encode_nil, append_nil, length_append]
        omega
      have hs' : s.text = encode (before ++ [c] ++ rest) := by
        rw [hs, append_assoc, singleton_append]
      obtain ⟨hoff, hsize, -⟩ := ih (before ++ [c]) fuel (j - 1)
        (iterateAt u s (encode (before ++ [c])).length) hs' (by omega) fun d r hr => by
          rw [hr] at hs'
          exact iterateAt_encode _ hs'
      have htake : j.toNat = (j - 1).toNat + 1 := by omega
      rw [if_pos ⟨by omega, by omega, hj⟩, hnext, htake]
      refine ⟨hoff.trans ?_, hsize, by simp [hj]⟩
      rw [take_succ_cons, append_assoc, singleton_append]
    · rw [if_neg fun h => hj h.2.2, show j.toNat = 0 by omega]
      refine ⟨by simp, fun d r hr => ?_, by simp [Int.not_lt.mp hj]⟩
      cases hr
      rfl

lemma charLoop_calls_pos : ∀ fuel j offset n, ∀ r ∈ (charLoop u s fuel j offset n).2.2, 0 < r := by
  intro fuel
  induction fuel with
  | zero => exact nofun
  | succ fuel ih =>
    intro j offset n
    rw [charLoop]
    split
    · rw [forall_mem_cons]
      exact ⟨by omega, ih _ _ _⟩
    · exact nofun

/-- Where the walk starts to count, from the end for a negative number. -/
lemma charWalk_eq (hs : s.text = encode cs) (i : BitVec 64) :
    charWalk u s i = charLoop u s s.bytes.toNat
      (if i.toInt < 0 then i.toInt + cs.length else i.toInt)
        (encode []).length (iterateAt u s 0) := by
  rw [charWalk, hs, runeCount_encode]
  rfl

section Walk

variable (u) (hs : s.text = encode cs)
include hs

lemma charWalk_spec (i : BitVec 64) :
    let j := (if i.toInt < 0 then i.toInt + cs.length else i.toInt)
    (charWalk u s i).1 = (encode (cs.take j.toNat)).length ∧
    (∀ c r, cs.drop j.toNat = c :: r → (charWalk u s i).2.1 = (String.utf8EncodeChar c).length) ∧
    ((charWalk u s i).2.2 = [] ↔ cs = [] ∨ j ≤ 0) := by
  have hlen : cs.length ≤ s.bytes.toNat := by
    rw [← Str.text_length, hs]
    exact length_le_encode_length cs
  rw [charWalk_eq hs]
  exact charLoop_encode cs [] _ _ _ hs hlen fun c r hr => by
    subst hr
    exact iterateAt_encode [] hs

/-- The view is one of the character at the place, if there is one. -/
lemma stringChar_text (i : BitVec 64) : (stringChar u s i).map s.viewText =
    cs[position i cs.length]?.map String.utf8EncodeChar := by
  obtain ⟨hoff, hsize, -⟩ := charWalk_spec u hs i
  change (charWalk u s i).1 = (encode (cs.take (position i cs.length))).length at hoff
  change ∀ c r, cs.drop (position i cs.length) = c :: r → _ at hsize
  have hlen : s.bytes.toNat = (encode cs).length := by rw [← Str.text_length, hs]
  rw [stringChar]
  dsimp only
  cases hdrop : cs.drop (position i cs.length) with
  | nil =>
    have hge := drop_eq_nil_iff.mp hdrop
    rw [hoff, take_of_length_le hge, if_pos hlen.symm, getElem?_eq_none hge]
    rfl
  | cons c r =>
    have hget : cs[position i cs.length]? = some c := by rw [← head?_drop, hdrop, head?_cons]
    have hrest : (encode cs).drop (encode (cs.take (position i cs.length))).length =
        String.utf8EncodeChar c ++ encode r := by rw [drop_encode, hdrop, encode_cons]
    have hpos := encodeChar_length_pos c
    have hfits := congrArg length hrest
    rw [length_drop, length_append] at hfits
    rw [hsize c r hdrop, hoff, if_neg (by omega), hget, Option.map_some, Option.map_some,
      Int.toNat_natCast, Str.viewText_eq (by omega), hs, hrest, take_left]

end Walk

/-- What the slice of one code point at a place is, if there is such a place. -/
def sliceOne (u : Utf8proc) (s : Str) (count : Nat) (i : BitVec 64) : Option Text :=
  if -count ≤ i.toInt ∧ i.toInt < count then some (stringSlice u s i (some 1)).text else none

lemma sliceOne_eq (hs : s.text = encode cs) (i : BitVec 64) :
    sliceOne u s cs.length i = if -cs.length ≤ i.toInt then
      cs[position i cs.length]?.map String.utf8EncodeChar else none := by
  have hview := (stringSlice_isView (u := u) hs i (some 1)).text
  dsimp only at hview
  rw [show position 1 cs.length = 1 from rfl] at hview
  rw [sliceOne, hview]
  by_cases hlow : -cs.length ≤ i.toInt
  · rw [if_pos hlow]
    by_cases hhigh : i.toInt < cs.length
    · have hlt : position i cs.length < cs.length := by
        rw [position]
        split <;> omega
      rw [if_pos ⟨hlow, hhigh⟩, getElem?_eq_getElem hlt, drop_eq_getElem_cons hlt,
        take_succ_cons, take_zero, encode_cons, encode_nil, append_nil, Option.map_some]
    · rw [if_neg fun h => hhigh h.2, getElem?_eq_none]
      · rfl
      · rw [position, if_neg (by omega)]
        omega
  · rw [if_neg fun h => hlow h.1, if_neg hlow]

/-- The character is the slice exactly if the place is not before the start of a string that is
not empty. The decoder is also not given a length beyond the end exactly for the first character. -/
theorem char_eq_slice_iff (u : Utf8proc) (s : Str) (cs : List Char) (hs : s.text = encode cs)
    (i : BitVec 64) :
    ((stringChar u s i).map s.viewText = sliceOne u s cs.length i ↔
      cs = [] ∨ -cs.length ≤ i.toInt) ∧
    ((stringChar u s i).map s.viewText = sliceOne u s cs.length i ∧
      (∀ offset ∈ charCalls u s i, offset + s.bytes.toNat ≤ s.text.length) ↔
      cs = [] ∨ i.toInt = 0 ∨ i.toInt = -cs.length) := by
  have hvalue : (stringChar u s i).map s.viewText = sliceOne u s cs.length i ↔
      cs = [] ∨ -cs.length ≤ i.toInt := by
    rw [stringChar_text u hs, sliceOne_eq hs]
    split
    · next hlow => exact iff_of_true rfl (.inr hlow)
    · next hlow =>
      rw [or_iff_left hlow, Option.map_eq_none_iff, getElem?_eq_none_iff, position,
        if_pos (by omega), ← length_eq_zero_iff]
      omega
  have hcalls := (charWalk_spec u hs i).2.2
  have hsafe : (∀ offset ∈ charCalls u s i, offset + s.bytes.toNat ≤ s.text.length) ↔
      (charWalk u s i).2.2 = [] := by
    rw [charCalls, forall_mem_cons, Str.text_length, and_iff_right (by omega)]
    constructor
    · intro h
      rw [eq_nil_iff_forall_not_mem]
      intro offset hmem
      have := h offset hmem
      have := charLoop_calls_pos _ _ _ _ _ hmem
      omega
    · intro h offset hmem
      rw [h] at hmem
      cases hmem
  refine ⟨hvalue, ?_⟩
  rw [hvalue, hsafe, hcalls]
  by_cases hcs : cs = []
  · simp [hcs]
  · simp only [hcs, false_or]
    split <;> omega

/-- Before the start of `ab` there is no character, but the first one is returned. -/
theorem char_before_start : ∃ s : Str, s.text = encode ['a', 'b'] ∧
    (stringChar plainUtf8proc s (-3)).map s.viewText = some [0x61] ∧
    sliceOne plainUtf8proc s 2 (-3) = none ∧ charCalls plainUtf8proc s 1 = [0, 1] :=
  ⟨.of [0x61, 0x62] (by decide), by decide, by decide +kernel, by decide +kernel, by decide +kernel⟩

theorem char_eq_slice_first : ∃ s : Str, s.text = encode ['é', '!'] ∧
    (stringChar plainUtf8proc s 0).map s.viewText = sliceOne plainUtf8proc s 2 0 ∧
    ∀ offset ∈ charCalls plainUtf8proc s 0, offset + s.bytes.toNat ≤ s.text.length :=
  ⟨accented, by decide, (char_eq_slice_iff plainUtf8proc accented ['é', '!'] (by decide) 0).2.mpr
    (.inr (.inl rfl))⟩

end TyLang.Strings
