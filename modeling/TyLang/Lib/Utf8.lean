import Mathlib

/-!
Lists of characters in UTF-8.
-/
namespace TyLang.Utf8
open List

def encode (cs : List Char) : List UInt8 := cs.flatMap String.utf8EncodeChar

@[simp] lemma encode_nil : encode [] = [] := rfl

lemma encode_cons (c : Char) (cs : List Char) :
    encode (c :: cs) = String.utf8EncodeChar c ++ encode cs := flatMap_cons

lemma encode_append (cs ds : List Char) : encode (cs ++ ds) = encode cs ++ encode ds :=
  flatMap_append

lemma encodeChar_length_pos (c : Char) : 0 < (String.utf8EncodeChar c).length := by
  rw [String.length_utf8EncodeChar]
  exact c.utf8Size_pos

lemma length_le_encode_length (cs : List Char) : cs.length ≤ (encode cs).length := by
  induction cs with
  | nil => exact .refl
  | cons c cs ih =>
    have hpos := encodeChar_length_pos c
    rw [encode_cons, length_append, length_cons]
    omega

lemma drop_encode (cs : List Char) (k : Nat) :
    (encode cs).drop (encode (cs.take k)).length = encode (cs.drop k) := by
  conv_lhs => rw [← take_append_drop k cs, encode_append]
  rw [take_append_drop, drop_left]

lemma take_encode (cs : List Char) (k : Nat) :
    (encode cs).take (encode (cs.take k)).length = encode (cs.take k) := by
  conv_lhs => rw [← take_append_drop k cs, encode_append]
  rw [take_append_drop, take_left]

lemma encodeChar_append_inj {c d : Char} {s t : List UInt8}
    (h : String.utf8EncodeChar c ++ s = String.utf8EncodeChar d ++ t) : c = d ∧ s = t := by
  have hdecode := congrArg (fun l : List UInt8 => l.toByteArray.utf8DecodeChar? 0) h
  simp only [toByteArray_append, ByteArray.utf8DecodeChar?_utf8EncodeChar_append,
    Option.some.injEq] at hdecode
  subst hdecode
  exact ⟨rfl, append_cancel_left h⟩

lemma encode_prefix_iff {ps cs : List Char} : encode ps <+: encode cs ↔ ps <+: cs := by
  constructor
  · intro h
    induction ps generalizing cs with
    | nil => exact List.nil_prefix
    | cons p ps ih =>
      obtain ⟨t, ht⟩ := h
      rw [encode_cons, append_assoc] at ht
      cases cs with
      | nil =>
        have hlen := congrArg length ht
        have hpos := encodeChar_length_pos p
        rw [length_append, encode_nil, length_nil] at hlen
        omega
      | cons c cs =>
        obtain ⟨rfl, hrest⟩ := encodeChar_append_inj (ht.trans (encode_cons c cs))
        exact List.cons_prefix_cons.mpr ⟨rfl, ih ⟨t, hrest⟩⟩
  · rintro ⟨ds, rfl⟩
    exact ⟨encode ds, (encode_append ps ds).symm⟩

lemma encode_take_lt {cs : List Char} {j k : Nat} (hj : j < k) (hk : k ≤ cs.length) :
    (encode (cs.take j)).length < (encode (cs.take k)).length := by
  have hsplit : cs.take k = cs.take j ++ (cs.take k).drop j := by
    conv_lhs => rw [← take_append_drop j (cs.take k), take_take, Nat.min_eq_left (Nat.le_of_lt hj)]
  have hpos := length_le_encode_length ((cs.take k).drop j)
  rw [length_drop, length_take] at hpos
  rw [hsplit, encode_append, length_append]
  omega

/-- An occurrence between the bytes is one between the characters: only the first byte of a
character can be the first byte of another one. -/
lemma exists_of_prefix_drop_encode {ps : List Char} (hps : ps ≠ []) :
    ∀ {cs : List Char} {j : Nat}, encode ps <+: (encode cs).drop j →
      ∃ k ≤ cs.length, j = (encode (cs.take k)).length ∧ ps <+: cs.drop k := by
  intro cs
  induction cs with
  | nil =>
    intro j h
    have hlen := h.length_le
    have hle := length_le_encode_length ps
    have hpos := length_pos_iff.mpr hps
    rw [encode_nil, drop_nil, length_nil] at hlen
    omega
  | cons c cs ih =>
    intro j h
    by_cases hzero : j = 0
    · subst hzero
      exact ⟨0, Nat.zero_le _, rfl, encode_prefix_iff.mp h⟩
    rw [encode_cons] at h
    by_cases hin : j < (String.utf8EncodeChar c).length
    · obtain ⟨p, ps, rfl⟩ := exists_cons_of_ne_nil hps
      obtain ⟨t, ht⟩ := h
      have hbyte := congrArg (·[0]?) ht
      have hpos := encodeChar_length_pos p
      simp only [encode_cons, append_assoc, getElem?_append_left hpos,
        getElem?_drop, Nat.add_zero, getElem?_append_left hin,
        getElem?_eq_getElem hpos, getElem?_eq_getElem hin, Option.some.injEq] at hbyte
      have hfirst : (String.utf8EncodeChar p)[0].IsUTF8FirstByte :=
        UInt8.isUTF8FirstByte_getElem_utf8EncodeChar.mpr rfl
      rw [hbyte] at hfirst
      exact absurd (UInt8.isUTF8FirstByte_getElem_utf8EncodeChar.mp hfirst) hzero
    · rw [drop_append, drop_of_length_le (by omega), nil_append] at h
      obtain ⟨k, hk, hj, hstarts⟩ := ih h
      refine ⟨k + 1, Nat.succ_le_succ hk, ?_, hstarts⟩
      rw [take_succ_cons, encode_cons, length_append]
      omega

end TyLang.Utf8
