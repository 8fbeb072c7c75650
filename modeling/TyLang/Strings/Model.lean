import Mathlib

/-!
Strings, which are views of some memory. Their number of bytes is a `u32`.
-/
namespace TyLang.Strings
open List

abbrev Text := List UInt8

structure Str where
  /-- What is at `str0`. -/
  str0 : Text
  /-- `str - str0` -/
  offset : Nat
  bytes : BitVec 32
  /-- `str` is `NULL`. -/
  null : Bool
  fits : offset + bytes.toNat ≤ str0.length
  null_empty : null → bytes = 0

namespace Str

def text (s : Str) : Text := (s.str0.drop s.offset).take s.bytes.toNat

@[simp] lemma text_length (s : Str) : s.text.length = s.bytes.toNat := by
  have hfits := s.fits
  rw [text, length_take, length_drop]
  omega

lemma text_length_lt (s : Str) : s.text.length < 2 ^ 32 := by
  rw [text_length]
  exact s.bytes.isLt

/-- The bytes at an offset, as many as a view of them has. -/
def viewText (s : Str) (v : Nat × Nat) : Text := (s.str0.drop (s.offset + v.1)).take v.2

lemma viewText_eq {s : Str} {i n : Nat} (h : i + n ≤ s.bytes.toNat) :
    s.viewText (i, n) = (s.text.drop i).take n := by
  rw [viewText, text, drop_take, drop_drop, take_take, Nat.min_eq_left (by omega)]

/-- A string of its own memory. -/
lemma fits_ofNat (text : Text) : 0 + (BitVec.ofNat 32 text.length).toNat ≤ text.length := by
  rw [BitVec.toNat_ofNat, Nat.zero_add]
  exact Nat.mod_le _ _

lemma empty_of_null (text : Text) : false → BitVec.ofNat 32 text.length = 0 := nofun

def of (text : Text) (_ : text.length < 2 ^ 32) : Str where
  str0 := text
  offset := 0
  bytes := BitVec.ofNat 32 text.length
  null := false
  fits := fits_ofNat text
  null_empty := empty_of_null text

@[simp] lemma text_of (text : Text) (h : text.length < 2 ^ 32) : (of text h).text = text := by
  rw [Str.text, of, BitVec.toNat_ofNat, Nat.mod_eq_of_lt h, drop_zero, take_length]

end Str

def stringEmpty : Str where
  str0 := []
  offset := 0
  bytes := 0
  null := true
  fits := Nat.le_refl 0
  null_empty _ := rfl

@[simp] lemma text_stringEmpty : stringEmpty.text = [] := rfl

def stringView (s : Str) (offset n : Nat) (h : offset + n ≤ s.bytes.toNat) : Str where
  str0 := s.str0
  offset := s.offset + offset
  bytes := BitVec.ofNat 32 n
  null := s.null
  fits := by
    have hfits := s.fits
    have hmod := Nat.mod_le n (2 ^ 32)
    rw [BitVec.toNat_ofNat]
    omega
  null_empty hnull := by
    rw [s.null_empty hnull] at h
    rw [Nat.le_zero.mp (Nat.le_trans (Nat.le_add_left n offset) h)]
    rfl

lemma text_stringView {s : Str} {offset n : Nat} (h : offset + n ≤ s.bytes.toNat) :
    (stringView s offset n h).text = (s.text.drop offset).take n := by
  have hn : n % 2 ^ 32 = n := Nat.mod_eq_of_lt (by omega)
  simp only [stringView, Str.text, BitVec.toNat_ofNat, hn]
  rw [drop_take, drop_drop, take_take, Nat.min_eq_left (by omega)]

/-- `op_builtin_add` on strings. The sum of the sizes is a `u32`. -/
def opBuiltinAdd (left right : Str) : Str :=
  if left.bytes = 0 then right
  else if right.bytes = 0 then left
  else
    { str0 := left.text ++ right.text
      offset := 0
      bytes := left.bytes + right.bytes
      null := false
      null_empty := nofun
      fits := by
        rw [length_append, Str.text_length, Str.text_length, BitVec.toNat_add, Nat.zero_add]
        exact Nat.mod_le _ _ }

lemma Str.text_eq_nil {s : Str} (h : s.bytes = 0) : s.text = [] := by
  rw [← length_eq_zero_iff, text_length, h]
  rfl

lemma text_opBuiltinAdd {left right : Str} (h : left.text.length + right.text.length < 2 ^ 32) :
    (opBuiltinAdd left right).text = left.text ++ right.text := by
  unfold opBuiltinAdd
  split
  · next hleft => rw [Str.text_eq_nil hleft, nil_append]
  split
  · next hright => rw [Str.text_eq_nil hright, append_nil]
  · rw [Str.text_length, Str.text_length] at h
    have hbytes : (left.bytes + right.bytes).toNat = (left.text ++ right.text).length := by
      rw [BitVec.toNat_add, Nat.mod_eq_of_lt h, length_append, Str.text_length, Str.text_length]
    rw [Str.text, drop_zero, hbytes, take_length]

/-- `STRING_CLONE` of the bytes of a vector, whose number is taken as a `u32`. One more byte
than that is allocated, as a `u32` again; `none` is a write behind the memory. An empty
vector has no memory. -/
def stringClone (chars : Text) : Option Str :=
  let n := BitVec.ofNat 32 chars.length
  if chars ≠ [] ∧ n + 1 = 0 then none
  else
    some
      { str0 := chars.take n.toNat
        offset := 0
        bytes := n
        null := chars = []
        fits := by
          have hmod := Nat.mod_le chars.length (2 ^ 32)
          rw [length_take, BitVec.toNat_ofNat]
          omega
        null_empty := by
          intro h
          simp only [n, of_decide_eq_true h]
          rfl }

/-- The clone has the bytes of the vector exactly if their number and the byte behind them
are counted by a `u32`. -/
lemma stringClone_text_iff (chars : Text) :
    (∃ s, stringClone chars = some s ∧ s.text = chars) ↔ chars.length < 2 ^ 32 - 1 := by
  have hn : (BitVec.ofNat 32 chars.length).toNat = chars.length % 2 ^ 32 := BitVec.toNat_ofNat ..
  have hlast : BitVec.ofNat 32 chars.length + 1 = 0 ↔ chars.length % 2 ^ 32 = 2 ^ 32 - 1 := by
    rw [← BitVec.toNat_inj, BitVec.toNat_add, hn]
    change (chars.length % 2 ^ 32 + 1) % 2 ^ 32 = 0 ↔ _
    omega
  constructor
  · rintro ⟨s, hclone, htext⟩
    have hlength := congrArg length htext
    unfold stringClone at hclone
    dsimp only at hclone
    split at hclone
    · cases hclone
    next hfits =>
    cases hclone
    rw [Str.text_length, hn] at hlength
    by_contra hge
    refine hfits ⟨?_, hlast.mpr (by omega)⟩
    rw [Ne, ← length_eq_zero_iff]
    omega
  · intro hlt
    have hmod : chars.length % 2 ^ 32 = chars.length := Nat.mod_eq_of_lt (by omega)
    unfold stringClone
    rw [if_neg fun h => absurd (hlast.mp h.2) (by omega)]
    refine ⟨_, rfl, ?_⟩
    simp only [Str.text, hn, hmod, drop_zero, take_length]

end TyLang.Strings
