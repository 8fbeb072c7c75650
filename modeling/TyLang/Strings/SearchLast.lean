import TyLang.Strings.Search

/-!
`searchr` and `bsearchr` with a string as the pattern (`src/str.c`), which search for its last
occurrence by `mmmmr` (`include/mmmm.h`).
-/
namespace TyLang.Strings
open List Occurrences Utf8 Option

section Model

variable (u : Utf8proc) (mm : Mmmm)

/-- The loop of `mmmmr`, from a place on, with the last occurrence before it. -/
def mmmmrLoop (haystack needle : Text) : Nat → Nat → Option Nat → Option Nat
  | 0, _, last => last
  | fuel + 1, p, last =>
    if p ≤ haystack.length - needle.length then
      match mmmmOf mm (haystack.drop p) needle with
      | none => last
      | some k => mmmmrLoop haystack needle fuel (p + k + 1) (some (p + k))
    else last

/-- Every turn of the loop passes over a byte. -/
def mmmmr (haystack needle : Text) : Option Nat :=
  if needle = [] then some haystack.length
  else if haystack.length < needle.length then none
  else mmmmrLoop mm haystack needle (haystack.length + 1) 0 none

def stringSearchr (string pattern : Str) (offset : Option (BitVec 64)) : Option Int :=
  let len := runeCount u string.text
  let offset := match offset with | none => len - 1 | some z => z.toInt
  let offset := if offset < 0 then offset + len else offset
  if offset < 0 then none
  else
    let off := min (xXX u string.text offset) string.text.length
    (mmmmr mm (string.text.take off) pattern.text).map fun n => runeCount u (string.text.take n)

inductive SearchError where
  | invalidOffset (offset : Int)
  /-- A read behind the memory. -/
  | behind

/-- The size is of type `u32`, and so is the place of the last byte. -/
def stringBsearchr (string pattern : Str) (offset : Option (BitVec 64)) :
    Except SearchError (Option Int) :=
  let last : Int := (string.bytes - 1).toNat
  let offset : Int := match offset with | none => last | some z => z.toInt
  let offset := if offset < 0 then offset + string.bytes.toNat else offset
  if offset < 0 then .error (.invalidOffset offset)
  else
    let offset := if string.bytes.toNat ≤ offset then last else offset
    let bytes := (offset + 1).toNat
    let window := (string.str0.drop string.offset).take bytes
    if window.length = bytes then .ok ((mmmmr mm window pattern.text).map fun (n : Nat) =>
      (n : Int))
    else .error .behind

end Model

variable {u : Utf8proc} {mm : Mmmm} {string pattern : Str} {cs ps : List Char} {s p : Text}

lemma mmmmrLoop_of_none (hp : p ≠ []) {from_ fuel : Nat} {last : Option Nat}
    (h : ∀ k, from_ ≤ k → ¬ p <+: s.drop k) : mmmmrLoop mm s p fuel from_ last = last := by
  cases fuel with
  | zero => rfl
  | succ fuel =>
    have hnone : mmmmOf mm (s.drop from_) p = none := by
      rw [mmmmOf, if_neg hp, eq_none_iff_forall_ne_some]
      intro k hk
      have hoccurs := ((mm.mmmm_first _ _ _ hp).mp hk).occurs
      rw [drop_drop] at hoccurs
      exact h _ (Nat.le_add_right _ _) hoccurs
    rw [mmmmrLoop, hnone]
    split <;> rfl

lemma mmmmrLoop_of_isLast (hp : p ≠ []) {k : Nat} (hk : IsLast p s k) :
    ∀ fuel from_ last, from_ ≤ k → s.length < fuel + from_ →
      mmmmrLoop mm s p fuel from_ last = some k := by
  have hlen := hk.occurs.length_le
  have hpos := length_pos_iff.mpr hp
  rw [length_drop] at hlen
  intro fuel
  induction fuel with
  | zero => omega
  | succ fuel ih =>
    intro from_ last hle hfuel
    rw [mmmmrLoop, if_pos (by omega), mmmmOf, if_neg hp]
    have hat : p <+: (s.drop from_).drop (k - from_) := by
      rw [drop_drop, Nat.add_sub_cancel' hle]
      exact hk.occurs
    cases hfind : mm.mmmm (s.drop from_) p with
    | none =>
      obtain ⟨j, hj⟩ := ne_none_iff_exists'.mp
        (mt find_eq_none_iff.mp (not_not.mpr (infix_iff_exists_drop.mpr ⟨_, hat⟩)))
      rw [(mm.mmmm_first _ _ _ hp).mpr (find_eq_some_iff.mp hj)] at hfind
      cases hfind
    | some j =>
      have hfirst := (mm.mmmm_first _ _ _ hp).mp hfind
      have hj : j ≤ k - from_ := Nat.le_of_not_lt fun hlt => hfirst.first _ hlt hat
      dsimp only
      rcases Nat.lt_or_eq_of_le hj with hlt | rfl
      · exact ih _ _ (by omega) (by omega)
      · rw [mmmmrLoop_of_none hp fun i hi hoccurs => ?_, Nat.add_sub_cancel' hle]
        have := hk.last i hoccurs
        omega

lemma mmmmr_eq_findLast (hp : p ≠ []) : mmmmr mm s p = findLast p s := by
  rw [mmmmr, if_neg hp]
  cases hfind : findLast p s with
  | none =>
    rw [mmmmrLoop_of_none hp fun k _ => (findLast_eq_none_iff hp).mp hfind k]
    split <;> rfl
  | some k =>
    have hk := (findLast_eq_some_iff hp).mp hfind
    have hlen := hk.occurs.length_le
    rw [length_drop] at hlen
    rw [if_neg (by omega), mmmmrLoop_of_isLast hp hk _ _ _ (Nat.zero_le k) (by omega)]

/-- The occurrences in the bytes are those in the characters. -/
lemma findLast_encode (hps : ps ≠ []) :
    findLast (encode ps) (encode cs) = (findLast ps cs).map fun k =>
      (encode (cs.take k)).length := by
  have hne : encode ps ≠ [] := fun h => hps (encode_eq_nil.mp h)
  have hmono {j k : Nat} (hj : j ≤ cs.length) : j ≤ k ↔
      (encode (cs.take j)).length ≤ (encode (cs.take k)).length := by
    constructor
    · intro hle
      rw [show cs.take j = (cs.take k).take j by rw [take_take, Nat.min_eq_left hle]]
      rw [← take_encode]
      exact (List.take_prefix _ _).length_le
    · intro hle
      refine Nat.le_of_not_lt fun hlt => ?_
      have := encode_take_lt hlt hj
      omega
  have hbytes {k : Nat} (h : ps <+: cs.drop k) :
      encode ps <+: (encode cs).drop (encode (cs.take k)).length := by
    rw [drop_encode]
    exact encode_prefix_iff.mpr h
  refine ext fun n => ?_
  rw [findLast_eq_some_iff hne, map_eq_some_iff]
  simp only [findLast_eq_some_iff hps]
  constructor
  · intro h
    obtain ⟨k, hk, rfl, hstarts⟩ := exists_of_prefix_drop_encode hps h.occurs
    refine ⟨k, ⟨hstarts, fun j hj => ?_⟩, rfl⟩
    have hlen := hj.length_le
    have hpos := length_pos_iff.mpr hps
    rw [length_drop] at hlen
    exact (hmono (by omega)).mpr (h.last _ (hbytes hj))
  · rintro ⟨k, hk, rfl⟩
    refine ⟨hbytes hk.occurs, fun j hj => ?_⟩
    obtain ⟨i, hi, rfl, hstarts⟩ := exists_of_prefix_drop_encode hps hj
    exact (hmono hi).mp (hk.last i hstarts)

lemma stringSearchr_none (hs : string.text = encode cs) (hp : pattern.text = encode ps)
    (hps : ps ≠ []) : stringSearchr u mm string pattern none =
      (findLast ps cs.dropLast).map fun (k : Nat) => (k : Int) := by
  have hne : encode ps ≠ [] := fun h => hps (encode_eq_nil.mp h)
  simp only [stringSearchr, hs, hp, runeCount_encode]
  rcases eq_nil_or_concat cs with rfl | ⟨ds, c, rfl⟩
  · rfl
  have hoffset : ((ds.concat c).length : Int) - 1 = ds.length := by
    rw [length_concat]
    omega
  have hwindow : (ds.concat c).take ds.length = ds := by
    rw [concat_eq_append, take_left]
  rw [hoffset, if_neg (by omega), if_neg (by omega), xXX_encode, Int.toNat_natCast, hwindow,
    Nat.min_eq_left, concat_eq_append, encode_append, take_left, dropLast_concat,
    mmmmr_eq_findLast hne, findLast_encode hps, Option.map_map]
  · cases hfind : findLast ps ds with
    | none => rfl
    | some k =>
      have hlen := ((findLast_eq_some_iff hps).mp hfind).occurs.length_le
      have hpos := length_pos_iff.mpr hps
      rw [length_drop] at hlen
      have htake : (encode ds ++ encode [c]).take (encode (ds.take k)).length =
          encode (ds.take k) := by
        have hle := (List.take_prefix (encode (ds.take k)).length (encode ds)).length_le
        rw [take_encode] at hle
        rw [take_append_of_le_length hle, take_encode]
      simp only [map_some, Function.comp_apply]
      rw [htake, runeCount_encode, length_take_of_le (by omega)]
  · rw [concat_eq_append, encode_append, length_append]
    exact Nat.le_add_right _ _

lemma stringBsearchr_none (hs : string.text ≠ []) (hp : pattern.text ≠ []) :
    stringBsearchr mm string pattern none =
      .ok ((findLast pattern.text string.text).map fun (k : Nat) => (k : Int)) := by
  have hpos := length_pos_iff.mpr hs
  have hlast : (string.bytes - 1).toNat = string.bytes.toNat - 1 := by
    rw [Str.text_length] at hpos
    rw [BitVec.toNat_sub_of_le (by rw [BitVec.le_def]; exact hpos)]
    rfl
  have hlen := string.text_length
  have hbytes : ((string.bytes.toNat - 1 : Nat) + 1 : Int).toNat = string.bytes.toNat := by omega
  simp only [stringBsearchr, hlast]
  rw [if_neg (show ¬ ((string.bytes.toNat - 1 : Nat) : Int) < 0 by omega), if_neg (by omega),
    ite_self, hbytes, ← Str.text, if_pos hlen, mmmmr_eq_findLast hp]

/-- For the empty string, the window has as many bytes as the type `u32` has values. -/
lemma stringBsearchr_empty (hs : string.text = []) :
    stringBsearchr mm string pattern none = if 2 ^ 32 ≤ string.behind.length then
      .ok ((mmmmr mm (string.behind.take (2 ^ 32)) pattern.text).map fun (n : Nat) => (n : Int))
    else .error .behind := by
  have hzero : string.bytes = 0 := by
    rw [← BitVec.toNat_inj, ← Str.text_length, hs]
    rfl
  have hbehind : string.behind = string.str0.drop string.offset := by rw [Str.behind, hzero]; rfl
  have hlast : ((0 : BitVec 32) - 1).toNat = 2 ^ 32 - 1 := by decide
  simp only [stringBsearchr, hzero, hlast, ← hbehind, length_take]
  refine (if_neg (by decide)).trans (if_congr ?_ rfl rfl)
  change min (2 ^ 32) _ = 2 ^ 32 ↔ _
  omega

/-- The greatest place at which the slice is the pattern. -/
def IsLastSlice (u : Utf8proc) (string pattern : Str) (len : Nat) : Option Int → Prop
  | some k => (∃ i : BitVec 64, i.toInt = k ∧
      (stringSlice u string i (some (BitVec.ofNat 64 len))).text = pattern.text) ∧
    ∀ i : BitVec 64, (stringSlice u string i (some (BitVec.ofNat 64 len))).text = pattern.text →
      i.toInt ≤ k
  | none => ∀ i : BitVec 64,
      (stringSlice u string i (some (BitVec.ofNat 64 len))).text ≠ pattern.text

lemma stringSlice_eq_iff (hs : string.text = encode cs) (hp : pattern.text = encode ps)
    (i : BitVec 64) : (stringSlice u string i (some (BitVec.ofNat 64 ps.length))).text =
      pattern.text ↔
      ps <+: cs.drop (position i cs.length) := by
  have hview := (stringSlice_isView (u := u) hs i (some (BitVec.ofNat 64 ps.length))).text
  have hlt := pattern.text_length_lt
  have hle := length_le_encode_length ps
  rw [hp] at hlt
  dsimp only at hview
  rw [hview, hp, position_ofNat (by omega), List.prefix_iff_eq_take]
  constructor
  · intro h
    have hpre := encode_prefix_iff.mp ⟨[], (append_nil _).trans h.symm⟩
    exact List.prefix_iff_eq_take.mp (hpre.trans (List.take_prefix _ _))
  · exact fun h => by rw [← h]

lemma isLastSlice_iff (hs : string.text = encode cs) (hp : pattern.text = encode ps)
    (hps : ps ≠ []) (r : Option Int) : IsLastSlice u string pattern ps.length r ↔
      r = (findLast ps cs).map fun (k : Nat) => (k : Int) := by
  have hlt := string.text_length_lt
  have hle := length_le_encode_length cs
  rw [hs] at hlt
  have hpos := length_pos_iff.mpr hps
  have hbound {k : Nat} (h : ps <+: cs.drop k) : k < 2 ^ 32 := by
    have := h.length_le
    rw [length_drop] at this
    omega
  have htoInt {k : Nat} (hk : k < 2 ^ 32) : (BitVec.ofNat 64 k).toInt = k := by
    rw [BitVec.toInt_ofNat', Int.bmod_eq_of_le] <;> omega
  have hle_position (i : BitVec 64) : i.toInt ≤ position i cs.length := by
    rw [position]
    split <;> omega
  cases hfind : findLast ps cs with
  | none =>
    have hno := (findLast_eq_none_iff hps).mp hfind
    cases r with
    | none =>
      refine iff_of_true (fun i hi => ?_) rfl
      exact hno _ ((stringSlice_eq_iff hs hp i).mp hi)
    | some k =>
      refine iff_of_false ?_ (by simp)
      rintro ⟨⟨i, -, hi⟩, -⟩
      exact hno _ ((stringSlice_eq_iff hs hp i).mp hi)
  | some k =>
    have hk := (findLast_eq_some_iff hps).mp hfind
    have hat : (stringSlice u string (BitVec.ofNat 64 k) (some (BitVec.ofNat 64 ps.length))).text =
        pattern.text := by
      rw [stringSlice_eq_iff hs hp, position_ofNat (hbound hk.occurs)]
      exact hk.occurs
    have hmax (i : BitVec 64)
        (hi : (stringSlice u string i (some (BitVec.ofNat 64 ps.length))).text = pattern.text) :
        i.toInt ≤ k := by
      have := hk.last _ ((stringSlice_eq_iff hs hp i).mp hi)
      have := hle_position i
      omega
    cases r with
    | none => exact iff_of_false (fun h => h _ hat) (by simp)
    | some z =>
      simp only [IsLastSlice, map_some, some.injEq]
      constructor
      · rintro ⟨⟨i, rfl, hi⟩, hlast⟩
        have := hlast _ hat
        rw [htoInt (hbound hk.occurs)] at this
        exact Int.le_antisymm (hmax i hi) this
      · rintro rfl
        exact ⟨⟨_, htoInt (hbound hk.occurs), hat⟩, hmax⟩

lemma length_encode_ascii (h : ∀ c ∈ cs, c.toNat < 128) : (encode cs).length = cs.length := by
  induction cs with
  | nil => rfl
  | cons c cs ih =>
    rw [forall_mem_cons] at h
    have hsize : c.utf8Size = 1 := by
      rw [Char.utf8Size_eq_one_iff, UInt32.le_iff_toNat_le]
      exact Nat.le_of_lt_succ h.1
    rw [encode_cons, length_append, String.length_utf8EncodeChar, hsize, ih h.2,
      length_cons, Nat.add_comm]

/-- Both searches return the last occurrence exactly if it does not touch the end of the string.
For the empty string, the second one reads the memory behind it. -/
theorem searchr_last_iff (u : Utf8proc) (mm : Mmmm) (string pattern : Str) (cs ps : List Char)
    (hs : string.text = encode cs) (hp : pattern.text = encode ps)
    (hascii : ∀ c ∈ cs, c.toNat < 128) (hps : ps ≠ []) :
    (∃ r, stringSearchr u mm string pattern none = r ∧
      stringBsearchr mm string pattern none = .ok r ∧
      IsLastSlice u string pattern ps.length r) ↔
    if cs = [] then 2 ^ 32 ≤ string.behind.length ∧ ¬ pattern.text <:+: string.behind.take (2 ^ 32)
    else ¬ ps <:+ cs := by
  have hpne : pattern.text ≠ [] := by rwa [hp, Ne, encode_eq_nil]
  simp only [isLastSlice_iff hs hp hps, stringSearchr_none hs hp hps, exists_eq_left']
  split
  · next hcs =>
    subst hcs
    rw [stringBsearchr_empty hs, mmmmr_eq_findLast hpne, infix_iff_exists_drop, not_exists,
      ← findLast_eq_none_iff hpne]
    by_cases hmem : 2 ^ 32 ≤ string.behind.length
    · rw [if_pos hmem, and_iff_right hmem]
      cases findLast pattern.text (string.behind.take (2 ^ 32)) <;> simp [findLast]
    · rw [if_neg hmem]
      exact iff_of_false (by simp) fun h => hmem h.1
  · next hcs =>
    have hsne : string.text ≠ [] := by rwa [hs, Ne, encode_eq_nil]
    have hindex : (findLast pattern.text string.text).map (fun (k : Nat) => (k : Int)) =
        (findLast ps cs).map fun (k : Nat) => (k : Int) := by
      rw [hs, hp, findLast_encode hps, Option.map_map]
      cases hfind : findLast ps cs with
      | none => rfl
      | some k =>
        have hlen := ((findLast_eq_some_iff hps).mp hfind).occurs.length_le
        have hpos := length_pos_iff.mpr hps
        rw [length_drop] at hlen
        simp only [map_some, Function.comp_apply]
        rw [length_encode_ascii fun c hc => hascii c (mem_of_mem_take hc),
          length_take_of_le (by omega)]
    have hcast : Function.Injective fun (k : Nat) => (k : Int) := fun _ _ => Int.ofNat.inj
    rw [stringBsearchr_none hsne hpne, hindex, ← findLast_dropLast_eq_iff hps hcs,
      ← (map_injective hcast).eq_iff]
    constructor
    · exact fun h => h.2
    · exact fun h => ⟨by rw [h], h⟩

/-- The last of two letters is not found. -/
theorem searchr_end : ∃ string pattern : Str, string.text = encode ['a', 'b'] ∧
    pattern.text = encode ['b'] ∧ stringSearchr plainUtf8proc plainMmmm string pattern none = none ∧
    IsLastSlice plainUtf8proc string pattern 1 (some 1) := by
  have hs : (Str.of [0x61, 0x62] (by decide)).text = encode ['a', 'b'] := by decide
  have hp : (Str.of [0x62] (by decide)).text = encode ['b'] := by decide
  refine ⟨_, _, hs, hp, by decide +kernel, (isLastSlice_iff hs hp (by decide) _).mpr ?_⟩
  decide

theorem searchr_last_two : ∃ string pattern : Str, string.text = encode ['b', 'b', 'a'] ∧
    pattern.text = encode ['b'] ∧ ∃ r,
      stringSearchr plainUtf8proc plainMmmm string pattern none = r ∧
      stringBsearchr plainMmmm string pattern none = .ok r ∧
      IsLastSlice plainUtf8proc string pattern 1 r :=
  ⟨.of [0x62, 0x62, 0x61] (by decide), .of [0x62] (by decide), by decide, by decide,
    (searchr_last_iff plainUtf8proc plainMmmm _ _ ['b', 'b', 'a'] ['b'] (by decide) (by decide)
      (by simp) (by decide)).mpr ((if_neg (by decide)).mpr (by decide))⟩

end TyLang.Strings
