import TyLang.Strings.Slice
import TyLang.Strings.Split

/-!
`search` and `searchAll` with a string as the pattern (`src/str.c`), on strings in UTF-8. The
second one keeps two places, in bytes and in code points. Its loop counts the code points of a
gap between two occurrences in as many bytes as the gap has, but from the second one on.
-/
namespace TyLang.Strings
open List Occurrences Utf8

section Model

variable (u : Utf8proc) (mm : Mmmm)

def mmmmOf (s p : Text) : Option Nat := if p = [] then some 0 else mm.mmmm s p

/-- `rune_count` of `n` bytes from a place in the string on; `none` is a read behind the memory. -/
def runeCountAt (string : Str) (i n : Nat) : Option Int :=
  let bytes := (string.str0.drop (string.offset + i)).take n
  if bytes.length = n then some (runeCount u bytes) else none

/-- The loop of `string_search_all`, for a number of rounds. -/
def searchAllLoop (string : Str) (p : Text) (plen : Int) : Nat → Nat → Int → Option (List Int)
  | 0, _, _ => none
  | rounds + 1, off, offset =>
    if off < string.text.length then
      match mmmmOf mm (string.text.drop off) p with
      | none => some []
      | some n =>
        match runeCountAt u string (off + n) n with
        | none => none
        | some dist =>
          (searchAllLoop string p plen rounds (off + n + p.length) (offset + dist + plen)).map
            ((offset + dist) :: ·)
    else some []

/-- The place where a search starts, in code points. -/
def searchOffset (string : Str) (offset : Option (BitVec 64)) : Int :=
  match offset with
  | none => 0
  | some z => if z.toInt < 0 then z.toInt + runeCount u string.text else z.toInt

def stringSearchAll (rounds : Nat) (string pattern : Str) (offset : Option (BitVec 64)) :
    Option (List Int) :=
  let offset := searchOffset u string offset
  let off := xXX u string.text offset
  if string.text.length < off then some []
  else searchAllLoop u mm string pattern.text (runeCount u pattern.text) rounds off offset

def stringSearch (string pattern : Str) (offset : Option (BitVec 64)) : Option Int :=
  let offset := searchOffset u string offset
  if offset < 0 then none
  else
    let off := xXX u string.text offset
    if string.text.length ≤ off then none
    else (mmmmOf mm (string.text.drop off) pattern.text).map fun n =>
      offset + runeCount u ((string.text.drop off).take n)

end Model

/-! ### Occurrences of characters -/

variable {u : Utf8proc} {mm : Mmmm} {string pattern : Str} {cs ps : List Char}

lemma isFirst_encode_iff (hps : ps ≠ []) {n : Nat} : IsFirst (encode ps) (encode cs) n ↔
    ∃ k, IsFirst ps cs k ∧ n = (encode (cs.take k)).length := by
  constructor
  · rintro ⟨hoccurs, hfirst⟩
    obtain ⟨k, hk, rfl, hstarts⟩ := exists_of_prefix_drop_encode hps hoccurs
    refine ⟨k, ⟨hstarts, fun j hj hoccurs' => ?_⟩, rfl⟩
    refine hfirst _ (encode_take_lt hj hk) ?_
    rw [drop_encode]
    exact encode_prefix_iff.mpr hoccurs'
  · rintro ⟨k, hk, rfl⟩
    refine ⟨?_, fun j hj hoccurs => ?_⟩
    · rw [drop_encode]
      exact encode_prefix_iff.mpr hk.occurs
    obtain ⟨i, hi, rfl, hstarts⟩ := exists_of_prefix_drop_encode hps hoccurs
    refine hk.first i (Nat.lt_of_not_le fun hle => ?_) hstarts
    rcases Nat.lt_or_eq_of_le hle with hlt | rfl
    · have := encode_take_lt hlt hi
      omega
    · exact Nat.lt_irrefl _ hj

lemma encode_eq_nil : encode ps = [] ↔ ps = [] := by
  refine ⟨fun h => ?_, fun h => h ▸ encode_nil⟩
  have hle := length_le_encode_length ps
  rw [h] at hle
  exact length_eq_zero_iff.mp (Nat.le_zero.mp hle)

lemma mmmmOf_encode (hps : ps ≠ []) : mmmmOf mm (encode cs) (encode ps) =
    (find ps cs).map fun k => (encode (cs.take k)).length := by
  have hne : encode ps ≠ [] := fun h => hps (encode_eq_nil.mp h)
  rw [mmmmOf, if_neg hne]
  refine Option.ext fun n => ?_
  rw [mm.mmmm_first _ _ _ hne, isFirst_encode_iff hps, Option.map_eq_some_iff]
  simp only [find_eq_some_iff, eq_comm (a := n)]

/-! ### The loop -/

/-- The memory behind the string. -/
def Str.behind (s : Str) : Text := s.str0.drop (s.offset + s.bytes.toNat)

lemma Str.drop_str0 (s : Str) {i : Nat} (hi : i ≤ s.text.length) :
    s.str0.drop (s.offset + i) = s.text.drop i ++ s.behind := by
  have hall : s.str0.drop s.offset = s.text ++ s.behind := by
    rw [Str.text, Str.behind, ← drop_drop, take_append_drop]
  rw [← drop_drop, hall, drop_append_of_le_length hi]

/-- As many bytes as the gap has, from the occurrence behind it on, have as many code points. -/
def Measured (u : Utf8proc) (string : Str) (gap rest : List Char) : Prop :=
  let bytes := (encode rest ++ string.behind).take (encode gap).length
  bytes.length = (encode gap).length ∧ runeCount u bytes = gap.length

instance (u : Utf8proc) (string : Str) (gap rest : List Char) :
    Decidable (Measured u string gap rest) := inferInstanceAs (Decidable (_ ∧ _))

lemma runeCountAt_eq_some_iff {before rest : List Char} {i n : Nat} {dist : Int}
    (hs : string.text = encode (before ++ rest)) (hi : i = (encode before).length) :
    runeCountAt u string i n = some dist ↔
      ((encode rest ++ string.behind).take n).length = n ∧
        runeCount u ((encode rest ++ string.behind).take n) = dist := by
  have hle : i ≤ string.text.length := by
    rw [hs, hi, encode_append, length_append]
    exact Nat.le_add_right _ _
  have hdrop : string.text.drop i = encode rest := by rw [hs, hi, encode_append, drop_left]
  rw [runeCountAt, string.drop_str0 hle, hdrop]
  simp

variable (u mm) in
lemma searchAllLoop_eq_iff (hs : string.text = encode cs) (hps : ps ≠ []) (n : Nat)
    (rest : List Char) : rest.length ≤ n → ∀ before, cs = before ++ rest →
    ((∃ rounds, searchAllLoop u mm string (encode ps) ps.length rounds (encode before).length
        before.length = some ((cuts ps n rest).map fun c =>
          ((cs.length - c.2.length : Nat) : Int))) ↔
      ∀ c ∈ cuts ps n rest, Measured u string c.1 c.2) := by
  have hstop : ∀ before rest, cs = before ++ rest → find ps rest = none →
      searchAllLoop u mm string (encode ps) ps.length 1 (encode before).length before.length =
        some [] := by
    intro before rest hcs hfind
    rw [searchAllLoop, hs, hcs, encode_append, drop_left, mmmmOf_encode hps, hfind]
    simp
  induction n, rest using pieces_cases (p := ps) with
  | zero rest =>
    intro hn before hcs
    have hnil := length_eq_zero_iff.mp (Nat.le_zero.mp hn)
    exact iff_of_true ⟨1, hstop before rest hcs (by simp [hnil, find, hps])⟩ (forall_mem_nil _)
  | none n rest h =>
    intro _ before hcs
    rw [cuts_of_none h]
    exact iff_of_true ⟨1, hstop before rest hcs h⟩ (forall_mem_nil _)
  | some n rest k h ih =>
    intro hn before hcs
    have hfirst := find_eq_some_iff.mp h
    have hlen := hfirst.le_length hps
    have hpos := length_pos_iff.mpr hps
    have hoff : (encode before).length < string.text.length := by
      have hle := length_le_encode_length rest
      rw [hs, hcs, encode_append, length_append]
      omega
    have hnext : before ++ (rest.take k ++ ps) ++ rest.drop (k + ps.length) = cs := by
      rw [append_assoc, append_assoc, hfirst.take_append, hcs]
    have hoff' : (encode before).length + (encode (rest.take k)).length + (encode ps).length =
        (encode (before ++ (rest.take k ++ ps))).length := by
      simp only [encode_append, length_append]
      omega
    have hgap : (rest.take k).length = k := length_take_of_le (by omega)
    have hplace : (before.length : Int) + k + ps.length =
        ((before ++ (rest.take k ++ ps)).length : Nat) := by
      simp only [length_append, hgap]
      omega
    have hmeasured : Measured u string (rest.take k) (rest.drop k) ↔
        runeCountAt u string ((encode before).length + (encode (rest.take k)).length)
          (encode (rest.take k)).length = some (k : Int) := by
      have htext : string.text = encode (before ++ rest.take k ++ rest.drop k) := by
        rw [hs, hcs, append_assoc, take_append_drop]
      rw [runeCountAt_eq_some_iff htext (by rw [encode_append, length_append]), Measured, hgap]
    have hround : ∀ rounds xs, searchAllLoop u mm string (encode ps) ps.length (rounds + 1)
        (encode before).length before.length = some ((before.length + k : Int) :: xs) ↔
        Measured u string (rest.take k) (rest.drop k) ∧
          searchAllLoop u mm string (encode ps) ps.length rounds
            (encode (before ++ (rest.take k ++ ps))).length
            (before ++ (rest.take k ++ ps)).length = some xs := by
      intro rounds xs
      rw [searchAllLoop, if_pos hoff, hs, hcs, encode_append, drop_left, mmmmOf_encode hps, h]
      dsimp only [Option.map_some]
      rw [hmeasured, hoff']
      cases hread : runeCountAt u string
        ((encode before).length + (encode (rest.take k)).length) (encode (rest.take k)).length with
      | none => simp
      | some dist =>
        rw [Option.map_eq_some_iff, Option.some.injEq]
        constructor
        · rintro ⟨ys, hys, heq⟩
          obtain ⟨hdist, rfl⟩ := cons.inj heq
          obtain rfl : dist = k := by omega
          rw [hplace] at hys
          exact ⟨rfl, hys⟩
        · rintro ⟨rfl, hxs⟩
          rw [← hplace] at hxs
          exact ⟨xs, hxs, rfl⟩
    rw [cuts_of_some h, map_cons, forall_mem_cons, ← ih (by rw [length_drop]; omega) _ hnext.symm]
    have hhead : ((cs.length - (rest.drop k).length : Nat) : Int) = before.length + k := by
      rw [hcs, length_append, length_drop]
      omega
    rw [hhead]
    constructor
    · rintro ⟨rounds, hrounds⟩
      cases rounds with
      | zero => cases hrounds
      | succ rounds =>
        obtain ⟨hgap, hrest⟩ := (hround rounds _).mp hrounds
        exact ⟨hgap, rounds, hrest⟩
    · rintro ⟨hgap, rounds, hrest⟩
      exact ⟨rounds + 1, (hround rounds _).mpr ⟨hgap, hrest⟩⟩

/-! ### The places -/

/-- The places of the first occurrences, in characters. -/
def places (ps cs : List Char) : List Nat :=
  (cuts ps cs.length cs).map fun c => cs.length - c.2.length

lemma xXX_zero (s : Text) : xXX u s 0 = 0 := by
  rw [xXX]
  cases s.length <;> simp [xXXLoop]

lemma stringSearchAll_none (rounds : Nat) : stringSearchAll u mm rounds string pattern none =
    searchAllLoop u mm string pattern.text (runeCount u pattern.text) rounds 0 0 := by
  simp only [stringSearchAll, searchOffset, xXX_zero]
  rw [if_neg (Nat.not_lt_zero _)]

lemma stringSearch_eq_head? (hs : string.text = encode cs) (hp : pattern.text = encode ps)
    (hps : ps ≠ []) :
    stringSearch u mm string pattern none =
      (places ps cs).head?.map fun (k : Nat) => (k : Int) := by
  simp only [stringSearch, searchOffset, xXX_zero, hs, hp, drop_zero, mmmmOf_encode hps]
  rw [if_neg (Int.lt_irrefl 0)]
  cases cs with
  | nil => rfl
  | cons c cs =>
    have hle := length_le_encode_length (c :: cs)
    rw [length_cons] at hle
    rw [if_neg (by omega), places, length_cons]
    cases hfind : find ps (c :: cs) with
    | none =>
      rw [cuts_of_none hfind]
      rfl
    | some k =>
      have hlen := (find_eq_some_iff.mp hfind).le_length hps
      rw [cuts_of_some hfind, Option.map_map, Option.map_some, map_cons, head?_cons,
        Option.map_some, Function.comp_apply, take_encode, runeCount_encode, length_take,
        length_drop]
      rw [length_cons] at hlen ⊢
      congr 1
      omega

lemma stringSlice_places (hs : string.text = encode cs) (hp : pattern.text = encode ps) :
    ∀ k ∈ places ps cs, (stringSlice u string (BitVec.ofNat 64 k)
      (some (BitVec.ofNat 64 ps.length))).text = pattern.text := by
  intro k hk
  obtain ⟨c, hc, rfl⟩ := mem_map.mp hk
  obtain ⟨hsuffix, hstarts⟩ := of_mem_cuts ps _ cs c hc
  have hlt := string.text_length_lt
  have hle := length_le_encode_length cs
  have hlen := hstarts.length_le
  have hlen' := hsuffix.length_le
  rw [hs] at hlt
  have hview := (stringSlice_isView (u := u) hs (BitVec.ofNat 64 (cs.length - c.2.length))
    (some (BitVec.ofNat 64 ps.length))).text
  dsimp only at hview
  rw [hview, position_ofNat (by omega), position_ofNat (by omega),
    ← suffix_iff_eq_drop.mp hsuffix, ← List.prefix_iff_eq_take.mp hstarts, hp]

/-- An empty pattern is found at the same place again and again. -/
lemma searchAllLoop_nil (hs : string.text ≠ []) {plen : Int} (rounds : Nat) (offset : Int) :
    searchAllLoop u mm string [] plen rounds 0 offset = none := by
  induction rounds generalizing offset with
  | zero => rfl
  | succ rounds ih =>
    rw [searchAllLoop, if_pos (length_pos_iff.mpr hs), mmmmOf, if_pos rfl]
    simp [runeCountAt, ih]

/-- For a pattern that is not empty, `searchAll` returns the places of its first occurrences exactly
if the code points of every gap are counted right. With an empty one it does not return. -/
theorem searchAll_eq_places_iff (u : Utf8proc) (mm : Mmmm) (string pattern : Str)
    (cs ps : List Char) (hs : string.text = encode cs) (hp : pattern.text = encode ps) :
    (ps ≠ [] → ((∃ rounds, stringSearchAll u mm rounds string pattern none =
          some ((places ps cs).map fun (k : Nat) => (k : Int))) ↔
        ∀ c ∈ cuts ps cs.length cs, Measured u string c.1 c.2) ∧
      (∀ k ∈ places ps cs, (stringSlice u string (BitVec.ofNat 64 k)
        (some (BitVec.ofNat 64 ps.length))).text = pattern.text) ∧
      (places ps cs).Pairwise (fun j k => j + ps.length ≤ k) ∧
      stringSearch u mm string pattern none = (places ps cs).head?.map fun (k : Nat) => (k : Int)) ∧
    (ps = [] → cs ≠ [] → ∀ rounds, stringSearchAll u mm rounds string pattern none = none) ∧
    (ps = [] → cs = [] → stringSearchAll u mm 1 string pattern none = some [] ∧
      stringSearch u mm string pattern none = none) := by
  refine ⟨?_, ?_, ?_⟩
  · intro hps
    refine ⟨?_, stringSlice_places hs hp, ?_, stringSearch_eq_head? hs hp hps⟩
    · have hloop := searchAllLoop_eq_iff u mm hs hps cs.length cs .refl [] rfl
      rw [← hloop, places, map_map]
      simp only [stringSearchAll_none, hp, runeCount_encode]
      rfl
    · refine pairwise_map.mpr ((pairwise_cuts ps _ cs).imp_of_mem fun hc _ h => ?_)
      have hle := (of_mem_cuts ps _ cs _ hc).1.length_le
      omega
  · rintro rfl hcs rounds
    rw [stringSearchAll_none, hp]
    exact searchAllLoop_nil (by rwa [hs, Ne, encode_eq_nil]) rounds 0
  · rintro - rfl
    rw [stringSearchAll_none]
    simp [searchAllLoop, stringSearch, searchOffset, xXX_zero, hs]

/-- In `ébb`, the two bytes behind the gap are two code points. -/
theorem searchAll_off : ∃ string pattern : Str, string.text = encode ['é', 'b', 'b'] ∧
    pattern.text = encode ['b'] ∧ stringSearchAll plainUtf8proc plainMmmm 3 string pattern none =
      some [2, 3] ∧ places ['b'] ['é', 'b', 'b'] = [1, 2] := by
  refine ⟨.of [0xC3, 0xA9, 0x62, 0x62] (by decide),
    .of [0x62] (by decide), by decide, by decide, ?_, by decide⟩
  decide +kernel

theorem searchAll_eq_places_one : ∃ string pattern : Str, string.text = encode ['a', 'b'] ∧
    pattern.text = encode ['b'] ∧ ∃ rounds,
      stringSearchAll plainUtf8proc plainMmmm rounds string pattern none = some [1] :=
  ⟨.of [0x61, 0x62] (by decide), .of [0x62] (by decide), by decide, by decide,
    ((searchAll_eq_places_iff plainUtf8proc plainMmmm _ _ ['a', 'b'] ['b'] (by decide)
      (by decide)).1 (by decide)).1.mpr (by decide +kernel)⟩

end TyLang.Strings
