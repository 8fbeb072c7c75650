import TyLang.Lib.Occurrences
import TyLang.Strings.Model

/-!
`split`, `count`, `comb` and `replace` with a string as the pattern (`src/str.c`). All of them
go from one occurrence of the pattern to the next; `split` looks for it place by place, the
others with `mmmm`.
-/
namespace TyLang.Strings
open List Occurrences

/-- `mmmm`, with the place that it finds. -/
structure Mmmm where
  mmmm : Text → Text → Option Nat
  mmmm_first : ∀ s p k, p ≠ [] → (mmmm s p = some k ↔ IsFirst p s k)

section Split

def isPrefix (big little : Text) : Bool :=
  little.length ≤ big.length && big.take little.length == little

/-- The inner loop of `string_split`, to the next occurrence or the end. -/
def splitScan (s p : Text) : Nat → Nat → Nat
  | 0, i => i
  | fuel + 1, i =>
    if i < s.length ∧ isPrefix (s.drop i) p = false then splitScan s p fuel (i + 1) else i

lemma splitScan_le (s p : Text) : ∀ fuel i, i ≤ s.length → splitScan s p fuel i ≤ s.length := by
  intro fuel
  induction fuel with
  | zero => exact fun i hi => hi
  | succ fuel ih =>
    intro i hi
    rw [splitScan]
    split
    · next hgo => exact ih (i + 1) hgo.1
    · exact hi

variable (string : Str) (p : Text) (limit : Option (BitVec 64))

/-- The end of the piece that starts at `i`, after `count` pieces. -/
def pieceEnd (i count : Nat) : Nat :=
  if limit = some (BitVec.ofNat 64 count) then string.text.length
  else splitScan string.text p string.text.length i

lemma pieceEnd_fits {i : Nat} (count : Nat) (h : i < string.text.length) :
    i + (pieceEnd string p limit i count - i) ≤ string.bytes.toNat := by
  have hscan := splitScan_le string.text p string.text.length i h.le
  rw [← Str.text_length]
  unfold pieceEnd
  split <;> omega

/-- The outer loop of `string_split`, and the empty piece behind a pattern at the end. -/
def splitLoop : Nat → Nat → List Str → List Str
  | 0, _, result => result
  | fuel + 1, i, result =>
    if h : i < string.text.length then
      let j := pieceEnd string p limit i result.length
      let str := stringView string i (j - i) (pieceEnd_fits string p limit result.length h)
      splitLoop fuel (j + p.length) (result ++ [str])
    else if i = string.text.length then result ++ [stringEmpty]
    else result

/-- `string_split`. Every piece passes over a byte at least, of the pattern, and one more turn
is the one that ends the loop. -/
def stringSplit (string pattern : Str) (limit : Option (BitVec 64)) : List Str :=
  if pattern.bytes = 0 then []
  else splitLoop string pattern.text limit (string.text.length + 2) 0 []

end Split

section Loops

variable {β : Type} (mm : Mmmm)

/-- The loop of the other methods: `step` sees what is before the next occurrence. What is left
of the string behind the last one is returned too. -/
def matchLoop (p : Text) (step : β → Text → β) : Nat → Text → β → β × Text
  | 0, s, acc => (acc, s)
  | fuel + 1, s, acc =>
    match mm.mmmm s p with
    | none => (acc, s)
    | some m => matchLoop p step fuel (s.drop (m + p.length)) (step acc (s.take m))

/-- `string_count`, which returns a string if its own is `NULL`. -/
def stringCount (string pattern : Str) : Str ⊕ Nat :=
  if string.null then .inl stringEmpty
  else if pattern.bytes = 0 then .inr 0
  else .inr (matchLoop mm pattern.text (fun count _ => count + 1) string.text.length
    string.text 0).1

def stringComb (string pattern : Str) : Option Str :=
  if string.null then some stringEmpty
  else if pattern.bytes = 0 then some string
  else
    let out := matchLoop mm pattern.text (fun out s => (out.1 ++ s, true)) string.text.length
      string.text (([] : Text), false)
    let scratch := out.1.1 ++ out.2
    if out.1.2 = false then some string
    else if scratch = [] then some stringEmpty
    else stringClone scratch

def stringReplace (string pattern replacement : Str) : Option Str :=
  if pattern.bytes = 0 then some string
  else
    let out := matchLoop mm pattern.text (fun chars s => chars ++ s ++ replacement.text)
      string.text.length string.text []
    stringClone (out.1 ++ out.2)

end Loops

/-! ### The pieces -/

section Pieces

variable {s p : Text} {limit : Option (BitVec 64)}

lemma isPrefix_iff (big little : Text) : isPrefix big little ↔ little <+: big := by
  rw [isPrefix, Bool.and_eq_true, decide_eq_true_eq, beq_iff_eq, List.prefix_iff_eq_take]
  constructor
  · exact fun h => h.2.symm
  · intro h
    refine ⟨?_, h.symm⟩
    have hlength := congrArg length h
    rw [length_take] at hlength
    omega

lemma find_nil (hp : p ≠ []) : find p ([] : Text) = none := if_neg hp

lemma splitScan_eq (hp : p ≠ []) : ∀ fuel i : Nat, i ≤ s.length → s.length - i ≤ fuel →
    splitScan s p fuel i =
      match find p (s.drop i) with
      | none => s.length
      | some k => i + k := by
  intro fuel
  induction fuel with
  | zero =>
    intro i hi hfuel
    rw [splitScan, drop_of_length_le (by omega), find_nil hp]
    dsimp only
    omega
  | succ fuel ih =>
    intro i hi hfuel
    rw [splitScan]
    by_cases hlt : i < s.length
    · have hdrop := drop_eq_getElem_cons hlt
      by_cases hpre : p <+: s.drop i
      · have hfind : find p (s.drop i) = some 0 := by
          rw [hdrop, find, if_pos (hdrop ▸ hpre)]
        rw [if_neg (by simp [(isPrefix_iff _ _).mpr hpre]), hfind]
        rfl
      · have hscan : isPrefix (s.drop i) p = false :=
          Bool.eq_false_iff.mpr fun h => hpre ((isPrefix_iff _ _).mp h)
        have hfind : find p (s.drop i) = (find p (s.drop (i + 1))).map (· + 1) := by
          conv_lhs => rw [hdrop, find, if_neg (hdrop ▸ hpre)]
        rw [if_pos ⟨hlt, hscan⟩, ih (i + 1) hlt (by omega), hfind]
        cases find p (s.drop (i + 1)) with
        | none => rfl
        | some k => exact Nat.add_right_comm i 1 k
    · rw [if_neg fun h => hlt h.1, drop_of_length_le (by omega), find_nil hp]
      dsimp only
      omega

lemma splitLoop_of_gt {string : Str} {i : Nat}
    (hi : string.text.length < i) (fuel : Nat) (result : List Str) :
    splitLoop string p limit fuel i result = result := by
  cases fuel with
  | zero => rfl
  | succ fuel => rw [splitLoop, dif_neg (by omega), if_neg (by omega)]

/-- The loop goes on with the pieces of what is left, with `m` cuts to be made. -/
lemma splitLoop_text {string : Str} (hp : p ≠ []) :
    ∀ (fuel i : Nat) (result : List Str) (m : Nat), string.text.length + 1 - i < fuel →
      i ≤ string.text.length →
      (limit = none → string.text.length - i ≤ m) →
      (∀ z, limit = some z → z.toNat = result.length + m) →
      (splitLoop string p limit fuel i result).map Str.text =
        result.map Str.text ++ pieces p m (string.text.drop i) := by
  have hpos := length_pos_iff.mpr hp
  intro fuel
  induction fuel with
  | zero => exact fun i result m hfuel => nomatch hfuel
  | succ fuel ih =>
    intro i result m hfuel hi hnone hsome
    by_cases hlt : i < string.text.length
    · -- the last piece goes to the end
      have hlast (hend : pieceEnd string p limit i result.length = string.text.length)
          (hpieces : pieces p m (string.text.drop i) = [string.text.drop i]) :
          (splitLoop string p limit (fuel + 1) i result).map Str.text =
            result.map Str.text ++ pieces p m (string.text.drop i) := by
        rw [splitLoop, dif_pos hlt]
        rw [splitLoop_of_gt (by omega), map_append, map_singleton, text_stringView,
          hend, hpieces, take_of_length_le (by rw [length_drop])]
      by_cases hlimit : limit = some (BitVec.ofNat 64 result.length)
      · have hm := hsome _ hlimit
        rw [BitVec.toNat_ofNat] at hm
        have hzero : m = 0 := by omega
        exact hlast (if_pos hlimit) (by rw [hzero, pieces])
      · have hend : pieceEnd string p limit i result.length =
            match find p (string.text.drop i) with
            | none => string.text.length
            | some k => i + k := by
          rw [pieceEnd, if_neg hlimit, splitScan_eq hp _ _ hi (Nat.sub_le _ _)]
        cases hfind : find p (string.text.drop i) with
        | none => exact hlast (by rw [hend, hfind]) (pieces_of_none hfind)
        | some k =>
          replace hend : pieceEnd string p limit i result.length = i + k := by rw [hend, hfind]
          have hle := (find_eq_some_iff.mp hfind).le_length hp
          rw [length_drop] at hle
          obtain ⟨m, rfl⟩ : ∃ m', m = m' + 1 := by
            refine ⟨m - 1, ?_⟩
            by_contra hm
            have hzero : m = 0 := by omega
            cases hcase : limit with
            | none => exact absurd (hnone hcase) (by omega)
            | some z =>
              have hz := hsome z hcase
              rw [hzero, Nat.add_zero] at hz
              refine hlimit ?_
              rw [hcase, ← hz, BitVec.ofNat_toNat, BitVec.setWidth_eq]
          rw [splitLoop, dif_pos hlt]
          rw [ih _ _ m (by omega) (by omega) (fun h => by have := hnone h; omega) ?_]
          · rw [map_append, map_singleton, text_stringView, hend,
              Nat.add_sub_cancel_left, append_assoc, singleton_append,
              pieces_of_some hfind, drop_drop, Nat.add_assoc]
          · intro z hz
            rw [hsome z hz, length_append, length_singleton]
            omega
    · rw [splitLoop, dif_neg hlt, if_pos (by omega), map_append, map_singleton,
        text_stringEmpty, drop_of_length_le (by omega), pieces_of_none (find_nil hp)]

lemma text_ne_nil_iff (pattern : Str) : pattern.text ≠ [] ↔ pattern.bytes ≠ 0 := by
  rw [Ne, Ne, ← length_eq_zero_iff, Str.text_length, ← BitVec.toNat_inj]
  rfl

lemma stringSplit_text (string : Str) {pattern : Str} (hp : pattern.text ≠ []) :
    (stringSplit string pattern none).map Str.text =
      pieces pattern.text string.text.length string.text := by
  rw [stringSplit, if_neg ((text_ne_nil_iff pattern).mp hp),
    splitLoop_text hp _ _ _ string.text.length (by omega) (Nat.zero_le _) (fun _ => Nat.sub_le _ _)
      (fun z hz => by cases hz)]
  rfl

lemma stringSplit_limit_text {string pattern : Str} (hp : pattern.text ≠ []) (n : BitVec 64) :
    (stringSplit string pattern (some n)).map Str.text =
      pieces pattern.text n.toNat string.text := by
  rw [stringSplit, if_neg ((text_ne_nil_iff pattern).mp hp),
    splitLoop_text hp _ _ _ n.toNat (by omega) (Nat.zero_le _) (fun h => by cases h)
      (fun z hz => by cases hz; exact (Nat.zero_add _).symm)]
  rfl

variable {β : Type} {mm : Mmmm}

lemma mmmm_eq_find (hp : p ≠ []) : mm.mmmm s p = find p s := by
  apply Option.ext
  intro k
  rw [mm.mmmm_first s p k hp, find_eq_some_iff]

variable (mm) in
/-- The loop sees all pieces but the last, which it leaves. -/
lemma matchLoop_eq (hp : p ≠ []) (step : β → Text → β) : ∀ fuel (s : Text) (acc : β),
    ∃ l last, pieces p fuel s = l ++ [last] ∧
      matchLoop mm p step fuel s acc = (l.foldl step acc, last) := by
  intro fuel
  induction fuel with
  | zero => exact fun s acc => ⟨[], s, rfl, rfl⟩
  | succ fuel ih =>
    intro s acc
    rw [matchLoop, mmmm_eq_find hp]
    cases hfind : find p s with
    | none => exact ⟨[], s, pieces_of_none hfind, rfl⟩
    | some k =>
      obtain ⟨l, last, hpieces, hloop⟩ := ih (s.drop (k + p.length)) (step acc (s.take k))
      refine ⟨s.take k :: l, last, ?_, hloop⟩
      rw [pieces_of_some hfind, hpieces, cons_append]

lemma foldl_count (l : List Text) (count : Nat) :
    l.foldl (fun count _ => count + 1) count = count + l.length := by
  induction l generalizing count with
  | nil => rfl
  | cons x l ih =>
    rw [foldl_cons, ih, length_cons]
    omega

lemma foldl_replace (r : Text) (l : List Text) (chars last : Text) :
    l.foldl (fun chars s => chars ++ s ++ r) chars ++ last =
      chars ++ r.intercalate (l ++ [last]) := by
  induction l generalizing chars with
  | nil => rw [foldl_nil, nil_append, intercalate_singleton]
  | cons x l ih =>
    rw [foldl_cons, ih, cons_append, intercalate_cons_of_ne_nil (by simp)]
    simp only [append_assoc]

lemma foldl_comb (l : List Text) (scratch : Text) (any : Bool) :
    l.foldl (fun out s => (out.1 ++ s, true)) (scratch, any) =
      (scratch ++ l.flatten, any || !l.isEmpty) := by
  induction l generalizing scratch any with
  | nil => simp
  | cons x l ih =>
    rw [foldl_cons, ih]
    simp

lemma stringCount_eq {string pattern : Str} (hp : pattern.text ≠ []) (hs : string.text ≠ []) :
    stringCount mm string pattern = .inr (occurrences pattern.text string.text) := by
  obtain ⟨l, last, hpieces, hloop⟩ := matchLoop_eq mm hp (fun count _ => count + 1)
    string.text.length string.text 0
  have hnull : ¬ string.null := by
    intro h
    exact hs (Str.text_eq_nil (string.null_empty h))
  rw [stringCount, if_neg hnull, if_neg ((text_ne_nil_iff pattern).mp hp), hloop, foldl_count,
    occurrences, hpieces]
  simp

lemma stringReplace_eq {string pattern replacement : Str} (hp : pattern.text ≠ []) :
    stringReplace mm string pattern replacement =
      stringClone (replacement.text.intercalate
        (pieces pattern.text string.text.length string.text)) := by
  obtain ⟨l, last, hpieces, hloop⟩ := matchLoop_eq mm hp
    (fun chars s => chars ++ s ++ replacement.text) string.text.length string.text []
  rw [stringReplace, if_neg ((text_ne_nil_iff pattern).mp hp), hloop]
  dsimp only
  rw [foldl_replace, nil_append, hpieces]

variable (mm) in
/-- What is combed out makes the string shorter, so the clone has all bytes. -/
lemma stringComb_text (string : Str) {pattern : Str} (hp : pattern.text ≠ []) :
    ∃ t, stringComb mm string pattern = some t ∧
      t.text = [].intercalate (pieces pattern.text string.text.length string.text) := by
  have hlt := string.text_length_lt
  have hpos := length_pos_iff.mpr hp
  unfold stringComb
  by_cases hnull : string.null
  · have htext := Str.text_eq_nil (string.null_empty hnull)
    rw [if_pos hnull, htext]
    exact ⟨stringEmpty, rfl, rfl⟩
  obtain ⟨l, last, hpieces, hloop⟩ := matchLoop_eq mm hp (fun out s => (out.1 ++ s, true))
    string.text.length string.text (([] : Text), false)
  rw [if_neg hnull, if_neg ((text_ne_nil_iff pattern).mp hp), hloop, foldl_comb]
  dsimp only
  cases l with
  | nil =>
    refine ⟨string, rfl, ?_⟩
    have hjoin := intercalate_pieces pattern.text string.text.length string.text
    rw [hpieces, nil_append, intercalate_singleton] at hjoin
    rw [hpieces, nil_append, intercalate_singleton, hjoin]
  | cons x l =>
    have hscratch : [] ++ (x :: l).flatten ++ last =
        ([] : Text).intercalate (pieces pattern.text string.text.length string.text) := by
      rw [hpieces, intercalate_nil_sep, flatten_append, flatten_singleton, nil_append]
    have hlength := length_replaced pattern.text [] string.text
    have hoccurrences : occurrences pattern.text string.text = l.length + 1 := by
      rw [occurrences, hpieces]
      simp
    rw [hscratch, if_neg (by simp)]
    split
    · next hempty => exact ⟨stringEmpty, rfl, hempty.symm⟩
    · rw [stringClone_text_iff]
      rw [hoccurrences, length_nil, Nat.mul_zero, Nat.add_mul] at hlength
      omega

end Pieces

/-! ### Agreement -/

/-- The methods agree on a string, a pattern and a replacement. -/
structure Agree (mm : Mmmm) (s p r : Str) : Prop where
  join : p.text.intercalate ((stringSplit s p none).map Str.text) = s.text
  not_infix : ∀ x ∈ stringSplit s p none, ¬ p.text <:+: x.text
  limit_length : ∀ n : BitVec 64, 0 ≤ n.toInt →
    ((stringSplit s p (some n)).length : Int) ≤ n.toInt + 1
  limit_join : ∀ n : BitVec 64, 0 ≤ n.toInt →
    p.text.intercalate ((stringSplit s p (some n)).map Str.text) = s.text
  limit_not_infix : ∀ n : BitVec 64, 0 ≤ n.toInt →
    ∀ x ∈ (stringSplit s p (some n)).dropLast, ¬ p.text <:+: x.text
  replace : ∃ t, stringReplace mm s p r = some t ∧
    t.text = r.text.intercalate ((stringSplit s p none).map Str.text)
  comb : ∃ t t', stringComb mm s p = some t ∧ stringReplace mm s p stringEmpty = some t' ∧
    t.text = t'.text
  count : s.text ≠ [] → stringCount mm s p = .inr ((stringSplit s p none).length - 1)

lemma stringReplace_text_iff (mm : Mmmm) (s p r : Str) (hp : p.text ≠ []) :
    (∃ t, stringReplace mm s p r = some t ∧
        t.text = r.text.intercalate ((stringSplit s p none).map Str.text)) ↔
      s.text.length + occurrences p.text s.text * r.text.length <
        2 ^ 32 - 1 + occurrences p.text s.text * p.text.length := by
  have hlength := length_replaced p.text r.text s.text
  rw [stringSplit_text s hp, stringReplace_eq hp, stringClone_text_iff]
  omega

/-- They agree exactly if the result of `replace` is not too long. -/
theorem agree_iff (mm : Mmmm) (s p r : Str) (hp : p.text ≠ []) :
    Agree mm s p r ↔
      s.text.length + occurrences p.text s.text * r.text.length <
        2 ^ 32 - 1 + occurrences p.text s.text * p.text.length := by
  rw [← stringReplace_text_iff mm s p r hp]
  refine ⟨fun h => h.replace, fun hreplace => ?_⟩
  have hall := stringSplit_text s hp
  constructor
  case join => rw [hall, intercalate_pieces]
  case not_infix =>
    intro x hx
    apply not_infix_of_mem hp _ _ (Nat.le_refl s.text.length)
    rw [← hall]
    exact mem_map_of_mem hx
  case limit_length =>
    intro n hn
    have hle := length_pieces_le p.text n.toNat s.text
    rw [← stringSplit_limit_text hp, length_map] at hle
    have hnat := BitVec.toInt_eq_toNat_cond n
    split at hnat <;> omega
  case limit_join =>
    intro n _
    rw [stringSplit_limit_text hp, intercalate_pieces]
  case limit_not_infix =>
    intro n _ x hx
    apply not_infix_of_mem_dropLast hp n.toNat s.text
    rw [← stringSplit_limit_text hp, ← map_dropLast]
    exact mem_map_of_mem hx
  case replace => exact hreplace
  case comb =>
    obtain ⟨t, hcomb, htext⟩ := stringComb_text mm s hp
    have hsize := (stringReplace_text_iff mm s p r hp).mp hreplace
    obtain ⟨t', hempty, htext'⟩ := (stringReplace_text_iff mm s p stringEmpty hp).mpr (by
      rw [text_stringEmpty, length_nil]
      omega)
    rw [hall, text_stringEmpty] at htext'
    exact ⟨t, t', hcomb, hempty, htext.trans htext'.symm⟩
  case count =>
    intro hs
    rw [stringCount_eq hp hs, occurrences, ← hall, length_map]

def plainMmmm : Mmmm where
  mmmm s p := find p s
  mmmm_first _ _ _ _ := find_eq_some_iff

theorem agree_comma :
    Agree plainMmmm (.of [97, 44, 98] (by decide)) (.of [44] (by decide))
      (.of [59, 59] (by decide)) :=
  (agree_iff plainMmmm _ _ _ (by decide)).mpr (by decide)

lemma pieces_replicate (x : UInt8) (n : Nat) :
    pieces [x] n (replicate n x) = replicate (n + 1) [] := by
  induction n with
  | zero => rfl
  | succ n ih =>
    have hfind : find [x] (replicate (n + 1) x) = some 0 := by
      rw [replicate_succ, find, if_pos (by simp)]
    rw [pieces_of_some hfind, replicate_succ (n := n + 1), ← ih]
    rfl

lemma stringClone_wraps {chars : Text} (h : chars.length % 2 ^ 32 = 0) :
    ∃ t, stringClone chars = some t ∧ t.text = [] := by
  have hn : BitVec.ofNat 32 chars.length = 0 := by
    rw [← BitVec.toNat_inj, BitVec.toNat_ofNat, h]
    rfl
  unfold stringClone
  rw [if_neg fun hlast => by rw [hn] at hlast; exact absurd hlast.2 (by decide)]
  exact ⟨_, rfl, Str.text_eq_nil hn⟩

/-- Characters replaced by strings of `2 ^ 32` bytes in all. -/
lemma stringReplace_wraps {n m : Nat} (x y : UInt8) (hn : n < 2 ^ 32) (hm : m < 2 ^ 32)
    (hlong : n * m = 2 ^ 32) :
    ∃ s p r : Str, p.text ≠ [] ∧ ∃ t, stringReplace plainMmmm s p r = some t ∧ t.text = [] ∧
      r.text.intercalate ((stringSplit s p none).map Str.text) ≠ [] := by
  let s : Str := .of (replicate n x) (by rwa [length_replicate])
  let p : Str := .of [x] (by rw [length_singleton]; omega)
  let r : Str := .of (replicate m y) (by rwa [length_replicate])
  have hp : p.text ≠ [] := by
    exact cons_ne_nil _ _
  have hpieces : pieces p.text s.text.length s.text = replicate (n + 1) [] := by
    rw [Str.text_of, Str.text_of, length_replicate, pieces_replicate]
  have hlength : (r.text.intercalate (pieces p.text s.text.length s.text)).length = 2 ^ 32 := by
    rw [hpieces, Str.text_of, length_intercalate, map_replicate, length_replicate,
      length_replicate, length_nil, sum_replicate_nat, Nat.add_sub_cancel, hlong,
      Nat.mul_zero, Nat.zero_add]
  refine ⟨s, p, r, hp, ?_⟩
  obtain ⟨t, hclone, htext⟩ := stringClone_wraps (by rw [hlength, Nat.mod_self])
  refine ⟨t, by rw [stringReplace_eq hp, hclone], htext, ?_⟩
  rw [stringSplit_text s hp, Ne, ← length_eq_zero_iff, hlength]
  omega

/-- `2 ^ 16` characters, each replaced by `2 ^ 16` ones: the number of bytes is 0 as a `u32`. -/
theorem not_agree_long :
    ∃ s p r : Str, p.text ≠ [] ∧ ∃ t, stringReplace plainMmmm s p r = some t ∧ t.text = [] ∧
      r.text.intercalate ((stringSplit s p none).map Str.text) ≠ [] :=
  stringReplace_wraps 97 98 (by decide : 2 ^ 16 < 2 ^ 32) (by decide : 2 ^ 16 < 2 ^ 32) (by decide)

end TyLang.Strings
