import TyLang.Compare.Order

/-!
`value_compare` on records (`src/value.c`) whose fields are integers and strings. Both records
are sorted by the ids of their fields, and the loop runs over the fields of the first one.
-/
namespace TyLang.ValueOrder
open List CInt Equality Lexicographic

/-- Both orders of the arguments are compared, with results of opposite signs, which are zero
for the same values. -/
def Opposed (o o' : Option Int) (same : Prop) : Prop :=
  ∃ z z', o = some z ∧ o' = some z' ∧ z.sign = -z'.sign ∧ (z = 0 ↔ same)

section Fields

variable {rt : Runtime} {libc : Libc} {a b : List UInt8} {v w : Val}

/-- An integer or a string; the size of a string is a `u32`. -/
inductive Field : Val → Prop
  | integer (z : BitVec 64) : Field (.integer 0 z)
  | string {bytes : List UInt8} : bytes.length < 2 ^ 32 → Field (.string 0 bytes)

/-- The second string is the first one and `2 ^ 31` bytes more. -/
def FarLonger (a b : List UInt8) : Prop := b.take a.length = a ∧ b.length = a.length + 2 ^ 31

/-- The values are of one kind, and no strings whose lengths differ by `2 ^ 31` alone. -/
def Comparable : Val → Val → Prop
  | .integer _ _, .integer _ _ => True
  | .string _ a, .string _ b => ¬ FarLonger a b ∧ ¬ FarLonger b a
  | _, _ => False

lemma memcmp_swap (h : a.length = b.length) :
    (libc.memcmp a b).sign = -(libc.memcmp b a).sign := by
  have hab := libc.memcmp_order a b h
  rw [lex_swap fun x _ y => byteOrder_swap x y, libc.memcmp_order b a h.symm, Option.map_some,
    Option.some.injEq, ← ofInt_neg, ofInt_eq_iff, Int.sign_neg] at hab
  exact hab.symm

lemma memcmp_eq_zero_iff (libc : Libc) (h : a.length = b.length) : libc.memcmp a b = 0 ↔ a = b := by
  rw [← ofInt_eq_eq, ← Option.some.injEq, ← libc.memcmp_order a b h,
    lex_eq_iff fun x _ y => byteOrder_eq_iff x y]

lemma sign_eq_neg_iff {y z : Int} : y.sign = -z.sign ↔ (y < 0 ↔ 0 < z) ∧ (0 < y ↔ z < 0) := by
  have hneg : ∀ x : Int, x.sign = -1 ↔ x < 0 := fun x => Int.sign_eq_neg_one_iff_neg
  have hpos : ∀ x : Int, x.sign = 1 ↔ 0 < x := fun x => Int.sign_eq_one_iff_pos
  rw [← hneg y, ← hpos y, ← hneg z, ← hpos z]
  rcases Int.sign_trichotomy y with hy | hy | hy <;>
    rcases Int.sign_trichotomy z with hz | hz | hz <;> omega

/-- A difference of lengths and its negative, as `int`s. -/
lemma toInt_difference {d : Int} (hlo : -2 ^ 32 < d) (hhi : d < 2 ^ 32) :
    (toInt d = 0 ↔ d = 0) ∧ ((toInt d).sign = -(toInt (-d)).sign ↔ d ≠ 2 ^ 31 ∧ d ≠ -2 ^ 31) := by
  have hint : ∀ {z : Int}, -2 ^ 32 < z → z < 2 ^ 32 → toInt z =
      if 2 ^ 31 ≤ z then z - 2 ^ 32 else if z < -2 ^ 31 then z + 2 ^ 32 else z := by
    intro z _ _
    rw [toInt, Int.bmod_eq_iff (by decide)]
    omega
  rw [sign_eq_neg_iff, hint hlo hhi, hint (by omega) (by omega)]
  omega

lemma compareStrings_of_take (h : a.take (min a.length b.length) = b.take (min a.length b.length)) :
    compareStrings libc a b = toInt ((a.length : Int) - b.length) := by
  have hzero := (memcmp_eq_zero_iff libc (by rw [h])).mpr h
  simp [compareStrings, hzero]

lemma farLonger_iff (h : a.take (min a.length b.length) = b.take (min a.length b.length)) :
    FarLonger a b ↔ b.length = a.length + 2 ^ 31 := by
  refine and_iff_right_of_imp fun hlen => ?_
  rw [Nat.min_eq_left (by omega), take_length] at h
  exact h.symm

lemma compareStrings_spec (libc : Libc) (ha : a.length < 2 ^ 32) (hb : b.length < 2 ^ 32) :
    (compareStrings libc a b = 0 ↔ a = b) ∧
      ((compareStrings libc a b).sign = -(compareStrings libc b a).sign ↔
        ¬ FarLonger a b ∧ ¬ FarLonger b a) := by
  by_cases h : a.take (min a.length b.length) = b.take (min a.length b.length)
  · have h' : b.take (min b.length a.length) = a.take (min b.length a.length) := by
      rw [Nat.min_comm, h]
    have hneg : (b.length : Int) - a.length = -((a.length : Int) - b.length) := by omega
    obtain ⟨hzero, hsign⟩ := toInt_difference (d := (a.length : Int) - b.length) (by omega)
      (by omega)
    rw [compareStrings_of_take h, compareStrings_of_take h', farLonger_iff h,
      farLonger_iff h', hneg, hzero, hsign]
    refine ⟨⟨fun heq => ?_, fun heq => by rw [heq]; omega⟩, by omega⟩
    have hlen : a.length = b.length := by omega
    rwa [hlen, Nat.min_self, take_length, ← hlen, take_length] at h
  · have hlen : (a.take (min a.length b.length)).length =
        (b.take (min a.length b.length)).length := by
      rw [length_take, length_take]
      omega
    have hne := mt (memcmp_eq_zero_iff libc hlen).mp h
    have hne' := mt (memcmp_eq_zero_iff libc hlen.symm).mp (Ne.symm h)
    rw [compareStrings, compareStrings, if_pos hne, Nat.min_comm b.length, if_pos hne']
    refine ⟨iff_of_false hne fun heq => h (by rw [heq]),
      iff_of_true (memcmp_swap hlen) ⟨fun ⟨htake, hfar⟩ => h ?_, fun ⟨htake, hfar⟩ => h ?_⟩⟩
    · rw [Nat.min_eq_left (by omega), htake, take_length]
    · rw [Nat.min_eq_right (by omega), htake, take_length]

lemma compareInts_spec (z z' : BitVec 64) :
    let c (x y : BitVec 64) : Int := if x.slt y then -1 else if x ≠ y then 1 else 0
    (c z z' = 0 ↔ z = z') ∧ (c z z').sign = -(c z' z).sign := by
  intro c
  have hz : (c z z').sign = (z.toInt - z'.toInt).sign := ofInt_eq_iff.mp (compareInts_order z z')
  have hz' : (c z' z).sign = (z'.toInt - z.toInt).sign := ofInt_eq_iff.mp (compareInts_order z' z)
  refine ⟨?_, by rw [hz, hz', ← Int.sign_neg, Int.neg_sub]⟩
  rw [← Int.sign_eq_zero_iff_zero, hz, Int.sign_eq_zero_iff_zero, Int.sub_eq_zero, BitVec.toInt_inj]

/-- What `value_compare` does with two fields. -/
lemma field_cases (rt : Runtime) (libc : Libc) (hv : Field v) (hw : Field w) :
    (v ≠ w ∧ ¬ Comparable v w ∧ valueCompare rt libc v w = none) ∨
      ∃ z z', valueCompare rt libc v w = some z ∧ valueCompare rt libc w v = some z' ∧
        (z = 0 ↔ v = w) ∧ (z.sign = -z'.sign ↔ Comparable v w) := by
  cases hv with
  | integer z =>
    cases hw with
    | integer z' =>
      obtain ⟨hzero, hsign⟩ := compareInts_spec z z'
      refine .inr ⟨_, _, by rw [valueCompare], by rw [valueCompare], ?_, iff_of_true hsign trivial⟩
      rw [hzero, Val.integer.injEq, and_iff_right rfl]
    | string _ => exact .inl ⟨by simp, fun h => h, dispatch_eq_none _ _⟩
  | string hbytes =>
    cases hw with
    | integer z' => exact .inl ⟨by simp, fun h => h, dispatch_eq_none _ _⟩
    | string hbytes' =>
      obtain ⟨hzero, hsign⟩ := compareStrings_spec libc hbytes hbytes'
      refine .inr ⟨_, _, by rw [valueCompare], by rw [valueCompare], ?_, hsign⟩
      rw [hzero, Val.string.injEq, and_iff_right rfl]

end Fields

section Loop

variable {rt : Runtime} {libc : Libc} {xs ys : List (Int × Val)}

/-- The fields differ at a place that both records have, and can be compared at the first one,
or else there are as many of them. -/
def Decided : List (Int × Val) → List (Int × Val) → Prop
  | [], [] => True
  | x :: xs, y :: ys => x.1 ≠ y.1 ∨ x.2 = y.2 ∧ Decided xs ys ∨ x.2 ≠ y.2 ∧ Comparable x.2 y.2
  | _, _ => False

def compareFields (rt : Runtime) (libc : Libc) (xs ys : List (Int × Val)) : Option Int :=
  compareRecordsLoop (xs.map (Prod.map id (valueCompare rt libc))) ys

lemma compareFields_cons {x y : Int × Val} (hx : Field x.2) (hy : Field y.2) :
    compareFields rt libc (x :: xs) (y :: ys) =
      if x.1 ≠ y.1 then some (if x.1 < y.1 then -1 else 1)
      else open Classical in if x.2 = y.2 then compareFields rt libc xs ys
      else valueCompare rt libc x.2 y.2 := by
  refine if_congr Iff.rfl rfl ?_
  rcases field_cases rt libc hx hy with ⟨hne, -, hnone⟩ | ⟨z, z', hz, -, hzero, -⟩
  · rw [Prod.map_snd, hnone, if_neg hne]
  rw [Prod.map_snd, hz]
  by_cases heq : x.2 = y.2
  · rw [if_pos heq]
    exact if_neg (not_not.mpr (hzero.mpr heq))
  · rw [if_neg heq]
    exact if_pos (mt hzero.mp heq)

/-- What the loop does with two lists of fields, in both orders. -/
lemma compareFields_cases (rt : Runtime) (libc : Libc) (hxs : ∀ x ∈ xs, Field x.2)
    (hys : ∀ y ∈ ys, Field y.2) :
    (¬ Decided xs ys ∧
      (compareFields rt libc xs ys = none ∨ compareFields rt libc ys xs = none)) ∨
    ∃ z z', compareFields rt libc xs ys = some z ∧ compareFields rt libc ys xs = some z' ∧
      (z = 0 ↔ xs = ys) ∧ (z.sign = -z'.sign ↔ Decided xs ys) := by
  induction xs generalizing ys with
  | nil =>
    cases ys with
    | nil => exact .inr ⟨0, 0, rfl, rfl, by simp, iff_of_true rfl trivial⟩
    | cons y ys => exact .inl ⟨fun h => h, .inr rfl⟩
  | cons x xs ih =>
    cases ys with
    | nil => exact .inl ⟨fun h => h, .inl rfl⟩
    | cons y ys =>
      obtain ⟨hx, hxs⟩ := forall_mem_cons.mp hxs
      obtain ⟨hy, hys⟩ := forall_mem_cons.mp hys
      rw [compareFields_cons hx hy, compareFields_cons hy hx, Decided]
      by_cases hid : x.1 = y.1
      · rw [if_neg (not_not.mpr hid), if_neg (not_not.mpr hid.symm)]
        by_cases hval : x.2 = y.2
        · have hsame : x :: xs = y :: ys ↔ xs = ys := by
            rw [cons.injEq, and_iff_right (Prod.ext hid hval)]
          rw [if_pos hval, if_pos hval.symm, hsame]
          simpa [hid, hval] using ih hxs hys
        · have hne : x :: xs ≠ y :: ys := fun h => hval (congrArg Prod.snd (cons.inj h).1)
          rw [if_neg hval, if_neg (Ne.symm hval)]
          rcases field_cases rt libc hx hy with ⟨-, hnot, hnone⟩ | ⟨z, z', hz, hz', hzero, hsign⟩
          · exact .inl ⟨by simp [hid, hval, hnot], .inl hnone⟩
          · refine .inr ⟨z, z', hz, hz', iff_of_false (mt hzero.mp hval) hne, ?_⟩
            simpa [hid, hval] using hsign
      · have hne : x :: xs ≠ y :: ys := fun h => hid (congrArg Prod.fst (cons.inj h).1)
        rw [if_pos hid, if_pos (Ne.symm hid)]
        refine .inr ⟨_, _, rfl, rfl, iff_of_false ?_ hne, iff_of_true ?_ (.inl hid)⟩
        · split <;> omega
        · rw [sign_eq_neg_iff]
          split <;> split <;> omega

lemma compareFields_opposed_iff (hxs : ∀ x ∈ xs, Field x.2) (hys : ∀ y ∈ ys, Field y.2)
    (same : Prop) :
    Opposed (compareFields rt libc xs ys) (compareFields rt libc ys xs) same ↔
      Decided xs ys ∧ (xs = ys ↔ same) := by
  rcases compareFields_cases rt libc hxs hys with ⟨hnot, hnone⟩ | ⟨z, z', hz, hz', hzero, hsign⟩
  · refine iff_of_false (fun ⟨z, z', hz, hz', _⟩ => ?_) fun h => hnot h.1
    rcases hnone with hnone | hnone
    · cases hz.symm.trans hnone
    · cases hz'.symm.trans hnone
  · rw [hz, hz', ← hsign, ← hzero]
    refine ⟨fun ⟨_, _, h, h', hopp⟩ => ?_, fun hopp => ⟨z, z', rfl, rfl, hopp⟩⟩
    cases h
    cases h'
    exact hopp

lemma Decided.refl (xs : List (Int × Val)) : Decided xs xs := by
  induction xs with
  | nil => trivial
  | cons x xs ih => exact .inr (.inl ⟨rfl, ih⟩)

end Loop

section Records

variable {rt : Runtime} {σ : Store} {p q : Nat} {ids ids' : List Int} {xs ys : List Val}

/-- A tuple with ids for its fields, which are integers and strings. -/
structure IsRecord (σ : Store) (p : Nat) (ids : List Int) (xs : List Val) : Prop where
  stored : Stored σ (.tuple 0 p (some ids) xs)
  fields : ∀ v ∈ xs, Field v

lemma field_equal_iff {v w : Val} (hv : Field v) (hw : Field w) : Equal rt v w ↔ v = w := by
  cases hv <;> cases hw <;> simp [Equal, valueTestEquality, dispatched_eq_false, Val.tags]

lemma records_equal_iff (rt : Runtime) (hr : IsRecord σ p ids xs) (hs : IsRecord σ q ids' ys) :
    Equal rt (.tuple 0 p (some ids) xs) (.tuple 0 q (some ids') ys) ↔
      layout rt (ids.zip xs) = layout rt (ids'.zip ys) := by
  rw [equal_iff hr.stored hs.stored, ← forall₂_eq_eq_eq]
  refine (and_iff_right rfl).trans ⟨forall₂_imp_mem fun x hx y hy h => ?_,
    forall₂_imp_mem fun x hx y hy h => h ▸ ⟨rfl, equal_refl rt _⟩⟩
  exact Prod.ext h.1 ((field_equal_iff (hr.fields _ (mem_of_mem_layout hx))
    (hs.fields _ (mem_of_mem_layout hy))).mp h.2)

lemma IsRecord.field_of_mem (h : IsRecord σ p ids xs) :
    ∀ x ∈ qsort rt (ids.zip xs), Field x.2 := fun _ hx =>
  h.fields _ (of_mem_zip ((qsort_perm rt _).mem_iff.mp hx)).2

lemma compareRecords_eq (libc : Libc) :
    compareRecords rt (ids.zip (comparisons rt libc xs)) (ids'.zip ys) =
      compareFields rt libc (qsort rt (ids.zip xs)) (qsort rt (ids'.zip ys)) := by
  rw [compareRecords, comparisons_eq, zip_map_right, qsort_map, compareFields]

/-- Comparing two records of one store is right in both orders exactly if the sorted fields
decide, and are the same for records that are laid out in the same way by `records_equal`. The
two can differ where an id is repeated, as `qsort` need not be stable. -/
theorem valueCompare_records_iff (libc : Libc) (hr : IsRecord σ p ids xs)
    (hs : IsRecord σ q ids' ys) :
    Opposed (valueCompare rt libc (.tuple 0 p (some ids) xs) (.tuple 0 q (some ids') ys))
        (valueCompare rt libc (.tuple 0 q (some ids') ys) (.tuple 0 p (some ids) xs))
        (valueTestEquality rt (.tuple 0 p (some ids) xs) (.tuple 0 q (some ids') ys)) ↔
      Decided (qsort rt (ids.zip xs)) (qsort rt (ids'.zip ys)) ∧
        (qsort rt (ids.zip xs) = qsort rt (ids'.zip ys) ↔
          layout rt (ids.zip xs) = layout rt (ids'.zip ys)) := by
  have hequal := records_equal_iff rt hr hs
  rw [Equal] at hequal
  rw [hequal, valueCompare, valueCompare]
  by_cases hpq : p = q
  · have hsame : ids.zip xs = ids'.zip ys := by
      cases hr.stored with
      | tuple hp hids =>
        cases hs.stored with
        | tuple hq hids' =>
          subst hpq hp hq
          by_cases hnil : σ.tuple p = []
          · rw [hnil, zip_nil_right, zip_nil_right]
          · rw [Option.some.inj ((hids hnil).symm.trans (hids' hnil))]
    rw [if_pos hpq, if_pos hpq.symm, hsame]
    exact iff_of_true ⟨0, 0, rfl, rfl, rfl, by simp⟩ ⟨.refl _, iff_of_true rfl rfl⟩
  · rw [if_neg hpq, if_neg (Ne.symm hpq), compareRecords_eq, compareRecords_eq]
    exact compareFields_opposed_iff hr.field_of_mem hs.field_of_mem _

lemma isRecord_integers (zs : List (BitVec 64)) (hp : σ.tuple p = zs.map (.integer 0))
    (hids : σ.ids p = some ids) (hlen : ids.length = zs.length) :
    IsRecord σ p ids (zs.map (.integer 0)) := by
  have hmem : ∀ v ∈ zs.map (Val.integer 0), ∃ z, v = .integer 0 z := fun v hv => by
    obtain ⟨z, -, rfl⟩ := mem_map.mp hv
    exact ⟨z, rfl⟩
  refine ⟨.tuple hp (fun _ => hids) ?_ fun v hv => ?_, fun v hv => ?_⟩
  · intro l hl
    rw [← Option.some.inj hl, hlen, length_map]
  · obtain ⟨z, rfl⟩ := hmem v hv
    exact .integer ..
  · obtain ⟨z, rfl⟩ := hmem v hv
    exact .integer z

/-- The records `{a: 1, b: 2}` and `{a: 2}`. -/
def twoRecords : Store where
  array _ := []
  queue _ := []
  tuple p := (if p = 1 then [1, 2] else [2]).map (.integer 0)
  ids p := if p = 1 then some [3, 4] else some [3]

theorem valueCompare_records_two :
    Opposed (valueCompare plainRuntime plainLibc
      (.tuple 0 1 (some [3, 4]) [.integer 0 1, .integer 0 2])
        (.tuple 0 2 (some [3]) [.integer 0 2]))
      (valueCompare plainRuntime plainLibc (.tuple 0 2 (some [3]) [.integer 0 2])
        (.tuple 0 1 (some [3, 4]) [.integer 0 1, .integer 0 2]))
      (valueTestEquality plainRuntime (.tuple 0 1 (some [3, 4]) [.integer 0 1, .integer 0 2])
        (.tuple 0 2 (some [3]) [.integer 0 2])) := by
  have hr : IsRecord twoRecords 1 [3, 4] _ := isRecord_integers [1, 2] rfl rfl rfl
  have hs : IsRecord twoRecords 2 [3] _ := isRecord_integers [2] rfl rfl rfl
  refine (valueCompare_records_iff plainLibc hr hs).mpr ⟨.inr (.inr ⟨by simp, trivial⟩), ?_⟩
  exact iff_of_false (fun h => absurd (congrArg length h) (by decide))
    fun h => absurd (congrArg length h) (by decide)

/-- The longer record is read against fields that the shorter one does not have. In the other
order they compare as equal, which they are not. -/
theorem valueCompare_records_outside :
    valueCompare plainRuntime plainLibc (.tuple 0 1 (some [3, 4]) [.integer 0 1, .integer 0 2])
        (.tuple 0 2 (some [3]) [.integer 0 1]) = none ∧
      valueCompare plainRuntime plainLibc (.tuple 0 2 (some [3]) [.integer 0 1])
        (.tuple 0 1 (some [3, 4]) [.integer 0 1, .integer 0 2]) = some 0 ∧
      valueTestEquality plainRuntime (.tuple 0 2 (some [3]) [.integer 0 1])
        (.tuple 0 1 (some [3, 4]) [.integer 0 1, .integer 0 2]) = false := by
  decide +kernel

end Records
end TyLang.ValueOrder
