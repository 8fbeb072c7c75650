import TyLang.Equality.Equivalence
import TyLang.Lib.CInt
import TyLang.Lib.Lexicographic

/-!
`value_compare` of `src/value.c` on integers, strings, arrays and tuples. Results are of
type `int`, so only their sign means something, and a difference of lengths is kept
by it below `2 ^ 31`. On values without tags and names the comparison is that of
their contents, whatever is shared.
-/
namespace TyLang.ValueOrder
open List CInt Equality Lexicographic Option

/-! ### The comparison -/

def byteOrder (x y : UInt8) : Option Ordering := some (ofInt ((x.toNat : Int) - y.toNat))

structure Libc where
  memcmp : List UInt8 → List UInt8 → Int
  memcmp_order : ∀ xs ys, xs.length = ys.length →
    lex (xs.map byteOrder) ys = some (ofInt (memcmp xs ys))

section Model

variable (rt : Runtime) (libc : Libc) {β : Type}

def compareStrings (xs ys : List UInt8) : Int :=
  let n := min xs.length ys.length
  let c := libc.memcmp (xs.take n) (ys.take n)
  if c ≠ 0 then c else toInt ((xs.length : Int) - ys.length)

/-- What the loop over the items found, or else the difference of the lengths. -/
def orLengths (o : Option Int) (lengths : Int) : Option Int :=
  o.map fun o => if o ≠ 0 then o else lengths

/-- The loop of `compare_records`. It reads the items of the second record at every place
of the first. -/
def compareRecordsLoop : List (Int × (β → Option Int)) → List (Int × β) → Option Int
  | [], _ => some 0
  | _ :: _, [] => none
  | x :: xs, y :: ys =>
    if x.1 ≠ y.1 then some (if x.1 < y.1 then -1 else 1)
    else
      match x.2 y.2 with
      | none => none
      | some o => if o ≠ 0 then some o else compareRecordsLoop xs ys

def compareRecords (xs : List (Int × (β → Option Int))) (ys : List (Int × β)) : Option Int :=
  compareRecordsLoop (qsort rt xs) (qsort rt ys)

mutual

/-- The values are of the same kind, or there is an operator; `none` is a panic. -/
def valueCompare (v1 v2 : Val) : Option Int :=
  match v1, v2 with
  | .integer _ z, .integer _ z' => some (if z.slt z' then -1 else if z ≠ z' then 1 else 0)
  | .string _ bytes, .string _ bytes' => some (compareStrings libc bytes bytes')
  | .array _ _ items, .array _ _ items' =>
    orLengths (firstDifference (comparisons items) items')
      (toInt ((items.length : Int) - items'.length))
  | .tuple _ p ids items, .tuple _ q ids' items' =>
    if p = q then some 0
    else
      match ids, ids' with
      | some ids, some ids' => compareRecords rt (ids.zip (comparisons items)) (ids'.zip items')
      | _, _ =>
        orLengths (firstDifference (comparisons items) items')
          (toInt items.length - toInt items'.length)
  | v1, v2 => (rt.cmp (classOf v1) (classOf v2)).map fun f => toInt (f v1 v2)

def comparisons : List Val → List (Val → Option Int)
  | [] => []
  | v :: vs => (fun w => valueCompare v w) :: comparisons vs

end

end Model

/-! ### Contents -/

inductive Key where
  | int (z : BitVec 64)
  | string (bytes : List UInt8)
  | array (items : List Key)
  | tuple (items : List Key)
  | unordered
  deriving Repr

@[elab_as_elim, induction_eliminator]
lemma Key.induct {motive : Key → Prop} (int : ∀ z, motive (.int z))
    (string : ∀ bytes, motive (.string bytes))
    (array : ∀ items, (∀ k ∈ items, motive k) → motive (.array items))
    (tuple : ∀ items, (∀ k ∈ items, motive k) → motive (.tuple items))
    (unordered : motive .unordered) (k : Key) : motive k :=
  @Key.rec motive (fun ks => ∀ k ∈ ks, motive k) int string array tuple unordered (by simp)
    (fun _ _ hk hks _ hmem => (mem_cons.mp hmem).elim (fun h => h ▸ hk) (hks _)) k

mutual

def keyCompare : Key → Key → Option Ordering
  | .int z, .int z' => some (ofInt (z.toInt - z'.toInt))
  | .string bytes, .string bytes' => lex (bytes.map byteOrder) bytes'
  | .array items, .array items' => lex (keyComparisons items) items'
  | .tuple items, .tuple items' => lex (keyComparisons items) items'
  | .unordered, .unordered => some .eq
  | _, _ => none

def keyComparisons : List Key → List (Key → Option Ordering)
  | [] => []
  | k :: ks => (fun l => keyCompare k l) :: keyComparisons ks

end

lemma keyComparisons_eq (ks : List Key) : keyComparisons ks = ks.map keyCompare := by
  induction ks with
  | nil => rfl
  | cons k ks ih => rw [keyComparisons, ih, map_cons]

lemma byteOrder_eq_iff (x y : UInt8) : byteOrder x y = some .eq ↔ x = y := by
  rw [byteOrder, some.injEq, ofInt_eq_eq]
  constructor
  · intro h
    exact UInt8.toNat_inj.mp (by omega)
  · rintro rfl
    omega

lemma byteOrder_swap (x y : UInt8) : byteOrder y x = (byteOrder x y).map .swap := by
  rw [byteOrder, byteOrder, map_some, ← ofInt_neg, Int.neg_sub]

lemma byteOrder_trans (x y z : UInt8) (o1 o2 o3 : Ordering) (h1 : byteOrder x y = some o1)
    (h2 : byteOrder y z = some o2) (h3 : byteOrder x z = some o3) (ho1 : o1 ≠ .gt)
    (ho2 : o2 ≠ .gt) : o3 ≠ .gt := by
  cases h1
  cases h2
  cases h3
  rw [Ne, ofInt_eq_gt] at ho1 ho2 ⊢
  omega

lemma keyCompare_eq_iff (a b : Key) : keyCompare a b = some .eq ↔ a = b := by
  induction a generalizing b with
    cases b <;> try (simp [keyCompare]; done)
  | int z =>
    rw [keyCompare, some.injEq, ofInt_eq_eq, Key.int.injEq, ← BitVec.toInt_inj]
    omega
  | string bytes => rw [keyCompare, Key.string.injEq, lex_eq_iff fun x _ y => byteOrder_eq_iff x y]
  | array items ih => rw [keyCompare, Key.array.injEq, keyComparisons_eq, lex_eq_iff ih]
  | tuple items ih => rw [keyCompare, Key.tuple.injEq, keyComparisons_eq, lex_eq_iff ih]

lemma keyCompare_swap (a b : Key) : keyCompare b a = (keyCompare a b).map .swap := by
  induction a generalizing b with
    cases b <;> try (simp [keyCompare]; done)
  | int z => rw [keyCompare, keyCompare, map_some, ← ofInt_neg, Int.neg_sub]
  | string bytes => rw [keyCompare, keyCompare, lex_swap fun x _ y => byteOrder_swap x y]
  | array items ih | tuple items ih =>
    rw [keyCompare, keyCompare, keyComparisons_eq, keyComparisons_eq, lex_swap ih]

lemma keyCompare_trans (a b c : Key) (o1 o2 o3 : Ordering) (h1 : keyCompare a b = some o1)
    (h2 : keyCompare b c = some o2) (h3 : keyCompare a c = some o3) (ho1 : o1 ≠ .gt)
    (ho2 : o2 ≠ .gt) : o3 ≠ .gt := by
  have heq (a b : Key) (h : keyCompare a b = some .eq) : a = b := (keyCompare_eq_iff a b).mp h
  induction a generalizing b c o1 o2 o3 with
    (cases b <;> try cases h1
     cases c <;> try cases h3)
  | int z =>
    cases h2
    rw [Ne, ofInt_eq_gt] at ho1 ho2 ⊢
    omega
  | string bytes =>
    exact lex_trans (fun x y h => (byteOrder_eq_iff x y).mp h) byteOrder_swap
      (fun x _ => byteOrder_trans x) h1 h2 h3 ho1 ho2
  | array items ih | tuple items ih =>
    rw [keyCompare, keyComparisons_eq] at h1 h2 h3
    exact lex_trans heq keyCompare_swap ih h1 h2 h3 ho1 ho2
  | unordered => simp

/-! ### Values are compared by their contents -/

mutual

def keyOf : Val → Key
  | .integer _ z => .int z
  | .string _ bytes => .string bytes
  | .array _ _ items => .array (keysOf items)
  | .tuple _ _ _ items => .tuple (keysOf items)
  | .nil _ | .boolean _ _ | .queue _ _ _ => .unordered

def keysOf : List Val → List Key
  | [] => []
  | v :: vs => keyOf v :: keysOf vs

end

/-- Integers, strings, arrays and tuples without tags, names or a length of `2 ^ 31`. -/
inductive Plain : Val → Prop
  | integer (z : BitVec 64) : Plain (.integer 0 z)
  | string {bytes : List UInt8} : bytes.length < 2 ^ 31 → Plain (.string 0 bytes)
  | array {p : Nat} {items : List Val} : items.length < 2 ^ 31 → (∀ v ∈ items, Plain v) →
      Plain (.array 0 p items)
  | tuple {p : Nat} {items : List Val} : items.length < 2 ^ 31 → (∀ v ∈ items, Plain v) →
      Plain (.tuple 0 p none items)

section Contents

variable {rt : Runtime} {libc : Libc} {σ : Store}

lemma keysOf_eq (vs : List Val) : keysOf vs = vs.map keyOf := by
  induction vs with
  | nil => rfl
  | cons v vs ih => rw [keysOf, ih, map_cons]

lemma comparisons_eq (vs : List Val) :
    comparisons rt libc vs = vs.map (valueCompare rt libc) := by
  induction vs with
  | nil => rfl
  | cons v vs ih => rw [comparisons, ih, map_cons]

/-- A difference of lengths that is an `int` keeps its sign. -/
lemma ofInt_lengths {m n : Nat} (hm : m < 2 ^ 31) (hn : n < 2 ^ 31) :
    ofInt (toInt ((m : Int) - n)) = compare m n := by
  rw [toInt_of_isInt ⟨by omega, by omega⟩, ofInt_sub]

lemma ofInt_int_lengths {m n : Nat} (hm : m < 2 ^ 31) (hn : n < 2 ^ 31) :
    ofInt (toInt m - toInt n) = compare m n := by
  rw [toInt_of_isInt ⟨by omega, by omega⟩, toInt_of_isInt ⟨by omega, by omega⟩, ofInt_sub]

lemma map_orLengths {α β : Type} {f : α → β → Option Int} {xs : List α} {ys : List β} {d : Int}
    (hd : ofInt d = compare xs.length ys.length) :
    (orLengths (firstDifference (xs.map f) ys) d).map ofInt =
      lex (xs.map fun x y => (f x y).map ofInt) ys := by
  rw [lex_of_loop]
  cases firstDifference (xs.map f) ys with
  | none => rfl
  | some o =>
    by_cases ho : o = 0
    · subst ho
      simp [orLengths, hd]
    · simp [orLengths, ho]

lemma compareStrings_order {xs ys : List UInt8} (hxs : xs.length < 2 ^ 31)
    (hys : ys.length < 2 ^ 31) :
    some (ofInt (compareStrings libc xs ys)) = lex (xs.map byteOrder) ys := by
  let f (x y : UInt8) : Option Int := some ((x.toNat : Int) - y.toNat)
  let n := min xs.length ys.length
  have hlen : (xs.take n).length = (ys.take n).length := by
    rw [length_take, length_take]
    omega
  have hmem := libc.memcmp_order (xs.take n) (ys.take n) hlen
  have hloop := lex_of_loop (f := f) (xs.take n) (ys.take n)
  have hall := lex_of_loop (f := f) xs ys
  change lex ((xs.take n).map byteOrder) (ys.take n) = _ at hloop
  change lex (xs.map byteOrder) ys = _ at hall
  rw [firstDifference_take f xs ys n .refl, hmem, hlen, Nat.compare_eq_eq.mpr rfl]
    at hloop
  rw [hall]
  cases ho : firstDifference (xs.map f) ys with
  | none =>
    rw [ho] at hloop
    cases hloop
  | some o =>
    rw [ho, some.injEq] at hloop
    unfold compareStrings
    by_cases hzero : o = 0
    · subst hzero
      simp only [ne_eq, not_true_eq_false, if_false] at hloop ⊢
      rw [if_neg (not_not.mpr (ofInt_eq_eq.mp hloop)), ofInt_lengths hxs hys]
    simp only [ne_eq, hzero, not_false_eq_true, if_true] at hloop ⊢
    have hne : libc.memcmp (xs.take n) (ys.take n) ≠ 0 := by
      intro h
      rw [← ofInt_eq_eq, hloop, ofInt_eq_eq] at h
      exact hzero h
    rw [if_pos hne, hloop]

lemma compareInts_order (z z' : BitVec 64) :
    ofInt (if z.slt z' then -1 else if z ≠ z' then 1 else 0) = ofInt (z.toInt - z'.toInt) := by
  simp only [BitVec.slt_eq_decide, decide_eq_true_eq]
  have hinj : z ≠ z' ↔ z.toInt ≠ z'.toInt := not_congr BitVec.toInt_inj.symm
  rw [if_congr hinj rfl rfl]
  rcases Int.lt_trichotomy z.toInt z'.toInt with h | h | h
  · rw [if_pos h]
    unfold ofInt
    rw [if_pos (by omega), if_pos (by omega)]
  · rw [if_neg (by omega), if_neg (by omega)]
    unfold ofInt
    rw [if_neg (by omega), if_pos rfl, if_neg (by omega), if_pos (by omega)]
  · rw [if_neg (by omega), if_pos (by omega)]
    unfold ofInt
    rw [if_neg (by omega), if_neg (by omega), if_neg (by omega), if_neg (by omega)]

lemma dispatch_eq_none (v w : Val) :
    ((rt.cmp (classOf v) (classOf w)).map fun f => toInt (f v w)) = none := by
  rw [rt.cmp_builtin _ _ (classOf_isBuiltin v) (classOf_isBuiltin w)]
  rfl

variable (rt libc) in
lemma valueCompare_order {v w : Val} (hv : Stored σ v) (hw : Stored σ w) (pv : Plain v)
    (pw : Plain w) : (valueCompare rt libc v w).map ofInt = keyCompare (keyOf v) (keyOf w) := by
  induction v generalizing w with
    -- a panic, unless the values are of one kind
    cases pv <;> cases pw <;> try (simp only [valueCompare, dispatch_eq_none]; rfl)
  | integer tags z =>
    rw [valueCompare, map_some, compareInts_order]
    rfl
  | string tags bytes =>
    next hlen _ hlen' =>
    rw [valueCompare, map_some, compareStrings_order hlen hlen']
    rfl
  | array tags p items ih =>
    next hlen hitems _ _ hlen' hitems' =>
    rw [valueCompare, comparisons_eq, map_orLengths (ofInt_lengths hlen hlen'),
      keyOf, keyOf, keyCompare, keyComparisons_eq, keysOf_eq, keysOf_eq]
    exact lex_congr fun x hx y hy =>
      ih x hx (hv.items x hx) (hw.items y hy) (hitems x hx) (hitems' y hy)
  | tuple tags p ids items ih =>
    next hlen hitems q items' hlen' hitems' =>
    simp only [valueCompare]
    by_cases hpq : p = q
    · -- the same items, which are equal to themselves
      have hsame : items = items' := by
        cases hv with
        | tuple hp => cases hw with
          | tuple hq => rw [← hp, ← hq, hpq]
      rw [if_pos hpq, hsame, keyOf, keyOf, (keyCompare_eq_iff _ _).mpr rfl]
      rfl
    · rw [if_neg hpq, comparisons_eq, map_orLengths (ofInt_int_lengths hlen hlen'),
        keyOf, keyOf, keyCompare, keyComparisons_eq, keysOf_eq, keysOf_eq]
      exact lex_congr fun x hx y hy =>
        ih x hx (hv.items x hx) (hw.items y hy) (hitems x hx) (hitems' y hy)

lemma forall₂_equal_iff {xs ys : List Val}
    (h : ∀ x ∈ xs, ∀ y ∈ ys, Equal rt x y ↔ keyOf x = keyOf y) :
    List.Forall₂ (Equal rt) xs ys ↔ keysOf xs = keysOf ys := by
  induction xs generalizing ys with
  | nil => cases ys <;> simp [keysOf]
  | cons x xs ih =>
    cases ys with
    | nil => simp [keysOf]
    | cons y ys =>
      rw [forall₂_cons, keysOf, keysOf, cons.injEq, h x mem_cons_self y mem_cons_self,
        ih fun a ha b hb => h a (mem_cons_of_mem x ha) b (mem_cons_of_mem y hb)]

variable (rt) in
lemma equal_iff_key_eq {v w : Val} (hv : Stored σ v) (hw : Stored σ w) (pv : Plain v)
    (pw : Plain w) : Equal rt v w ↔ keyOf v = keyOf w := by
  induction v generalizing w with
    (rw [equal_iff hv hw]
     cases pv <;> cases pw <;> try (simp [Val.tags, Alike, keyOf]; done))
  | array tags p items ih =>
    next hitems _ _ _ hitems' =>
    rw [keyOf, keyOf, Key.array.injEq]
    exact (and_iff_right rfl).trans (forall₂_equal_iff fun x hx y hy =>
      ih x hx (hv.items x hx) (hw.items y hy) (hitems x hx) (hitems' y hy))
  | tuple tags p ids items ih =>
    next hitems _ _ _ hitems' =>
    rw [keyOf, keyOf, Key.tuple.injEq]
    exact (and_iff_right rfl).trans (forall₂_equal_iff fun x hx y hy =>
      ih x hx (hv.items x hx) (hw.items y hy) (hitems x hx) (hitems' y hy))

end Contents

/-- On untagged integers, strings, arrays and tuples the comparison is a total order,
whose equality is `value_test_equality`. The comparisons end where no pair of different
kinds is met. -/
theorem valueCompare_total_order (rt : Runtime) (libc : Libc) {σ : Store} {a b c : Val}
    (ha : Stored σ a) (hb : Stored σ b) (hc : Stored σ c) (pa : Plain a) (pb : Plain b)
    (pc : Plain c) {ab bc ac : Int} (hab : valueCompare rt libc a b = some ab)
    (hbc : valueCompare rt libc b c = some bc) (hac : valueCompare rt libc a c = some ac) :
    (∃ ba, valueCompare rt libc b a = some ba ∧ ab.sign = -ba.sign) ∧
      (ab ≤ 0 → bc ≤ 0 → ac ≤ 0) ∧ (ab = 0 ↔ valueTestEquality rt a b) := by
  have kab := valueCompare_order rt libc ha hb pa pb
  have kba := valueCompare_order rt libc hb ha pb pa
  have kbc := valueCompare_order rt libc hb hc pb pc
  have kac := valueCompare_order rt libc ha hc pa pc
  rw [hab, map_some] at kab
  rw [hbc, map_some] at kbc
  rw [hac, map_some] at kac
  rw [keyCompare_swap, ← kab] at kba
  have hpos (z : Int) : z ≤ 0 ↔ ofInt z ≠ .gt := by
    rw [Ne, ofInt_eq_gt, not_lt]
  refine ⟨?_, ?_, ?_⟩
  · cases hba : valueCompare rt libc b a with
    | none =>
      rw [hba] at kba
      cases kba
    | some ba =>
      rw [hba, map_some, map_some, some.injEq, ← ofInt_neg, ofInt_eq_iff, Int.sign_neg] at kba
      exact ⟨ba, rfl, by omega⟩
  · rw [hpos, hpos, hpos]
    exact keyCompare_trans _ _ _ _ _ _ kab.symm kbc.symm kac.symm
  · rw [← ofInt_eq_eq, ← some.injEq, kab, keyCompare_eq_iff,
      ← equal_iff_key_eq rt ha hb pa pb, Equal]

lemma exists_lex_byteOrder (xs ys : List UInt8) : ∃ o, lex (xs.map byteOrder) ys = some o := by
  induction xs generalizing ys with
  | nil => cases ys <;> exact ⟨_, rfl⟩
  | cons x xs ih =>
    cases ys with
    | nil => exact ⟨_, rfl⟩
    | cons y ys =>
      rw [map_cons]
      by_cases h : byteOrder x y = some .eq
      · rw [lex_cons_of_eq h]
        exact ih ys
      · rw [lex_cons_of_ne h]
        exact ⟨_, rfl⟩

def plainLibc : Libc where
  memcmp xs ys :=
    match lex (xs.map byteOrder) ys with
    | some .lt => -1
    | some .gt => 1
    | _ => 0
  memcmp_order xs ys _ := by
    obtain ⟨o, ho⟩ := exists_lex_byteOrder xs ys
    rw [ho]
    cases o <;> rfl

def threeLists : Nat → List (BitVec 64)
  | 1 => [1]
  | 2 => [1, 2]
  | _ => [2]

def threeArrays : Store where
  array p := (threeLists p).map (.integer 0)
  queue _ := []
  tuple _ := []
  ids _ := none

def arrayAt (p : Nat) : Val := .array 0 p ((threeLists p).map (.integer 0))

lemma stored_arrayAt (p : Nat) : Stored threeArrays (arrayAt p) := by
  refine .array rfl fun v hv => ?_
  obtain ⟨z, _, rfl⟩ := mem_map.mp hv
  exact .integer ..

lemma plain_arrayAt {p : Nat} (hp : (threeLists p).length < 2 ^ 31) : Plain (arrayAt p) := by
  refine .array (by rwa [length_map]) fun v hv => ?_
  obtain ⟨z, _, rfl⟩ := mem_map.mp hv
  exact .integer ..

theorem valueCompare_total_order_arrays :
    (∃ ba, valueCompare plainRuntime plainLibc (arrayAt 2) (arrayAt 1) = some ba ∧
        (-1 : Int).sign = -ba.sign) ∧
      ((-1 : Int) ≤ 0 → (-1 : Int) ≤ 0 → (-1 : Int) ≤ 0) ∧
      ((-1 : Int) = 0 ↔ valueTestEquality plainRuntime (arrayAt 1) (arrayAt 2)) :=
  valueCompare_total_order plainRuntime plainLibc (stored_arrayAt 1) (stored_arrayAt 2)
    (stored_arrayAt 3) (plain_arrayAt (by decide)) (plain_arrayAt (by decide))
    (plain_arrayAt (by decide)) (by decide +kernel) (by decide +kernel) (by decide +kernel)

end TyLang.ValueOrder
