import TyLang.Compare.Objects
import TyLang.Lib.CInt
import TyLang.Lib.Sorting

/-!
`Array.sort` (`src/array.c`). The integers that comparison functions and `<=>` return have
64 bits, of which the callbacks of `qsort` pass on the lower 32. The number of items is
an `int` as well.
-/
namespace TyLang.ArraySort
open List CInt Compare Sorting Option Function

/-- What comes from the C library: the reentrant `qsort`, which can be left by a panic of the
comparison. -/
structure Libc (α : Type) where
  rqsort : (α → α → Option Int) → List α → Option (List α)
  rqsort_sorts : ∀ cmp c xs, (∀ x ∈ xs, ∀ y ∈ xs, cmp x y = some (c x y)) → Preordered c xs →
    ∃ ys, rqsort cmp xs = some ys ∧ ys.Perm xs ∧ ys.Pairwise fun x y => c x y ≤ 0

inductive Arg (φ : Type) where
  | callable (f : φ)
  | other

structure Kwargs (α : Type) where
  by' : Option (Arg (α → α)) := none
  cmp : Option (Arg (α → α → Result)) := none
  desc : Bool := false

section Model

variable {α : Type} (libc : Libc α) (valueCompare : α → α → Option Int)

def compareDefault (v1 v2 : α) : Option Int := valueCompare v1 v2

def compareBy (f : α → α) (v1 v2 : α) : Option Int := valueCompare (f v1) (f v2)

def compareBy2 (f : α → α → Result) (v1 v2 : α) : Option Int :=
  match f v1 v2 with
  | .integer z => some (z.setWidth 32).toInt
  | .other b => some (if b then 1 else -1)

def swap (xs : List α) (i j : Nat) : List α :=
  match xs[i]?, xs[j]? with
  | some x, some y => (xs.set i y).set j x
  | _, _ => xs

def reverseLoop : Nat → Int → Int → List α → List α
  | 0, _, _, xs => xs
  | fuel + 1, lo, hi, xs =>
    if lo < hi then reverseLoop fuel (lo + 1) (hi - 1) (swap xs lo.toNat hi.toNat) else xs

/-- The index `hi` is compared as a `size_t`. -/
def arrayReverse (args : List (BitVec 64)) (xs : List α) : Option (List α) :=
  let lo : Int :=
    match args with
    | [] => 0
    | i :: _ => if i.toInt < 0 then i.toInt + xs.length else i.toInt
  if lo < 0 ∨ xs.length < lo then none
  else
    let n : Int :=
      match args with
      | _ :: n :: _ => n.toInt
      | _ => xs.length - lo
    if n = 0 then some xs
    else if xs.length ≤ (lo + n - 1) % 2 ^ 64 then none
    else some (reverseLoop xs.length lo (lo + n - 1) xs)

/-- The variables `i` and `n`, both of type `int`, before the checks. -/
def sortArgs (args : List (BitVec 64)) (count : Nat) : Option (Int × Int) :=
  match args with
  | [] => some (0, toInt count)
  | [i] => some (toInt i.toInt, toInt count)
  | [i, n] => some (toInt i.toInt, toInt n.toInt)
  | _ => none

/-- The sum is an `int` too, and is compared as a `size_t`. -/
def sortRange (args : List (BitVec 64)) (count : Nat) : Option (Nat × Nat) :=
  match sortArgs args count with
  | none => none
  | some (i, n) =>
    let i := if i < 0 then toInt (i + count) else i
    if n < 0 ∨ i < 0 ∨ (count : Int) < toInt (i + n) % 2 ^ 64 then none
    else some (i.toNat, n.toNat)

def sortItems (cmp : α → α → Option Int) (i n : Nat) (xs : List α) : Option (List α) :=
  (libc.rqsort cmp ((xs.drop i).take n)).map fun ys => xs.take i ++ (ys ++ xs.drop (i + n))

def arraySort (args : List (BitVec 64)) (kwargs : Kwargs α) (xs : List α) : Option (List α) :=
  match sortRange args xs.length with
  | none => none
  | some (i, n) =>
    let sorted :=
      match kwargs.by', kwargs.cmp with
      | some _, some _ => none
      | some (.callable f), none => sortItems libc (compareBy valueCompare f) i n xs
      | some .other, none => none
      | none, some (.callable f) => sortItems libc (compareBy2 f) i n xs
      | none, some .other => none
      | none, none => sortItems libc (compareDefault valueCompare) i n xs
    match sorted with
    | none => none
    | some ys => if kwargs.desc then arrayReverse args ys else some ys

end Model

section Sorts

variable {α : Type} {f : α → α → BitVec 64} {xs : List α} {cmp : α → α → Option Int}

def SortsTo (f : α → α → BitVec 64) (xs : List α) (result : Option (List α)) : Prop :=
  ∃ ys, result = some ys ∧ ys.Perm xs ∧ ys.IsChain fun x y => (f x y).toInt ≤ 0

/-- The lower half has the same sign. -/
def KeepsSign (z : BitVec 64) : Prop := (z.setWidth 32).toInt.sign = z.toInt.sign

/-- The first `n` items can be sorted on their own. -/
structure SortableUpTo (n : Nat) (f : α → α → BitVec 64) (xs : List α) : Prop where
  keepsSign : ∀ x ∈ xs.take n, ∀ y ∈ xs.take n, KeepsSign (f x y)
  before : ∀ x ∈ xs.take n, ∀ y ∈ xs.drop n, (f x y).toInt ≤ 0
  rest : (xs.drop n).IsChain fun x y => (f x y).toInt ≤ 0

def stableSort (cmp : α → α → Option Int) (xs : List α) : List α :=
  xs.insertionSort fun x y => (cmp x y).getD 0 ≤ 0

lemma stableSort_sorts {c : α → α → Int}
    (hcmp : ∀ x ∈ xs, ∀ y ∈ xs, cmp x y = some (c x y)) (hc : Preordered c xs) :
    (stableSort cmp xs).Perm xs ∧ (stableSort cmp xs).Pairwise fun x y => c x y ≤ 0 := by
  have hperm := perm_insertionSort (fun x y => (cmp x y).getD 0 ≤ 0) xs
  have hc' : Preordered (fun x y => (cmp x y).getD 0) xs :=
    hc.congr_sign fun x hx y hy => by rw [hcmp x hx y hy, getD_some]
  refine ⟨hperm, hc'.pairwise_insertionSort.imp_of_mem fun {x y} hx hy hxy => ?_⟩
  rwa [hcmp x (hperm.mem_iff.mp hx) y (hperm.mem_iff.mp hy), getD_some] at hxy

def stableLibc (α : Type) : Libc α where
  rqsort cmp xs := some (stableSort cmp xs)
  rqsort_sorts _ _ _ hcmp hc := ⟨_, rfl, stableSort_sorts hcmp hc⟩

open Classical in
/-- A sort that is stable after a rearrangement, and does no more than the rearrangement
where the comparison is not consistent. -/
noncomputable def arrangingLibc (π : List α → List α) (hπ : ∀ l, (π l).Perm l) : Libc α where
  rqsort cmp xs :=
    if Preordered (fun x y => (cmp x y).getD 0) xs then some (stableSort cmp (π xs))
      else some (π xs)
  rqsort_sorts cmp c xs hcmp hc := by
    have hmem (x : α) (hx : x ∈ π xs) : x ∈ xs := (hπ xs).mem_iff.mp hx
    obtain ⟨hperm, hsorted⟩ := stableSort_sorts
      (fun x hx y hy => hcmp x (hmem x hx) y (hmem y hy)) (hc.mono hmem)
    refine ⟨_, if_pos ?_, hperm.trans (hπ xs), hsorted⟩
    exact hc.congr_sign fun x hx y hy => by rw [hcmp x hx y hy, getD_some]

/-- Items whose order is lost: they are in the wrong order, but not for the callback, unless
that is inconsistent. -/
lemma exists_misplaced (hf : Preordered (fun x y => (f x y).toInt) xs) {x y : α} (hx : x ∈ xs)
    (hy : y ∈ xs) (hsign : ¬ KeepsSign (f x y)) :
    ∃ u ∈ xs, ∃ v ∈ xs, 0 < (f u v).toInt ∧
      (Preordered (fun x y => ((f x y).setWidth 32).toInt) xs →
        ((f u v).setWidth 32).toInt ≤ 0) := by
  unfold KeepsSign at hsign
  rcases Int.lt_trichotomy (f x y).toInt 0 with hlt | heq | hgt
  · have hswap := hf.sign_swap x hx y hy
    rw [Int.sign_eq_neg_one_of_neg hlt] at hswap hsign
    refine ⟨y, hy, x, hx, Int.sign_eq_one_iff_pos.mp (by omega), fun hg => ?_⟩
    have hback := hg.sign_swap y hy x hx
    rw [← Int.not_lt, ← Int.sign_eq_one_iff_pos]
    omega
  · have hzero : f x y = 0 := BitVec.eq_of_toInt_eq (heq.trans BitVec.toInt_zero.symm)
    rw [hzero] at hsign
    exact absurd rfl hsign
  · rw [Int.sign_eq_one_of_pos hgt] at hsign
    refine ⟨x, hx, y, hy, hgt, fun _ => ?_⟩
    rwa [← Int.not_lt, ← Int.sign_eq_one_iff_pos]

lemma sortItems_zero (libc : Libc α) (cmp : α → α → Option Int) (n : Nat) (xs : List α) :
    sortItems libc cmp 0 n xs = (libc.rqsort cmp (xs.take n)).map (· ++ xs.drop n) := by
  rw [sortItems, drop_zero, take_zero, Nat.zero_add]
  rfl

lemma SortsTo.pairwise {ys zs : List α} (hf : Preordered (fun x y => (f x y).toInt) xs)
    (h : SortsTo f xs ((some ys).map (· ++ zs))) :
    (ys ++ zs).Pairwise fun x y => (f x y).toInt ≤ 0 := by
  obtain ⟨_, ⟨⟩, hperm, hchain⟩ := h
  exact (hf.mono fun x hx => hperm.mem_iff.mp hx).pairwise_of_isChain hchain

lemma keepsSign_of_sorts {n : Nat}
    (hcmp : ∀ x ∈ xs, ∀ y ∈ xs, cmp x y = some ((f x y).setWidth 32).toInt)
    (hf : Preordered (fun x y => (f x y).toInt) xs)
    (h : ∀ libc, SortsTo f xs (sortItems libc cmp 0 n xs)) :
    ∀ x ∈ xs.take n, ∀ y ∈ xs.take n, KeepsSign (f x y) := by
  classical
  intro x hx y hy
  by_contra hsign
  have hmem (x : α) (hx : x ∈ xs.take n) : x ∈ xs := mem_of_mem_take hx
  obtain ⟨u, hu, v, hv, hpos, hcallback⟩ := exists_misplaced (hf.mono hmem) hx hy hsign
  have hne : u ≠ v := by
    rintro rfl
    exact absurd (hf.eq_zero (hmem u hu)) (Int.ne_of_gt hpos)
  obtain ⟨l, hl⟩ := exists_perm_pair hu hv hne
  -- a library that brings the two items to the front, and leaves them in this order
  let π := update id (xs.take n) (u :: v :: l)
  have hπ (l' : List α) : (π l').Perm l' := by
    by_cases h' : l' = xs.take n
    · rwa [h', show π (xs.take n) = u :: v :: l from update_self ..]
    · rw [show π l' = l' from update_of_ne h' ..]
  have hsub : [u, v].Sublist (π (xs.take n)) := by
    rw [show π (xs.take n) = u :: v :: l from update_self ..]
    exact (nil_sublist l).cons_cons v |>.cons_cons u
  have hsorts := h (arrangingLibc π hπ)
  rw [sortItems_zero] at hsorts
  suffices hout : ∃ ys, (arrangingLibc π hπ).rqsort cmp (xs.take n) = some ys ∧
      [u, v].Sublist ys by
    obtain ⟨ys, hys, hin⟩ := hout
    rw [hys] at hsorts
    have hsorted := (pairwise_append.mp (hsorts.pairwise hf)).1.sublist hin
    exact absurd (rel_of_pairwise_cons hsorted mem_cons_self) (Int.not_le.mpr hpos)
  by_cases hcons : Preordered (fun x y => (cmp x y).getD 0) (xs.take n)
  · refine ⟨_, if_pos hcons, pair_sublist_insertionSort ?_ hsub⟩
    rw [hcmp u (hmem u hu) v (hmem v hv), getD_some]
    apply hcallback
    exact hcons.congr_sign fun x hx y hy => by
      rw [hcmp x (hmem x hx) y (hmem y hy), getD_some]
  · exact ⟨_, if_neg hcons, hsub⟩

lemma sortItems_sorts_iff {n : Nat}
    (hcmp : ∀ x ∈ xs, ∀ y ∈ xs, cmp x y = some ((f x y).setWidth 32).toInt)
    (hf : Preordered (fun x y => (f x y).toInt) xs) :
    (∀ libc, SortsTo f xs (sortItems libc cmp 0 n xs)) ↔ SortableUpTo n f xs := by
  have htake (x : α) (hx : x ∈ xs.take n) : x ∈ xs := mem_of_mem_take hx
  have hdrop (x : α) (hx : x ∈ xs.drop n) : x ∈ xs := mem_of_mem_drop hx
  constructor
  · intro h
    have hstable := h (stableLibc α)
    rw [sortItems_zero] at hstable
    obtain ⟨_, hrest, hbefore⟩ := pairwise_append.mp (hstable.pairwise hf)
    refine ⟨keepsSign_of_sorts hcmp hf h, fun x hx y hy => ?_, hrest.isChain⟩
    exact hbefore x ((perm_insertionSort _ _).mem_iff.mpr hx) y hy
  · intro h libc
    have hg : Preordered (fun x y => ((f x y).setWidth 32).toInt) (xs.take n) :=
      (hf.mono htake).congr_sign h.keepsSign
    obtain ⟨ys, hrun, hperm, hsorted⟩ := libc.rqsort_sorts cmp _ (xs.take n)
      (fun x hx y hy => hcmp x (htake x hx) y (htake y hy)) hg
    rw [sortItems_zero, hrun]
    refine ⟨ys ++ xs.drop n, rfl, ?_, Pairwise.isChain (pairwise_append.mpr ⟨?_, ?_, ?_⟩)⟩
    · calc
        (ys ++ xs.drop n).Perm (xs.take n ++ xs.drop n) := hperm.append_right _
        _ = xs := take_append_drop n xs
    · refine hsorted.imp_of_mem fun {x y} hx hy hxy => ?_
      have hsign := h.keepsSign x (hperm.mem_iff.mp hx) y (hperm.mem_iff.mp hy)
      exact (Preordered.le_zero_iff_of_sign hsign).mp hxy
    · exact (hf.mono hdrop).pairwise_of_isChain h.rest
    · exact fun x hx y hy => h.before x (hperm.mem_iff.mp hx) y hy

lemma sortRange_nil (count : Nat) :
    sortRange [] count = if toInt count < 0 then none else some (0, (toInt count).toNat) := by
  simp only [sortRange, sortArgs, Int.lt_irrefl, if_false, Int.zero_add, false_or]
  have hle := toInt_le (Int.natCast_nonneg count)
  obtain ⟨_, hhi⟩ := isInt_toInt count
  rw [toInt_of_isInt (isInt_toInt count)]
  by_cases hneg : toInt count < 0
  · rw [if_pos (.inl hneg), if_pos hneg]
  · have hsize : ¬ (toInt count < 0 ∨ (count : Int) < toInt count % 2 ^ 64) := by omega
    rw [if_neg hsize, if_neg hneg]
    rfl

def Sortable (f : α → α → BitVec 64) (xs : List α) : Prop :=
  0 ≤ toInt xs.length ∧ SortableUpTo (toInt xs.length).toNat f xs

lemma sortable_iff_keepsSign (hlength : xs.length < 2 ^ 31) :
    Sortable f xs ↔ ∀ x ∈ xs, ∀ y ∈ xs, KeepsSign (f x y) := by
  have hcount : toInt xs.length = xs.length := toInt_of_isInt ⟨by omega, by omega⟩
  unfold Sortable
  rw [hcount, Int.toNat_natCast]
  constructor
  · intro h
    simpa only [take_length] using h.2.keepsSign
  · refine fun h => ⟨by omega, ?_, ?_, ?_⟩
    · simpa only [take_length] using h
    · simp only [drop_length, not_mem_nil, false_implies, implies_true]
    · rw [drop_length]
      exact .nil

lemma sorts_iff_sortable (cmp : α → α → Option Int) {sort : Libc α → Option (List α)}
    (hsort : ∀ libc, sort libc =
      (sortRange [] xs.length).bind fun range => sortItems libc cmp range.1 range.2 xs)
    (hcmp : ∀ x ∈ xs, ∀ y ∈ xs, cmp x y = some ((f x y).setWidth 32).toInt)
    (hf : Preordered (fun x y => (f x y).toInt) xs) :
    (∀ libc, SortsTo f xs (sort libc)) ↔ Sortable f xs := by
  unfold Sortable
  rw [← sortItems_sorts_iff hcmp hf]
  simp only [hsort, sortRange_nil]
  by_cases hneg : toInt xs.length < 0
  · rw [if_pos hneg]
    refine iff_of_false (fun h => ?_) fun h => Int.not_le.mpr hneg h.1
    obtain ⟨_, hnone, _⟩ := h (stableLibc α)
    cases hnone
  · rw [if_neg hneg, and_iff_right (Int.not_lt.mp hneg)]
    simp only [bind_some]

lemma arraySort_cmp (libc : Libc α) (valueCompare : α → α → Option Int)
    (args : List (BitVec 64)) (f : α → α → Result) (xs : List α) :
    arraySort libc valueCompare args { cmp := some (.callable f) } xs =
      (sortRange args xs.length).bind fun range =>
        sortItems libc (compareBy2 f) range.1 range.2 xs := by
  unfold arraySort
  cases sortRange args xs.length with
  | none => rfl
  | some range =>
    rw [bind_some]
    dsimp only
    cases sortItems libc (compareBy2 f) range.1 range.2 xs <;> rfl

lemma arraySort_default (libc : Libc α) (valueCompare : α → α → Option Int)
    (args : List (BitVec 64)) (xs : List α) :
    arraySort libc valueCompare args {} xs =
      (sortRange args xs.length).bind fun range =>
        sortItems libc (compareDefault valueCompare) range.1 range.2 xs := by
  unfold arraySort
  cases sortRange args xs.length with
  | none => rfl
  | some range =>
    rw [bind_some]
    dsimp only
    cases sortItems libc (compareDefault valueCompare) range.1 range.2 xs <;> rfl

end Sorts

/-- With a comparison function that is consistent, and on objects with a consistent `<=>`,
`sort` sorts by it exactly if the results keep their signs in 32 bits and the items
that the count in 32 bits leaves out are where they belong. -/
theorem arraySort_sorts_iff {α : Type} (valueCompare : α → α → Option Int)
    (f : α → α → BitVec 64) (xs : List α) (hf : Preordered (fun x y => (f x y).toInt) xs)
    (r : Program) (g : Object → Object → BitVec 64) (l : List Object)
    (hcmp : ∀ a ∈ l, ∀ b ∈ l, vmTry2op r r.cmp a b = some (.integer (g a b)))
    (hg : Preordered (fun a b => (g a b).toInt) l) :
    ((∀ libc, SortsTo f xs (arraySort libc valueCompare []
        { cmp := some (.callable fun x y => .integer (f x y)) } xs)) ↔ Sortable f xs) ∧
      ((∀ libc, SortsTo g l (arraySort libc (Compare.valueCompare r) [] {} l)) ↔ Sortable g l) := by
  constructor
  · apply sorts_iff_sortable (compareBy2 fun x y => .integer (f x y)) _ _ hf
    · exact fun libc => arraySort_cmp libc valueCompare [] _ xs
    · exact fun x _ y _ => rfl
  · apply sorts_iff_sortable (compareDefault (Compare.valueCompare r)) _ _ hg
    · exact fun libc => arraySort_default libc _ [] l
    · intro a ha b hb
      rw [compareDefault, Compare.valueCompare, hcmp a ha b hb]
      rfl

lemma preordered_sub {α : Type} {k : α → BitVec 64} {xs : List α}
    (h : ∀ x ∈ xs, ∀ y ∈ xs, (k x - k y).toInt = (k x).toInt - (k y).toInt) :
    Preordered (fun x y => (k x - k y).toInt) xs where
  sign_swap x hx y hy := by
    rw [h x hx y hy, h y hy x hx, ← Int.sign_neg, Int.neg_sub]
  trans x hx y hy z hz := by
    rw [h x hx y hy, h y hy z hz, h x hx z hz]
    omega

def address (a : Object) : BitVec 64 := BitVec.ofNat 64 a.p

theorem arraySort_sorts_small :
    (∀ libc, SortsTo (· - ·) [3, 1, 2] (arraySort libc (fun _ _ => none) []
        { cmp := some (.callable fun x y => .integer (x - y)) } [3, 1, 2])) ∧
      ∀ libc, SortsTo (fun a b => address a - address b) [⟨2, 1, 0⟩, ⟨1, 1, 0⟩]
        (arraySort libc (Compare.valueCompare byAddress) [] {} [⟨2, 1, 0⟩, ⟨1, 1, 0⟩]) := by
  have h := arraySort_sorts_iff (fun _ _ => none) (· - ·) [3, 1, 2] (preordered_sub (k := id) ?_)
    byAddress (fun a b => address a - address b) [⟨2, 1, 0⟩, ⟨1, 1, 0⟩] ?_ (preordered_sub ?_)
  · refine ⟨h.1.mpr ?_, h.2.mpr ?_⟩
    all_goals
      rw [sortable_iff_keepsSign (by decide)]
      unfold KeepsSign
      simp only [forall_mem_cons, not_mem_nil, false_implies, implies_true, and_true]
      decide +kernel
  all_goals
    simp only [forall_mem_cons, not_mem_nil, false_implies, implies_true, and_true]
    decide +kernel

/-- The difference `3 * 2 ^ 30` is negative in 32 bits, so the greater item comes first. -/
theorem arraySort_not_sorts :
    Preordered (fun x y : BitVec 64 => (x - y).toInt) [0, 3221225472] ∧
      arraySort (stableLibc (BitVec 64)) (fun _ _ => none) []
        { cmp := some (.callable fun x y => .integer (x - y)) } [0, 3221225472] =
          some [3221225472, 0] ∧
      0 < (3221225472 - 0 : BitVec 64).toInt := by
  refine ⟨preordered_sub (k := id) ?_, ?_, by decide +kernel⟩
  · simp only [forall_mem_cons, not_mem_nil, false_implies, implies_true, and_true]
    decide +kernel
  · decide +kernel

end TyLang.ArraySort
