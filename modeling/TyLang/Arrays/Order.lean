import TyLang.Compare.Sort
import TyLang.Lib.Search

/-!
The methods of arrays that compare items (`src/array.c`): `bsearch?`, `bsearch` and
`nextPermutation!`. The indices are of type `int`.
-/
namespace TyLang.Arrays
open ArraySort CInt Search Sorting

section BinarySearch

variable {α : Type} (valueCompare : α → α → Option Int) (v : α) (xs : List α)

/-- The loop of both searches: whether the value was found, and where it is or belongs. -/
def bsearchLoop : Nat → Int → Int → Int → Option (Bool × Int)
  | 0, _, _, _ => none
  | fuel + 1, lo, hi, i =>
    if lo ≤ hi then
      let m := (toInt (lo + hi)).tdiv 2
      match if m < 0 then none else xs[m.toNat]? with
      | none => none
      | some x =>
        match valueCompare v x with
        | none => none
        | some c =>
          if c < 0 then bsearchLoop fuel lo (m - 1) m
          else if 0 < c then bsearchLoop fuel (m + 1) hi (m + 1)
          else some (true, m)
    else some (false, i)

/-- `bsearch?`; `none` is a panic. -/
def arrayBsearch : Option Int :=
  (bsearchLoop valueCompare v xs (xs.length + 1) 0 (toInt (xs.length - 1)) 0).map Prod.snd

/-- `bsearch`, which may return `nil`. -/
def arrayBsearchStrict : Option (Option Int) :=
  (bsearchLoop valueCompare v xs (xs.length + 1) 0 (toInt (xs.length - 1)) 0).map fun found =>
    if found.1 then some found.2 else none

end BinarySearch

section Search

variable {α : Type} {valueCompare : α → α → Option Int} {c : α → α → Int} {v : α} {xs : List α}

/-- On which side of the value the items are. -/
def sides (c : α → α → Int) (v : α) (xs : List α) : List Int := xs.map fun x => (c x v).sign

lemma sides_pairwise (hc : Preordered c (v :: xs)) (hs : xs.Pairwise fun x y => c x y ≤ 0) :
    (sides c v xs).Pairwise (· ≤ ·) := by
  have hv : v ∈ v :: xs := List.mem_cons_self
  refine List.pairwise_map.mpr (hs.imp_of_mem fun {x y} hx hy hxy => ?_)
  have hx := List.mem_cons_of_mem v hx
  have hy := List.mem_cons_of_mem v hy
  rcases Int.lt_trichotomy (c y v) 0 with hless | heq | hmore
  · rw [Int.sign_eq_neg_one_of_neg hless,
      Int.sign_eq_neg_one_of_neg (hc.lt_of_le_of_lt hx hy hv hxy hless)]
  · rw [heq, Int.sign_zero]
    exact Int.sign_nonpos_iff.mpr (hc.trans x hx y hy v hv hxy (Int.le_of_eq heq))
  · rw [Int.sign_eq_one_of_pos hmore]
    rcases Int.sign_trichotomy (c x v) with h | h | h <;> omega

/-- The index is where the value was found, or the window once that is empty. -/
lemma bsearchLoop_found (hcmp : ∀ x ∈ xs, valueCompare v x = some (c v x))
    (hsign : ∀ x ∈ xs, (c v x).sign = -(c x v).sign) (hs : (sides c v xs).Pairwise (· ≤ ·))
    (hlen : xs.length < 2 ^ 30) {fuel lo hi i : Nat} (w : Window (sides c v xs) 0 lo hi)
    (hfuel : hi - lo < fuel) (hend : i = lo ∨ i = hi) :
    ∃ (found : Bool) (m : Nat),
      bsearchLoop valueCompare v xs fuel lo ((hi : Int) - 1) i = some (found, (m : Int)) ∧
        if found then (sides c v xs)[m]? = some 0 else Window (sides c v xs) 0 m m := by
  induction fuel generalizing lo hi i with
  | zero => exact absurd hfuel (Nat.not_lt_zero _)
  | succ fuel ih =>
    have hle := w.le
    have hhi := w.hi_le
    rw [sides, List.length_map] at hhi
    rw [bsearchLoop]
    by_cases hlt : (lo : Int) ≤ (hi : Int) - 1
    · have hsum : toInt ((lo : Int) + ((hi : Int) - 1)) = (lo + (hi - 1) : Nat) := by
        rw [toInt_of_isInt (by constructor <;> omega)]
        omega
      have hmid : ((lo + (hi - 1) : Nat) : Int).tdiv 2 = ((lo + (hi - 1)) / 2 : Nat) := rfl
      rw [if_pos hlt, hsum, hmid]
      have hm : (lo + (hi - 1)) / 2 < xs.length := by omega
      have hm1 : lo ≤ (lo + (hi - 1)) / 2 := by omega
      have hm2 : (lo + (hi - 1)) / 2 < hi := by omega
      generalize (lo + (hi - 1)) / 2 = m at hm hm1 hm2
      have hmem := List.getElem_mem hm
      have hside : (sides c v xs)[m]? = some (c xs[m] v).sign := by simp [sides, hm]
      have hswap := hsign _ hmem
      dsimp only
      rw [if_neg (by omega), Int.toNat_natCast, List.getElem?_eq_getElem hm]
      dsimp only
      rw [hcmp _ hmem]
      dsimp only
      split
      · next hless =>
        rw [Int.sign_eq_neg_one_of_neg hless] at hswap
        exact ih (w.left hs hm1 hside (by omega)) (by omega) (.inr rfl)
      split
      · next hmore =>
        rw [Int.sign_eq_one_of_pos hmore] at hswap
        have hless : hi - (m + 1) < fuel := by omega
        exact ih (w.right hs hm2 hside (by omega)) hless (.inl rfl)
      · next hless hmore =>
        have hzero : c v xs[m] = 0 := by omega
        rw [hzero, Int.sign_zero] at hswap
        refine ⟨true, m, rfl, ?_⟩
        rw [if_pos rfl, hside, show (c xs[m] v).sign = 0 by omega]
    · rw [if_neg hlt]
      obtain ⟨rfl, rfl⟩ : lo = i ∧ hi = i := by omega
      exact ⟨false, _, rfl, w⟩

/-- Every item before the index is less than the value, and every other one is greater. -/
structure SplitsAt (c : α → α → Int) (v : α) (xs : List α) (i : Nat) : Prop where
  le : i ≤ xs.length
  before : ∀ x ∈ xs.take i, c x v < 0
  behind : ∀ x ∈ xs.drop i, 0 < c x v

lemma SplitsAt.of_window {i : Nat} (w : Window (sides c v xs) 0 i i) : SplitsAt c v xs i where
  le := by simpa [sides] using w.hi_le
  before x hx := Int.sign_neg_iff.mp (w.below _ (by
    rw [sides, ← List.map_take]
    exact List.mem_map_of_mem hx))
  behind x hx := Int.sign_pos_iff.mp (w.above _ (by
    rw [sides, ← List.map_drop]
    exact List.mem_map_of_mem hx))

lemma SplitsAt.unique {i j : Nat} (hi : SplitsAt c v xs i) (hj : SplitsAt c v xs j) : i = j := by
  have key : ∀ {i j}, SplitsAt c v xs i → SplitsAt c v xs j → ¬ i < j := by
    intro i j hi hj hlt
    have hlen : i < xs.length := Nat.lt_of_lt_of_le hlt hj.le
    have hless := hj.before xs[i] (List.mem_take_iff_getElem.mpr ⟨i, by omega, rfl⟩)
    have hmore := hi.behind xs[i] (List.mem_drop_iff_getElem.mpr ⟨0, by omega, by simp⟩)
    omega
  have := key hi hj
  have := key hj hi
  omega

/-- If an item is equal to the value, both searches find one. If none is, `bsearch?` returns the
only place at which the value belongs, and `bsearch` returns `nil`. -/
theorem arrayBsearch_correct (hcmp : ∀ x ∈ v :: xs, ∀ y ∈ v :: xs, valueCompare x y = some (c x y))
    (hc : Preordered c (v :: xs)) (hs : xs.Pairwise fun x y => c x y ≤ 0)
    (hlen : xs.length < 2 ^ 30) :
    ((∃ x ∈ xs, c x v = 0) → ∃ (m : Nat) (x : α), arrayBsearch valueCompare v xs = some (m : Int) ∧
        arrayBsearchStrict valueCompare v xs = some (some (m : Int)) ∧ xs[m]? = some x ∧
        c x v = 0) ∧
      ((∀ x ∈ xs, c x v ≠ 0) → ∃ i : Nat, arrayBsearch valueCompare v xs = some (i : Int) ∧
        arrayBsearchStrict valueCompare v xs = some none ∧ SplitsAt c v xs i ∧
        ∀ j, SplitsAt c v xs j → j = i) := by
  have hv : v ∈ v :: xs := List.mem_cons_self
  have hstart : toInt (xs.length - 1) = ((xs.length : Nat) : Int) - 1 :=
    toInt_of_isInt (by constructor <;> omega)
  have hwindow : Window (sides c v xs) 0 0 xs.length := by
    simpa [sides] using Window.whole (sides c v xs) 0
  obtain ⟨found, m, hloop, hfound⟩ := bsearchLoop_found
    (fun x hx => hcmp v hv x (List.mem_cons_of_mem v hx))
    (fun x hx => hc.sign_swap v hv x (List.mem_cons_of_mem v hx)) (sides_pairwise hc hs) hlen
    hwindow (show xs.length - 0 < xs.length + 1 by omega) (.inl rfl)
  unfold arrayBsearch arrayBsearchStrict
  rw [hstart]
  rw [Int.natCast_zero] at hloop
  rw [hloop]
  cases found with
  | true =>
    obtain ⟨x, hx, hzero⟩ : ∃ x, xs[m]? = some x ∧ c x v = 0 := by simpa [sides] using hfound
    exact ⟨fun _ => ⟨m, x, rfl, rfl, hx, hzero⟩,
      fun hne => absurd hzero (hne x (List.mem_of_getElem? hx))⟩
  | false =>
    have hsplit := SplitsAt.of_window hfound
    refine ⟨fun ⟨x, hx, hzero⟩ => ?_, fun _ => ⟨m, rfl, rfl, hsplit, fun j hj => hj.unique hsplit⟩⟩
    refine absurd (List.mem_map.mpr ⟨x, hx, ?_⟩) (Window.notMem hfound)
    rw [hzero, Int.sign_zero]

theorem arrayBsearch_correct_four :
    (∃ (m : Nat) (x : Int), arrayBsearch (fun x y => some (x - y)) 2 [1, 2, 2, 4] = some (m : Int) ∧
      [1, 2, 2, 4][m]? = some x ∧ x - 2 = 0) ∧
    ∃ i : Nat, arrayBsearch (fun x y => some (x - y)) 3 [1, 2, 2, 4] = some (i : Int) ∧
      SplitsAt (fun x y : Int => x - y) 3 [1, 2, 2, 4] i := by
  have hs : [1, 2, 2, 4].Pairwise fun x y : Int => x - y ≤ 0 := by decide
  obtain ⟨m, x, hm, -, hx⟩ := (arrayBsearch_correct (v := 2) (fun _ _ _ _ => rfl)
    (preordered_int _) hs
    (by decide)).1 ⟨2, by decide, by decide⟩
  obtain ⟨i, hi, -, hsplit, -⟩ := (arrayBsearch_correct (v := 3) (fun _ _ _ _ => rfl)
    (preordered_int _) hs
    (by decide)).2 (by decide)
  exact ⟨⟨m, x, hm, hx⟩, i, hi, hsplit⟩

end Search

section NextPermutation

variable {α : Type} (libc : Libc α) (valueCompare : α → α → Option Int)

/-- `CMP` -/
def cmpAt (xs : List α) (i j : Nat) : Option Int :=
  match xs[i]?, xs[j]? with
  | some x, some y => valueCompare x y
  | _, _ => none

/-- The loop over `k`, which is an `int` and is compared as a `size_t`. -/
def leastLoop (xs : List α) (i : Nat) : List Nat → Nat → Option Nat
  | [], j => some j
  | k :: ks, j =>
    match cmpAt valueCompare xs k j with
    | none => none
    | some c =>
      if c < 0 then
        match cmpAt valueCompare xs k (i - 1) with
        | none => none
        | some c => leastLoop xs i ks (if 0 < c then k else j)
      else leastLoop xs i ks j

/-- The loop over `i`: whether the array is returned, and its items. -/
def nextLoop (kwargs : Kwargs α) (xs : List α) : Nat → Option (Bool × List α)
  | 0 => some (false, xs)
  | i + 1 =>
    match cmpAt valueCompare xs i (i + 1) with
    | none => none
    | some c =>
      if c < 0 then
        match leastLoop valueCompare xs (i + 1)
          (List.range' (i + 2) (min xs.length (2 ^ 31) - (i + 2))) (i + 1) with
        | none => none
        | some j =>
          (arraySort libc valueCompare [BitVec.ofNat 64 (i + 1)] kwargs (swap xs i j)).map (true, ·)
      else nextLoop kwargs xs i

/-- `nextPermutation!`; `none` is a panic. -/
def arrayNextPermutation (kwargs : Kwargs α) (xs : List α) : Option (Bool × List α) :=
  nextLoop libc valueCompare kwargs xs (toInt (xs.length - 1)).toNat

end NextPermutation

section Permutation

variable {α : Type} {libc : Libc α} {valueCompare : α → α → Option Int} {c : α → α → Int}
  {kwargs : Kwargs α} {xs : List α}

/-- The first places at which the lists differ decide. -/
def lexLess (c : α → α → Int) : List α → List α → Prop
  | x :: xs, y :: ys => c x y < 0 ∨ c x y = 0 ∧ lexLess c xs ys
  | _, _ => False

def Greatest (c : α → α → Int) (xs : List α) : Prop := ∀ ys, ys.Perm xs → ¬ lexLess c xs ys

/-- The least arrangement that is greater. -/
structure IsNext (c : α → α → Int) (xs ys : List α) : Prop where
  perm : ys.Perm xs
  less : lexLess c xs ys
  least : ∀ zs, zs.Perm xs → lexLess c xs zs → ¬ lexLess c zs ys

/-- The result is `nil` for the greatest arrangement, and the next one for any other. -/
def NextPermutes (c : α → α → Int) (xs : List α) (result : Option (Bool × List α)) : Prop :=
  (result = some (false, xs) ↔ Greatest c xs) ∧
    (¬ Greatest c xs → ∃ ys, result = some (true, ys) ∧ IsNext c xs ys)

/-- Of two lists in this order, where the first one descends, the second has more items above
some bound. -/
lemma countP_lt_of_lexLess {ys zs : List α} (hc : Preordered c zs) (hxs : ∀ x ∈ xs, x ∈ zs)
    (hys : ∀ y ∈ ys, y ∈ zs) (hs : xs.Pairwise fun x y => c y x ≤ 0) (h : lexLess c xs ys) :
    ∃ w ∈ xs, xs.countP (fun e => c w e < 0) < ys.countP fun e => c w e < 0 := by
  induction xs generalizing ys with
  | nil => cases ys <;> exact h.elim
  | cons x xs ih =>
    cases ys with
    | nil => exact h.elim
    | cons y ys =>
      obtain ⟨hx, hxs⟩ := List.forall_mem_cons.mp hxs
      obtain ⟨hy, hys⟩ := List.forall_mem_cons.mp hys
      obtain ⟨hhead, htail⟩ := List.pairwise_cons.mp hs
      rcases h with hless | ⟨heq, hrest⟩
      · refine ⟨x, List.mem_cons_self, ?_⟩
        have hnone : (x :: xs).countP (fun e => c x e < 0) = 0 := by
          refine List.countP_eq_zero.mpr (List.forall_mem_cons.mpr ⟨?_, fun e he => ?_⟩)
          · simp [hc.eq_zero hx]
          · simpa using (hc.nonpos_iff (hxs e he) hx).mp (hhead e he)
        rw [hnone]
        exact List.countP_pos_iff.mpr ⟨y, List.mem_cons_self, by simpa using hless⟩
      · obtain ⟨w, hw, hcount⟩ := ih hxs hys htail hrest
        refine ⟨w, List.mem_cons_of_mem x hw, ?_⟩
        have hsame : c w x < 0 ↔ c w y < 0 :=
          ⟨fun h => hc.lt_of_lt_of_le (hxs w hw) hx hy h (Int.le_of_eq heq),
            fun h => hc.lt_of_lt_of_le (hxs w hw) hy hx h
              ((hc.nonpos_iff hy hx).mpr (Int.le_of_eq heq.symm))⟩
        rw [List.countP_cons, List.countP_cons]
        simp only [hsame]
        omega

lemma greatest_of_pairwise (hc : Preordered c xs) (hs : xs.Pairwise fun x y => c y x ≤ 0) :
    Greatest c xs := by
  intro ys hperm h
  obtain ⟨w, -, hcount⟩ := countP_lt_of_lexLess hc (fun _ hx => hx)
    (fun y hy => hperm.mem_iff.mp hy) hs h
  rw [hperm.countP_eq] at hcount
  exact Nat.lt_irrefl _ hcount

/-- With one argument, the number of items to sort is that of the whole array. -/
lemma arraySort_one {i : Nat} (h : i + 1 < xs.length) (hlen : xs.length ≤ 2 ^ 31) :
    arraySort libc valueCompare [BitVec.ofNat 64 (i + 1)] kwargs xs = none := by
  have hi : toInt (BitVec.ofNat 64 (i + 1)).toInt = ((i + 1 : Nat) : Int) := by
    rw [BitVec.toInt_ofNat', Int.bmod_eq_of_le (by omega) (by omega),
      toInt_of_isInt (by constructor <;> omega)]
  have hrange : sortRange [BitVec.ofNat 64 (i + 1)] xs.length = none := by
    rw [sortRange, sortArgs]
    dsimp only
    rw [hi, if_neg (show ¬ ((i + 1 : Nat) : Int) < 0 by omega), if_pos]
    by_cases hmax : xs.length = 2 ^ 31
    · rw [hmax, toInt_of_ge (by decide) (by decide)]
      omega
    rw [toInt_of_isInt (show IsInt (xs.length : Int) by constructor <;> omega)]
    by_cases hsum : ((i + 1 : Nat) : Int) + xs.length < 2 ^ 31
    · rw [toInt_of_isInt (by constructor <;> omega)]
      omega
    · rw [toInt_of_ge (by omega) (by omega)]
      omega
  rw [arraySort, hrange]

lemma cmpAt_eq (hcmp : ∀ x ∈ xs, ∀ y ∈ xs, valueCompare x y = some (c x y)) {i : Nat}
    (hi : i + 1 < xs.length) : cmpAt valueCompare xs i (i + 1) = some (c xs[i] xs[i + 1]) := by
  rw [cmpAt, List.getElem?_eq_getElem hi, List.getElem?_eq_getElem (Nat.lt_of_succ_lt hi)]
  exact hcmp _ (List.getElem_mem _) _ (List.getElem_mem _)

lemma length_swap (xs : List α) (i j : Nat) : (swap xs i j).length = xs.length := by
  unfold swap
  split <;> simp

/-- A pair of items in ascending order leads to a panic. -/
lemma nextLoop_eq_none (hcmp : ∀ x ∈ xs, ∀ y ∈ xs, valueCompare x y = some (c x y))
    (hlen : xs.length ≤ 2 ^ 31) {n i : Nat} (hn : n < xs.length) (hi : i < n)
    (hless : c (xs[i]) (xs[i + 1]) < 0) : nextLoop libc valueCompare kwargs xs n = none := by
  induction n with
  | zero => exact absurd hi (Nat.not_lt_zero i)
  | succ n ih =>
    rw [nextLoop, cmpAt_eq hcmp hn]
    dsimp only
    split
    · split
      · rfl
      · rw [arraySort_one (by rwa [length_swap]) (by rwa [length_swap]), Option.map_none]
    · next hnot =>
      have hne : i ≠ n := fun h => hnot (h ▸ hless)
      exact ih (Nat.lt_of_succ_lt hn) (by omega) hless

lemma nextLoop_eq_some (hcmp : ∀ x ∈ xs, ∀ y ∈ xs, valueCompare x y = some (c x y))
    (hs : xs.IsChain fun x y => 0 ≤ c x y) {n : Nat} (hn : n = 0 ∨ n < xs.length) :
    nextLoop libc valueCompare kwargs xs n = some (false, xs) := by
  induction n with
  | zero => rfl
  | succ n ih =>
    have hn : n + 1 < xs.length := by omega
    rw [nextLoop, cmpAt_eq hcmp hn]
    dsimp only
    rw [if_neg (Int.not_lt.mpr (List.isChain_iff_getElem.mp hs n hn))]
    exact ih (by omega)

/-- `nextPermutation!` does what it should for the greatest arrangement. For any other one of up
to `2 ^ 31` items it does not. -/
theorem arrayNextPermutation_iff (kwargs : Kwargs α)
    (hcmp : ∀ x ∈ xs, ∀ y ∈ xs, valueCompare x y = some (c x y)) (hc : Preordered c xs) :
    ((xs.IsChain fun x y => 0 ≤ c x y) →
      NextPermutes c xs (arrayNextPermutation libc valueCompare kwargs xs)) ∧
    (xs.length ≤ 2 ^ 31 → NextPermutes c xs (arrayNextPermutation libc valueCompare kwargs xs) →
      xs.IsChain fun x y => 0 ≤ c x y) := by
  constructor
  · intro hs
    have hflip : Preordered (fun x y => c y x) xs :=
      ⟨fun x hx y hy => hc.sign_swap y hy x hx,
        fun x hx y hy z hz hxy hyz => hc.trans z hz y hy x hx hyz hxy⟩
    have hgreatest := greatest_of_pairwise hc (hflip.pairwise_of_isChain
      (List.isChain_iff_getElem.mpr fun i hi => (hc.nonpos_iff (List.getElem_mem _)
        (List.getElem_mem _)).mpr (List.isChain_iff_getElem.mp hs i hi)))
    have hnext : arrayNextPermutation libc valueCompare kwargs xs = some (false, xs) := by
      refine nextLoop_eq_some hcmp hs ?_
      by_cases hempty : xs.length = 0
      · exact .inl (by rw [hempty]; decide)
      · have := toInt_le (show 0 ≤ (xs.length : Int) - 1 by omega)
        omega
    exact ⟨iff_of_true hnext hgreatest, fun hnot => absurd hgreatest hnot⟩
  · intro hlen hnext
    refine List.isChain_iff_getElem.mpr fun i hi => Int.not_lt.mp fun hless => ?_
    have hnone : arrayNextPermutation libc valueCompare kwargs xs = none := by
      rw [arrayNextPermutation, toInt_of_isInt (by constructor <;> omega)]
      exact nextLoop_eq_none hcmp hlen (by omega) (by omega) hless
    rw [hnone] at hnext
    by_cases hgreatest : Greatest c xs
    · cases hnext.1.mpr hgreatest
    · obtain ⟨ys, hys, -⟩ := hnext.2 hgreatest
      cases hys

theorem arrayNextPermutation_two :
    NextPermutes (fun x y : Int => x - y) [2, 1]
      (arrayNextPermutation (stableLibc Int) (fun x y => some (x - y)) {} [2, 1]) :=
  (arrayNextPermutation_iff {} (fun _ _ _ _ => rfl) (preordered_int _)).1 (by decide)

/-- `[1, 2]` is followed by `[2, 1]`, but the call panics. -/
theorem arrayNextPermutation_panics :
    arrayNextPermutation (stableLibc Int) (fun x y => some (x - y)) {} [1, 2] = none ∧
      ¬ Greatest (fun x y : Int => x - y) [1, 2] :=
  ⟨by decide, fun h => h [2, 1] (.swap 1 2 []) (.inl (by decide))⟩

end Permutation

end TyLang.Arrays
