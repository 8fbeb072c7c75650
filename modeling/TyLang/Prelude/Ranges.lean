import Mathlib

/-!
The ranges of `lib/prelude.ty`. A range keeps two bounds in either order, and its size, its
membership, its iteration and its operators are written separately. The size wraps
around at 64 bits; other integers are unbounded here. An inclusive range keeps its bounds in the
form of a half-open one, and the operators that shift a range call the constructor of its class
with them again.
-/
namespace TyLang.Prelude

inductive RangeClass where
  | range
  | inclusiveRange
  deriving DecidableEq, Repr

structure Range where
  cls : RangeClass
  a : Int
  b : Int
  deriving DecidableEq, Repr

/-- The call of a class, with its `init`. -/
def RangeClass.new : RangeClass → Int → Int → Range
  | .range, a, b => ⟨.range, a, b⟩
  | .inclusiveRange, a, b => ⟨.inclusiveRange, min a b, max a b + 1⟩

/-- `upto`, for a number of steps. -/
def upto : Nat → Int → Int → Option (List Int)
  | 0, _, _ => none
  | steps + 1, self, b =>
    if self ≤ b then (upto steps (self + 1) b).map (self :: ·) else some []

def downto : Nat → Int → Int → Option (List Int)
  | 0, _, _ => none
  | steps + 1, self, b =>
    if b ≤ self then (downto steps (self - 1) b).map (self :: ·) else some []

namespace Range

variable (r s : Range)

def low : Int := min r.a r.b

def high : Int := max r.a r.b - 1

def count : Int := Int.bmod (r.high - r.low + 1) (2 ^ 64)

/-- `__match__`, for an integer; `contains?` and `in` call it. -/
def contains (k : Int) : Bool := decide (r.low ≤ k) && decide (k ≤ r.high)

def overlap : Bool :=
  s.contains r.high || s.contains r.low || r.contains s.high || r.contains s.low

def and : Range :=
  if r.overlap s then RangeClass.range.new (max r.low s.low) (min r.high s.high + 1)
  else RangeClass.range.new 0 0

/-- `|`; `none` is the exception. -/
def or : Option Range :=
  if r.overlap s then some (RangeClass.range.new (min r.low s.low) (max r.high s.high + 1))
  else none

/-- All that `__iter__` yields, in a number of steps. -/
def iter (steps : Nat) : Option (List Int) :=
  if r.a < r.b then upto steps r.a (r.b - 1) else downto steps (r.a - 1) r.b

def addInt (n : Int) : Range := r.cls.new (r.a + n) (r.b + n)

def intAdd (n : Int) : Range := r.cls.new (r.a + n) (r.b + n)

def intSub (n : Int) : Range := r.cls.new (n - r.a) (n - r.b)

def subInt (n : Int) : Range := r.cls.new (r.a - n) (r.b - n)

end Range

/-! ### Iteration -/

variable {r s u : Range} {k n : Int}

/-- The integers from `a` on in steps of `d`. -/
def progression (d : Int) : Nat → Int → List Int
  | 0, _ => []
  | m + 1, a => a :: progression d m (a + d)

lemma length_progression (d : Int) (m : Nat) (a : Int) : (progression d m a).length = m := by
  induction m generalizing a with
  | zero => rfl
  | succ m ih => rw [progression, List.length_cons, ih]

lemma mem_ascending (m : Nat) (a : Int) : k ∈ progression 1 m a ↔ a ≤ k ∧ k < a + m := by
  induction m generalizing a with
  | zero => simp [progression]
  | succ m ih =>
    rw [progression, List.mem_cons, ih]
    omega

lemma mem_descending (m : Nat) (a : Int) : k ∈ progression (-1) m a ↔ k ≤ a ∧ a - m < k := by
  induction m generalizing a with
  | zero => simp [progression]
  | succ m ih =>
    rw [progression, List.mem_cons, ih]
    omega

lemma ascending_pairwise (m : Nat) (a : Int) : (progression 1 m a).Pairwise (· < ·) := by
  induction m generalizing a with
  | zero => exact .nil
  | succ m ih => exact .cons (fun k hk => by rw [mem_ascending] at hk; omega) (ih _)

lemma descending_pairwise (m : Nat) (a : Int) : (progression (-1) m a).Pairwise (· > ·) := by
  induction m generalizing a with
  | zero => exact .nil
  | succ m ih => exact .cons (fun k hk => by rw [mem_descending] at hk; omega) (ih _)

lemma upto_eq {steps m : Nat} (a : Int) (h : m < steps) :
    upto steps a (a + m - 1) = some (progression 1 m a) := by
  induction steps generalizing a m with
  | zero => omega
  | succ steps ih =>
    rw [upto]
    cases m with
    | zero => exact if_neg (by omega)
    | succ m =>
      have hrest := ih (a + 1) (m := m) (by omega)
      rw [show a + 1 + (m : Int) - 1 = a + (m + 1 : Nat) - 1 by omega] at hrest
      rw [if_pos (by omega), hrest]
      rfl

lemma downto_eq {steps m : Nat} (a : Int) (h : m < steps) :
    downto steps a (a - m + 1) = some (progression (-1) m a) := by
  induction steps generalizing a m with
  | zero => omega
  | succ steps ih =>
    rw [downto]
    cases m with
    | zero => exact if_neg (by omega)
    | succ m =>
      have hrest := ih (a - 1) (m := m) (by omega)
      rw [show a - 1 - (m : Int) + 1 = a - (m + 1 : Nat) + 1 by omega] at hrest
      rw [if_pos (by omega), hrest]
      rfl

namespace Range

/-- The integers of a range, in the order of its iteration. -/
def integers (r : Range) : List Int :=
  if r.a < r.b then progression 1 (r.b - r.a).natAbs r.a
  else progression (-1) (r.b - r.a).natAbs (r.a - 1)

lemma iter_eq {steps : Nat} (h : (r.b - r.a).natAbs < steps) : r.iter steps = some r.integers := by
  rw [iter, integers]
  split
  · have hupto := upto_eq r.a h
    rwa [show r.a + ((r.b - r.a).natAbs : Int) - 1 = r.b - 1 by omega] at hupto
  · have hdownto := downto_eq (r.a - 1) h
    rwa [show r.a - 1 - ((r.b - r.a).natAbs : Int) + 1 = r.b by omega] at hdownto

lemma length_integers (r : Range) : r.integers.length = (r.b - r.a).natAbs := by
  rw [integers]
  split <;> rw [length_progression]

lemma mem_integers : k ∈ r.integers ↔ min r.a r.b ≤ k ∧ k ≤ max r.a r.b - 1 := by
  rw [integers]
  split
  · rw [mem_ascending]
    omega
  · rw [mem_descending]
    omega

lemma integers_pairwise (r : Range) :
    r.integers.Pairwise fun i j => if r.a < r.b then i < j else j < i := by
  rw [integers]
  split
  · simpa only [if_pos, *] using ascending_pairwise _ r.a
  · simpa only [if_neg, *] using descending_pairwise _ (r.a - 1)

/-! ### Membership and the operators -/

lemma contains_iff : r.contains k ↔ min r.a r.b ≤ k ∧ k ≤ max r.a r.b - 1 := by
  rw [contains, Bool.and_eq_true, decide_eq_true_iff, decide_eq_true_iff]
  rfl

lemma overlap_iff : r.overlap s ↔
    (s.low ≤ r.high ∧ r.high ≤ s.high) ∨ (s.low ≤ r.low ∧ r.low ≤ s.high) ∨
      (r.low ≤ s.high ∧ s.high ≤ r.high) ∨ (r.low ≤ s.low ∧ s.low ≤ r.high) := by
  simp only [overlap, contains, Bool.or_eq_true, Bool.and_eq_true, decide_eq_true_iff, or_assoc]

lemma contains_and : (r.and s).contains k ↔ r.contains k ∧ s.contains k := by
  rw [Range.and]
  split
  · rename_i h
    have hoverlap := overlap_iff.mp h
    simp only [contains_iff, RangeClass.new, low, high] at hoverlap ⊢
    omega
  · rename_i h
    have hapart := mt overlap_iff.mpr h
    simp only [contains_iff, RangeClass.new, low, high] at hapart ⊢
    omega

lemma contains_or (h : r.or s = some u) :
    u.contains k ↔ r.contains k ∨ s.contains k := by
  rw [Range.or] at h
  split at h
  · rename_i h'
    have hoverlap := overlap_iff.mp h'
    cases h
    simp only [contains_iff, RangeClass.new, low, high] at hoverlap ⊢
    omega
  · cases h

lemma overlap_comm (r s : Range) : r.overlap s = s.overlap r := by
  rw [Bool.eq_iff_iff, overlap_iff, overlap_iff]
  omega

lemma overlap_iff_exists (hr : r.a ≠ r.b) (hs : s.a ≠ s.b) :
    r.overlap s ↔ ∃ k, r.contains k ∧ s.contains k := by
  rw [overlap_iff]
  simp only [contains_iff, low, high]
  constructor
  · intro h
    refine ⟨max (min r.a r.b) (min s.a s.b), ?_⟩
    omega
  · rintro ⟨k, hk⟩
    omega

lemma count_eq_iff (h : (r.b - r.a).natAbs ≤ 2 ^ 63) :
    r.count = r.integers.length ↔ (r.b - r.a).natAbs ≠ 2 ^ 63 := by
  have hsize : r.high - r.low + 1 = (r.b - r.a).natAbs := by
    rw [low, high]
    omega
  rw [count, length_integers, hsize, Int.bmod_eq_iff (by decide)]
  omega

end Range

/-- The definitions of a range agree on the integers it denotes, up to a size that is no
64-bit integer. -/
theorem range_denotes (a b c d : Int) (ha : -2 ^ 62 ≤ a ∧ a ≤ 2 ^ 62)
    (hb : -2 ^ 62 ≤ b ∧ b ≤ 2 ^ 62) :
    let r := RangeClass.range.new a b
    let s := RangeClass.range.new c d
    (∀ steps, (b - a).natAbs < steps → r.iter steps = some r.integers) ∧
    (∀ k, k ∈ r.integers ↔ min a b ≤ k ∧ k ≤ max a b - 1) ∧
    r.integers.Pairwise (fun i j => if a < b then i < j else j < i) ∧
    (r.count = r.integers.length ↔ (b - a).natAbs ≠ 2 ^ 63) ∧
    (∀ k, r.contains k ↔ k ∈ r.integers) ∧
    (∀ k, k ∈ (r.and s).integers ↔ k ∈ r.integers ∧ k ∈ s.integers) ∧
    r.overlap s = s.overlap r ∧
    (r.integers ≠ [] → s.integers ≠ [] →
      (r.overlap s ↔ ∃ k, k ∈ r.integers ∧ k ∈ s.integers)) ∧
    ∀ u, r.or s = some u → ∀ k, k ∈ u.integers ↔ k ∈ r.integers ∨ k ∈ s.integers := by
  intro r s
  have hmem : ∀ {t : Range} {k}, k ∈ t.integers ↔ t.contains k := fun {t k} =>
    Range.mem_integers.trans Range.contains_iff.symm
  have hne : ∀ {t : Range}, t.integers ≠ [] → t.a ≠ t.b := by
    intro t ht heq
    refine ht (List.length_eq_zero_iff.mp ?_)
    rw [Range.length_integers]
    omega
  refine ⟨fun steps hsteps => Range.iter_eq hsteps, fun k => Range.mem_integers,
    Range.integers_pairwise r, Range.count_eq_iff (by change (b - a).natAbs ≤ _; omega),
    fun k => hmem.symm, fun k => ?_, Range.overlap_comm r s, fun hr hs => ?_, fun u hu k => ?_⟩
  · rw [hmem, hmem, hmem, Range.contains_and]
  · simp only [hmem, Range.overlap_iff_exists (hne hr) (hne hs)]
  · rw [hmem, hmem, hmem, Range.contains_or hu]

theorem range_denotes_overlapping :
    let r := RangeClass.range.new 2 7
    let s := RangeClass.range.new 9 5
    r.count = 5 ∧ r.overlap s ∧ (∀ k, k ∈ (r.and s).integers ↔ k ∈ [5, 6]) ∧
      ∃ u, r.or s = some u ∧ ∀ k, k ∈ u.integers ↔ k ∈ [2, 3, 4, 5, 6, 7, 8] := by
  intro r s
  obtain ⟨-, -, -, hcount, -, hand, -, hoverlap, hor⟩ :=
    range_denotes 2 7 9 5 (by decide) (by decide)
  have hr : r.integers = [2, 3, 4, 5, 6] := by decide
  have hs : s.integers = [8, 7, 6, 5] := by decide
  refine ⟨hcount.mpr (by decide), ?_, fun k => ?_, _, rfl, fun k => ?_⟩
  · exact (hoverlap (by decide) (by decide)).mpr ⟨5, by decide, by decide⟩
  · rw [hand, hr, hs]
    simp only [List.mem_cons, List.not_mem_nil, or_false]
    omega
  · rw [hor _ rfl, hr, hs]
    simp only [List.mem_cons, List.not_mem_nil, or_false]
    omega

/-- The range of all integers that the bounds allow. -/
theorem range_count_wraps :
    (RangeClass.range.new (-2 ^ 62) (2 ^ 62)).count = -2 ^ 63 ∧
      (RangeClass.range.new (-2 ^ 62) (2 ^ 62)).integers.length = 2 ^ 63 := by
  refine ⟨by decide, ?_⟩
  rw [Range.length_integers]
  decide

/-! ### Shifted ranges -/

/-- The integers of the range `t` are the images of those of `r`. -/
def Range.Maps (f : Int → Int) (r t : Range) : Prop :=
  ∀ k, k ∈ t.integers ↔ ∃ i ∈ r.integers, k = f i

lemma Range.maps_iff {f g : Int → Int} (hfg : ∀ k, f (g k) = k) (hgf : ∀ i, g (f i) = i) :
    r.Maps f u ↔ ∀ k, k ∈ u.integers ↔ min r.a r.b ≤ g k ∧ g k ≤ max r.a r.b - 1 := by
  refine forall_congr' fun k => iff_congr .rfl ?_
  constructor
  · rintro ⟨i, hi, rfl⟩
    rw [hgf]
    exact mem_integers.mp hi
  · exact fun hk => ⟨g k, mem_integers.mpr hk, (hfg k).symm⟩

/-- An inclusive range is one integer larger after it is shifted. -/
lemma RangeClass.maps_add_iff (cls : RangeClass) (x y n : Int) :
    (cls.new x y).Maps (n + ·) ((cls.new x y).addInt n) ↔ cls = .range := by
  have hmaps := fun u => Range.maps_iff (r := cls.new x y) (u := u) (f := (n + ·)) (g := (· - n))
    (by intro k; omega) (by intro i; omega)
  rw [hmaps]
  cases cls with
  | range =>
    refine iff_of_true (fun k => ?_) rfl
    simp only [Range.mem_integers, Range.addInt, RangeClass.new]
    omega
  | inclusiveRange =>
    refine iff_of_false (fun h => ?_) nofun
    have hlast := h (max x y + 1 + n)
    simp only [Range.mem_integers, Range.addInt, RangeClass.new] at hlast
    omega

/-- Shifts keep the integers of a range of the class `Range` only, and of an empty one if
it is subtracted. -/
theorem range_shift_iff (cls : RangeClass) (x y n : Int) :
    let r := cls.new x y
    (r.Maps (n + ·) (r.intAdd n) ↔ cls = .range) ∧
    (r.Maps (n + ·) (r.addInt n) ↔ cls = .range) ∧
    (r.Maps (-n + ·) (r.subInt n) ↔ cls = .range) ∧
    (r.Maps (n - ·) (r.intSub n) ↔ cls = .range ∧ x = y) := by
  refine ⟨cls.maps_add_iff x y n, cls.maps_add_iff x y n, ?_, ?_⟩
  · have hsub : (cls.new x y).subInt n = (cls.new x y).addInt (-n) := by
      rw [Range.subInt, Range.addInt, Int.sub_eq_add_neg, Int.sub_eq_add_neg]
    exact cls.maps_add_iff x y (-n)
  have hmaps := fun u => Range.maps_iff (r := cls.new x y) (u := u) (f := (n - ·)) (g := (n - ·))
    (by intro k; omega) (by intro i; omega)
  rw [hmaps]
  cases cls with
  | range =>
    constructor
    · intro h
      have hlast := h (n - max x y)
      simp only [Range.mem_integers, Range.intSub, RangeClass.new] at hlast
      exact ⟨rfl, by omega⟩
    · rintro ⟨-, rfl⟩ k
      simp only [Range.mem_integers, Range.intSub, RangeClass.new]
      omega
  | inclusiveRange =>
    refine iff_of_false (fun h => ?_) nofun
    have hlast := h (n - max x y - 1)
    simp only [Range.mem_integers, Range.intSub, RangeClass.new] at hlast
    omega

/-- The inclusive range from 1 to 3, and the range from 0 to 3. -/
theorem range_shift_off : (∃ k, k ∈ ((RangeClass.inclusiveRange.new 1 3).addInt 1).integers ∧
    k = 5) ∧
    ¬ (RangeClass.inclusiveRange.new 1 3).Maps (1 + ·)
      ((RangeClass.inclusiveRange.new 1 3).addInt 1) ∧
    10 ∉ ((RangeClass.range.new 0 3).intSub 10).integers ∧
    0 ∈ (RangeClass.range.new 0 3).integers := by
  refine ⟨⟨5, by decide, rfl⟩, fun h => ?_, by decide, by decide⟩
  exact absurd ((RangeClass.maps_add_iff .inclusiveRange 1 3 1).mp h) nofun

end TyLang.Prelude
