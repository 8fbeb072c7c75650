import Mathlib

/-!
Lists compared item by item, where two items may turn out to be incomparable, and a list
that ends first is smaller. The comparison is an order, as far as that of the items is
one, and it is what a loop over the common places finds that compares the
lengths last.
-/
namespace TyLang.Lexicographic
open List

variable {α β : Type}

/-- The items on the left are given by the comparisons with them. -/
def lex : List (β → Option Ordering) → List β → Option Ordering
  | [], [] => some .eq
  | [], _ :: _ => some .lt
  | _ :: _, [] => some .gt
  | cmp :: cmps, y :: ys =>
    match cmp y with
    | some .eq => lex cmps ys
    | r => r

variable {cmp : α → α → Option Ordering} {xs ys zs : List α} {cs : List (β → Option Ordering)}

variable {c : β → Option Ordering}

lemma lex_cons_of_eq {y : β}
    {l : List β} (h : c y = some .eq) : lex (c :: cs) (y :: l) = lex cs l := by
  rw [lex, h]

lemma lex_cons_of_ne {y : β}
    {l : List β} (h : c y ≠ some .eq) : lex (c :: cs) (y :: l) = c y := by
  rw [lex]
  split
  · rename_i heq
    exact absurd heq h
  · rfl

lemma lex_eq_iff (h : ∀ a ∈ xs, ∀ b, cmp a b = some .eq ↔ a = b) :
    lex (xs.map cmp) ys = some .eq ↔ xs = ys := by
  induction xs generalizing ys with
  | nil => cases ys <;> simp [lex]
  | cons x xs ih =>
    cases ys with
    | nil => simp [lex]
    | cons y ys =>
      rw [map_cons, cons.injEq, ← h x mem_cons_self y, ← ih fun a ha => h a (mem_cons_of_mem x ha)]
      by_cases heq : cmp x y = some .eq
      · rw [lex_cons_of_eq heq]
        simp [heq]
      · rw [lex_cons_of_ne heq]
        simp [heq]

lemma lex_swap (h : ∀ a ∈ xs, ∀ b, cmp b a = (cmp a b).map .swap) :
    lex (ys.map cmp) xs = (lex (xs.map cmp) ys).map .swap := by
  induction xs generalizing ys with
  | nil => cases ys <;> rfl
  | cons x xs ih =>
    cases ys with
    | nil => rfl
    | cons y ys =>
      have hswap := h x (.head _) y
      rw [map_cons, map_cons]
      by_cases heq : cmp x y = some .eq
      · rw [lex_cons_of_eq heq, lex_cons_of_eq (by rw [hswap, heq]; rfl),
          ih fun a ha => h a (mem_cons_of_mem x ha)]
      have hne : cmp y x ≠ some .eq := by
        rw [hswap]
        intro hmap
        obtain ⟨o, ho, hoeq⟩ := Option.map_eq_some_iff.mp hmap
        cases o with
        | eq => exact heq ho
        | lt | gt => cases hoeq
      rw [lex_cons_of_ne heq, lex_cons_of_ne hne, hswap]

lemma lex_trans (heq : ∀ a b, cmp a b = some .eq → a = b)
    (hswap : ∀ a b, cmp b a = (cmp a b).map .swap)
    (h : ∀ a ∈ xs, ∀ b c o1 o2 o3, cmp a b = some o1 → cmp b c = some o2 → cmp a c = some o3 →
      o1 ≠ .gt → o2 ≠ .gt → o3 ≠ .gt)
    {o1 o2 o3 : Ordering} (h1 : lex (xs.map cmp) ys = some o1) (h2 : lex (ys.map cmp) zs = some o2)
    (h3 : lex (xs.map cmp) zs = some o3) (ho1 : o1 ≠ .gt) (ho2 : o2 ≠ .gt) : o3 ≠ .gt := by
  induction xs generalizing ys zs with
  | nil => cases zs <;> cases h3 <;> simp
  | cons x xs ih =>
    cases ys with
    | nil =>
      cases h1
      exact absurd rfl ho1
    | cons y ys =>
      cases zs with
      | nil =>
        cases h2
        exact absurd rfl ho2
      | cons z zs =>
        rw [map_cons] at h1 h2 h3
        by_cases hxy : cmp x y = some .eq
        · -- equal heads leave the decision to the other pair, or to the tails
          obtain rfl := heq x y hxy
          rw [lex_cons_of_eq hxy] at h1
          by_cases hxz : cmp x z = some .eq
          · rw [lex_cons_of_eq hxz] at h2 h3
            exact ih (fun a ha => h a (mem_cons_of_mem x ha)) h1 h2 h3
          · rw [lex_cons_of_ne hxz] at h2 h3
            cases h2.symm.trans h3
            exact ho2
        · rw [lex_cons_of_ne hxy] at h1
          by_cases hyz : cmp y z = some .eq
          · obtain rfl := heq y z hyz
            rw [lex_cons_of_ne hxy] at h3
            cases h1.symm.trans h3
            exact ho1
          · rw [lex_cons_of_ne hyz] at h2
            by_cases hxz : cmp x z = some .eq
            · -- then the two strict steps would be each other's swap
              obtain rfl := heq x z hxz
              rw [hswap x y, h1] at h2
              cases o1 with
              | lt =>
                cases h2
                exact absurd rfl ho2
              | eq => exact absurd h1 hxy
              | gt => exact absurd rfl ho1
            · rw [lex_cons_of_ne hxz] at h3
              exact h x (.head _) y z o1 o2 o3 h1 h2 h3 ho1 ho2

/-! ### As a loop finds it -/

lemma lex_congr {α' β' : Type} {F : α → β → Option Ordering} {G : α' → β' → Option Ordering}
    {f : α → α'} {g : β → β'} {xs : List α} {ys : List β}
    (h : ∀ x ∈ xs, ∀ y ∈ ys, F x y = G (f x) (g y)) :
    lex (xs.map F) ys = lex ((xs.map f).map G) (ys.map g) := by
  induction xs generalizing ys with
  | nil => cases ys <;> rfl
  | cons x xs ih =>
    cases ys with
    | nil => rfl
    | cons y ys =>
      rw [map_cons, map_cons, map_cons, map_cons, lex, lex, h x mem_cons_self y mem_cons_self,
        ih fun a ha b hb => h a (mem_cons_of_mem x ha) b (mem_cons_of_mem y hb)]

def ofInt (z : Int) : Ordering := if z < 0 then .lt else if z = 0 then .eq else .gt

lemma ofInt_eq_eq {z : Int} : ofInt z = .eq ↔ z = 0 := by
  unfold ofInt
  split
  · simp only [reduceCtorEq, false_iff]
    omega
  · split <;> simp [*]

lemma ofInt_eq_gt {z : Int} : ofInt z = .gt ↔ 0 < z := by
  unfold ofInt
  split
  · simp only [reduceCtorEq, false_iff]
    omega
  · split
    · simp only [reduceCtorEq, false_iff]
      omega
    · simp only [true_iff]
      omega

lemma ofInt_neg (z : Int) : ofInt (-z) = (ofInt z).swap := by
  unfold ofInt
  rcases Int.lt_trichotomy z 0 with h | h | h
  · rw [if_pos h, if_neg (by omega), if_neg (by omega)]
    rfl
  · rw [if_neg (by omega), if_pos (by omega), if_neg (by omega), if_pos h]
    rfl
  · rw [if_pos (by omega), if_neg (by omega), if_neg (by omega)]
    rfl

lemma ofInt_eq_iff {y z : Int} : ofInt y = ofInt z ↔ y.sign = z.sign := by
  have hsign (x : Int) : x.sign = match ofInt x with | .lt => -1 | .eq => 0 | .gt => 1 := by
    unfold ofInt
    rcases Int.lt_trichotomy x 0 with h | h | h
    · rw [if_pos h, Int.sign_eq_neg_one_of_neg h]
    · rw [if_neg (by omega), if_pos h, h, Int.sign_zero]
    · rw [if_neg (by omega), if_neg (by omega), Int.sign_eq_one_of_pos h]
  rw [hsign y, hsign z]
  cases ofInt y <;> cases ofInt z <;> simp

lemma ofInt_sub (m n : Nat) : ofInt ((m : Int) - n) = compare m n := by
  unfold ofInt
  rcases Nat.lt_trichotomy m n with h | h | h
  · rw [Nat.compare_eq_lt.mpr h, if_pos (by omega)]
  · rw [Nat.compare_eq_eq.mpr h, if_neg (by omega), if_pos (by omega)]
  · rw [Nat.compare_eq_gt.mpr h, if_neg (by omega), if_neg (by omega)]

/-- The first result that is not zero, at the places that both lists have. -/
def firstDifference : List (β → Option Int) → List β → Option Int
  | cmp :: cmps, y :: ys =>
    match cmp y with
    | none => none
    | some o => if o ≠ 0 then some o else firstDifference cmps ys
  | _, _ => some 0

/-- The loop does not look behind the shorter list. -/
lemma firstDifference_take (f : α → β → Option Int) (xs : List α) :
    ∀ (ys : List β) (n : Nat), min xs.length ys.length ≤ n →
      firstDifference ((xs.take n).map f) (ys.take n) = firstDifference (xs.map f) ys := by
  induction xs with
  | nil =>
    intro ys n _
    rw [take_nil]
    cases ys.take n <;> cases ys <;> rfl
  | cons x xs ih =>
    intro ys n hn
    cases ys with
    | nil =>
      rw [take_nil]
      cases (take n (x :: xs)).map f <;> rfl
    | cons y ys =>
      simp only [length_cons] at hn
      obtain _ | n := n
      · omega
      rw [take_succ_cons, take_succ_cons, map_cons, map_cons,
        firstDifference, firstDifference, ih ys n (by omega)]

lemma lex_of_loop {f : α → β → Option Int} (xs : List α) (ys : List β) :
    lex (xs.map fun x y => (f x y).map ofInt) ys =
      match firstDifference (xs.map f) ys with
      | none => none
      | some o => some (if o ≠ 0 then ofInt o else compare xs.length ys.length) := by
  induction xs generalizing ys with
  | nil =>
    cases ys with
    | nil => rfl
    | cons y ys => exact congrArg some (Nat.compare_eq_lt.mpr (Nat.succ_pos _)).symm
  | cons x xs ih =>
    cases ys with
    | nil => exact congrArg some (Nat.compare_eq_gt.mpr (Nat.succ_pos _)).symm
    | cons y ys =>
      rw [map_cons, map_cons, firstDifference]
      cases hxy : f x y with
      | none =>
        rw [lex_cons_of_ne (by rw [hxy]; simp), hxy]
        rfl
      | some o =>
        by_cases ho : o = 0
        · subst ho
          rw [lex_cons_of_eq (by rw [hxy]; rfl), ih]
          simp only [ne_eq, not_true_eq_false, if_false, length_cons]
          have hlen : compare (xs.length + 1) (ys.length + 1) =
              compare xs.length ys.length := by
            rw [← ofInt_sub, ← ofInt_sub]
            congr 1
            omega
          rw [hlen]
        · have hne : (some o).map ofInt ≠ some .eq := by
            simpa [ofInt_eq_eq] using ho
          rw [lex_cons_of_ne (by rw [hxy]; exact hne), hxy]
          simp [ho]

end TyLang.Lexicographic
