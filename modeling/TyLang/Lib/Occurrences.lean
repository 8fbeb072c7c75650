import Mathlib

/-!
Cutting a list at the occurrences of a pattern, from the first one on and without overlaps.
-/
namespace TyLang.Occurrences
open List Option

section First

variable {α : Type} {p s : List α} {k : Nat}

structure IsFirst (p s : List α) (k : Nat) : Prop where
  occurs : p <+: s.drop k
  first : ∀ j < k, ¬ p <+: s.drop j

lemma infix_iff_exists_drop : p <:+: s ↔ ∃ k, p <+: s.drop k := by
  constructor
  · rintro ⟨a, b, rfl⟩
    refine ⟨a.length, b, ?_⟩
    rw [append_assoc, drop_left]
  · rintro ⟨k, h⟩
    exact h.isInfix.trans (drop_suffix k s).isInfix

namespace IsFirst

lemma le_length (h : IsFirst p s k) (hp : p ≠ []) : k + p.length ≤ s.length := by
  have hlength := h.occurs.length_le
  have hpos := length_pos_iff.mpr hp
  rw [length_drop] at hlength
  omega

lemma take_append (h : IsFirst p s k) : s.take k ++ (p ++ s.drop (k + p.length)) = s := by
  obtain ⟨t, ht⟩ := h.occurs
  have hdrop : s.drop (k + p.length) = t := by
    rw [← drop_drop, ← ht, drop_left]
  rw [hdrop, ht, take_append_drop]

lemma not_infix_take (h : IsFirst p s k) (hp : p ≠ []) : ¬ p <:+: s.take k := by
  rw [infix_iff_exists_drop]
  rintro ⟨j, hj⟩
  have hpos := length_pos_iff.mpr hp
  have hlength := hj.length_le
  rw [length_drop, length_take] at hlength
  rw [drop_take] at hj
  exact h.first j (by omega) (hj.trans (List.take_prefix _ _))

end IsFirst

lemma isFirst_succ_iff {x : α} : IsFirst p (x :: s) (k + 1) ↔ ¬ p <+: x :: s ∧ IsFirst p s k := by
  constructor
  · intro h
    refine ⟨h.first 0 (Nat.succ_pos k), h.occurs, fun j hj => ?_⟩
    exact h.first (j + 1) (Nat.succ_lt_succ hj)
  · rintro ⟨hzero, h⟩
    refine ⟨h.occurs, fun j hj => ?_⟩
    cases j with
    | zero => exact hzero
    | succ j => exact h.first j (Nat.lt_of_succ_lt_succ hj)

end First

section Find

variable {α : Type} [DecidableEq α] {p s : List α} {k n m : Nat}

def find (p : List α) : List α → Option Nat
  | [] => if p = [] then some 0 else none
  | x :: s => if p <+: x :: s then some 0 else (find p s).map (· + 1)

lemma find_eq_some_iff : find p s = some k ↔ IsFirst p s k := by
  induction s generalizing k with
  | nil =>
    rw [find]
    constructor
    · intro h
      split at h
      · next hp =>
        cases h
        exact ⟨List.prefix_nil.mpr hp, fun j hj => nomatch hj⟩
      · cases h
    · intro h
      have hp : p = [] := List.prefix_nil.mp (by simpa using h.occurs)
      have hk : k = 0 := by
        by_contra hk
        exact h.first 0 (Nat.pos_of_ne_zero hk) (List.prefix_nil.mpr hp)
      rw [if_pos hp, hk]
  | cons x s ih =>
    rw [find]
    split
    · next hzero =>
      rw [some.injEq]
      constructor
      · rintro rfl
        exact ⟨hzero, fun j hj => nomatch hj⟩
      · intro h
        by_contra hk
        exact h.first 0 (by omega) hzero
    · next hzero =>
      cases k with
      | zero =>
        simp only [map_eq_some_iff, Nat.succ_ne_zero, and_false, exists_false, false_iff]
        exact fun h => hzero h.occurs
      | succ k =>
        rw [isFirst_succ_iff, and_iff_right hzero, ← ih]
        simp

lemma find_eq_none_iff : find p s = none ↔ ¬ p <:+: s := by
  rw [infix_iff_exists_drop]
  constructor
  · intro hnone hex
    classical
    have hfirst : IsFirst p s (Nat.find hex) := ⟨Nat.find_spec hex, fun j hj => Nat.find_min hex hj⟩
    rw [← find_eq_some_iff, hnone] at hfirst
    cases hfirst
  · intro h
    cases hfind : find p s with
    | none => rfl
    | some k => exact absurd ⟨k, (find_eq_some_iff.mp hfind).occurs⟩ h

structure IsLast (p s : List α) (k : Nat) : Prop where
  occurs : p <+: s.drop k
  last : ∀ j, p <+: s.drop j → j ≤ k

def findLast (p : List α) : List α → Option Nat
  | [] => none
  | x :: s => ((findLast p s).map (· + 1)).or (if p <+: x :: s then some 0 else none)

lemma findLast_eq_none_iff (hp : p ≠ []) : findLast p s = none ↔ ∀ k, ¬ p <+: s.drop k := by
  induction s with
  | nil => simp [findLast, hp]
  | cons x s ih =>
    simp only [findLast, or_eq_none_iff, map_eq_none_iff, ih]
    constructor
    · rintro ⟨hrest, hzero⟩ k
      cases k with
      | zero => simpa using hzero
      | succ k => exact hrest k
    · exact fun h => ⟨fun k => h (k + 1), by simpa using h 0⟩

lemma findLast_eq_some_iff (hp : p ≠ []) : findLast p s = some k ↔ IsLast p s k := by
  induction s generalizing k with
  | nil =>
    refine iff_of_false nofun fun h => hp ?_
    simpa using h.occurs
  | cons x s ih =>
    rw [findLast]
    cases hfind : findLast p s with
    | none =>
      have hnone := (findLast_eq_none_iff hp).mp hfind
      have hzero : ∀ j, p <+: (x :: s).drop j → j = 0 := by
        intro j hj
        cases j with
        | zero => rfl
        | succ j => exact absurd hj (hnone j)
      constructor
      · intro h
        split at h
        · next hstart =>
          cases h
          exact ⟨hstart, fun j hj => Nat.le_of_eq (hzero j hj)⟩
        · cases h
      · intro h
        obtain rfl := hzero k h.occurs
        exact if_pos h.occurs
    | some i =>
      have hi := ih.mp hfind
      have hlast : IsLast p (x :: s) (i + 1) := by
        refine ⟨hi.occurs, fun j hj => ?_⟩
        cases j with
        | zero => exact Nat.zero_le _
        | succ j => exact Nat.succ_le_succ (hi.last j hj)
      simp only [map_some, some_or, some.injEq]
      constructor
      · rintro rfl
        exact hlast
      · exact fun h => Nat.le_antisymm (h.last _ hlast.occurs) (hlast.last _ h.occurs)

/-- Without its last item, a list has the occurrences that do not touch its end. -/
lemma findLast_dropLast_eq_iff (hp : p ≠ []) (hs : s ≠ []) :
    findLast p s.dropLast = findLast p s ↔ ¬ p <:+ s := by
  have hpos := length_pos_iff.mpr hp
  have hspos := length_pos_iff.mpr hs
  have hoccurs (k : Nat) : p <+: s.dropLast.drop k ↔ p <+: s.drop k ∧ k + p.length < s.length := by
    rw [dropLast_eq_take, drop_take, List.prefix_take_iff]
    refine and_congr_right fun _ => ?_
    omega
  constructor
  · intro heq hsuffix
    have hle := hsuffix.length_le
    have hend : IsLast p s (s.length - p.length) := by
      refine ⟨?_, fun j hj => ?_⟩
      · rw [← suffix_iff_eq_drop.mp hsuffix]
      · have hlen := hj.length_le
        rw [length_drop] at hlen
        omega
    rw [(findLast_eq_some_iff hp).mpr hend, findLast_eq_some_iff hp] at heq
    have hlt := ((hoccurs _).mp heq.occurs).2
    omega
  · intro hsuffix
    have hsame (k : Nat) : p <+: s.dropLast.drop k ↔ p <+: s.drop k := by
      rw [hoccurs, and_iff_left_iff_imp]
      intro h
      have hlen := h.length_le
      rw [length_drop] at hlen
      refine Nat.lt_of_le_of_ne (by omega) fun heq => hsuffix ?_
      rw [h.eq_of_length (by rw [length_drop]; omega)]
      exact drop_suffix k s
    refine ext fun k => ?_
    rw [findLast_eq_some_iff hp, findLast_eq_some_iff hp]
    constructor
    · exact fun h => ⟨(hsame k).mp h.occurs, fun j hj => h.last j ((hsame j).mpr hj)⟩
    · exact fun h => ⟨(hsame k).mpr h.occurs, fun j hj => h.last j ((hsame j).mp hj)⟩

/-- The pieces between the first occurrences, with no more cuts than given. -/
def pieces (p : List α) : Nat → List α → List (List α)
  | 0, s => [s]
  | n + 1, s =>
    match find p s with
    | none => [s]
    | some k => s.take k :: pieces p n (s.drop (k + p.length))

lemma pieces_of_none (h : find p s = none) : pieces p n s = [s] := by
  cases n with
  | zero => rfl
  | succ n => rw [pieces, h]

lemma pieces_of_some (h : find p s = some k) :
    pieces p (n + 1) s = s.take k :: pieces p n (s.drop (k + p.length)) := by
  rw [pieces, h]

lemma pieces_ne_nil (p : List α) (n : Nat) (s : List α) : pieces p n s ≠ [] := by
  cases n with
  | zero => exact cons_ne_nil _ _
  | succ n =>
    rw [pieces]
    split <;> exact cons_ne_nil _ _

lemma pieces_cases {motive : Nat → List α → Prop} (zero : ∀ s, motive 0 s)
    (none : ∀ n s, find p s = none → motive (n + 1) s)
    (some : ∀ n s k, find p s = some k → motive n (s.drop (k + p.length)) → motive (n + 1) s)
    (n : Nat) (s : List α) : motive n s := by
  induction n generalizing s with
  | zero => exact zero s
  | succ n ih =>
    cases hfind : find p s with
    | none => exact none n s hfind
    | some k => exact some n s k hfind (ih _)

lemma length_pieces_le (p : List α) (n : Nat) (s : List α) : (pieces p n s).length ≤ n + 1 := by
  induction n, s using pieces_cases (p := p) with
  | zero s => exact .refl
  | none n s h =>
    rw [pieces_of_none h, length_singleton]
    omega
  | some n s k h ih =>
    rw [pieces_of_some h, length_cons]
    omega

lemma intercalate_pieces (p : List α) (n : Nat) (s : List α) :
    p.intercalate (pieces p n s) = s := by
  induction n, s using pieces_cases (p := p) with
  | zero s => exact intercalate_singleton
  | none n s h =>
    rw [pieces_of_none h]
    exact intercalate_singleton
  | some n s k h ih =>
    rw [pieces_of_some h, intercalate_cons_of_ne_nil (pieces_ne_nil p n _), ih, append_assoc]
    exact (find_eq_some_iff.mp h).take_append

lemma not_infix_of_mem_dropLast (hp : p ≠ []) (n : Nat) (s : List α) :
    ∀ x ∈ (pieces p n s).dropLast, ¬ p <:+: x := by
  induction n, s using pieces_cases (p := p) with
  | zero s => exact fun x hx => absurd hx not_mem_nil
  | none n s h =>
    rw [pieces_of_none h]
    exact fun x hx => absurd hx not_mem_nil
  | some n s k h ih =>
    rw [pieces_of_some h, dropLast_cons_of_ne_nil (pieces_ne_nil p n _), forall_mem_cons]
    exact ⟨(find_eq_some_iff.mp h).not_infix_take hp, ih⟩

/-- With as many cuts as the list is long, nothing is left to cut. -/
lemma not_infix_of_mem (hp : p ≠ []) (n : Nat) (s : List α) (hn : s.length ≤ n) :
    ∀ x ∈ pieces p n s, ¬ p <:+: x := by
  induction n, s using pieces_cases (p := p) with
  | zero s =>
    rw [length_eq_zero_iff.mp (Nat.le_zero.mp hn)]
    rintro x (_ | ⟨_, ⟨⟩⟩)
    exact fun h => hp (List.infix_nil.mp h)
  | none n s h =>
    rw [pieces_of_none h]
    rintro x (_ | ⟨_, ⟨⟩⟩)
    exact find_eq_none_iff.mp h
  | some n s k h ih =>
    have hfirst := find_eq_some_iff.mp h
    have hpos := length_pos_iff.mpr hp
    rw [pieces_of_some h, forall_mem_cons]
    refine ⟨hfirst.not_infix_take hp, ih ?_⟩
    rw [length_drop]
    omega

def occurrences (p s : List α) : Nat := (pieces p s.length s).length - 1

/-- The first occurrences: what is before each one, and the list from it on. -/
def cuts (p : List α) : Nat → List α → List (List α × List α)
  | 0, _ => []
  | n + 1, s =>
    match find p s with
    | none => []
    | some k => (s.take k, s.drop k) :: cuts p n (s.drop (k + p.length))

lemma cuts_of_none (h : find p s = none) : cuts p n s = [] := by
  cases n with
  | zero => rfl
  | succ n => rw [cuts, h]

lemma cuts_of_some (h : find p s = some k) :
    cuts p (n + 1) s = (s.take k, s.drop k) :: cuts p n (s.drop (k + p.length)) := by
  rw [cuts, h]

lemma of_mem_cuts (p : List α) (n : Nat) (s : List α) :
    ∀ c ∈ cuts p n s, c.2 <:+ s ∧ p <+: c.2 := by
  induction n, s using pieces_cases (p := p) with
  | zero s => exact nofun
  | none n s h =>
    rw [cuts_of_none h]
    exact nofun
  | some n s k h ih =>
    rw [cuts_of_some h, forall_mem_cons]
    refine ⟨⟨drop_suffix k s, (find_eq_some_iff.mp h).occurs⟩, fun c hc => ?_⟩
    exact ⟨(ih c hc).1.trans (drop_suffix _ s), (ih c hc).2⟩

lemma pairwise_cuts (p : List α) (n : Nat) (s : List α) :
    (cuts p n s).Pairwise fun c d => d.2.length + p.length ≤ c.2.length := by
  induction n, s using pieces_cases (p := p) with
  | zero s => exact .nil
  | none n s h =>
    rw [cuts_of_none h]
    exact .nil
  | some n s k h ih =>
    rw [cuts_of_some h, pairwise_cons]
    refine ⟨fun d hd => ?_, ih⟩
    have hoccurs := (find_eq_some_iff.mp h).occurs.length_le
    have hle := (of_mem_cuts p n _ d hd).1.length_le
    simp only [length_drop] at hoccurs hle ⊢
    omega

end Find

section Join

variable {α : Type}

lemma length_intercalate (sep : List α) (l : List (List α)) :
    (sep.intercalate l).length = (l.map List.length).sum + (l.length - 1) * sep.length := by
  induction l with
  | nil => simp
  | cons x l ih =>
    by_cases hl : l = []
    · subst hl
      simp
    · have hpos := length_pos_iff.mpr hl
      rw [intercalate_cons_of_ne_nil hl, length_append, length_append, ih,
        map_cons, sum_cons, length_cons,
        show l.length + 1 - 1 = l.length - 1 + 1 by omega, Nat.add_mul]
      omega

lemma intercalate_nil_sep (l : List (List α)) : ([] : List α).intercalate l = l.flatten := by
  induction l with
  | nil => rfl
  | cons x l ih =>
    by_cases hl : l = []
    · subst hl
      simp
    · rw [intercalate_cons_of_ne_nil hl, ih, append_nil, flatten_cons]

/-- Replacing the occurrences changes the length by the difference of the lengths. -/
lemma length_replaced [DecidableEq α] (p r s : List α) :
    (r.intercalate (pieces p s.length s)).length + occurrences p s * p.length =
      s.length + occurrences p s * r.length := by
  have hs := congrArg length (intercalate_pieces p s.length s)
  rw [length_intercalate] at hs ⊢
  unfold occurrences
  omega

end Join

end TyLang.Occurrences
