import Mathlib

/-!
Doubly linked lists whose nodes are numbers: `next` and `prev` are total
functions, and `Linked` says that they and the `last` pointer thread the nodes
of `order`, in that order. What the functions give outside `order` is free.
-/
namespace TyLang
open List

variable {next prev next' prev' : Nat → Option Nat} {last last' : Option Nat} {order : List Nat}

/-- The nodes met on the way from a pointer along `step`, `fuel` of them at most. -/
def chase (step : Nat → Option Nat) : Nat → Option Nat → List Nat
  | fuel + 1, some s => s :: chase step fuel (step s)
  | _, _ => []

structure Linked (next prev : Nat → Option Nat) (last : Option Nat) (order : List Nat) :
    Prop where
  last_eq : last = order.getLast?
  next_eq : ∀ l s r, order = l ++ s :: r → next s = r.head?
  prev_eq : ∀ l s r, order = l ++ s :: r → prev s = l.getLast?

namespace Linked

lemma nil : Linked next prev none [] := by
  refine ⟨rfl, ?_, ?_⟩ <;> intro l s r h <;> simp at h

section
variable (h : Linked next prev last order)
include h

lemma congr (hn : ∀ s ∈ order, next' s = next s) (hp : ∀ s ∈ order, prev' s = prev s) :
    Linked next' prev' last order := by
  refine ⟨h.last_eq, ?_, ?_⟩
  · intro l s r e
    rw [hn s (by simp [e])]
    exact h.next_eq l s r e
  · intro l s r e
    rw [hp s (by simp [e])]
    exact h.prev_eq l s r e

lemma last_mem {s : Nat} (hs : last = some s) : s ∈ order := by
  rw [h.last_eq] at hs
  exact mem_of_getLast? hs

lemma prev_of_next {s t : Nat}
    (hs : s ∈ order) (e : next s = some t) : t ∈ order ∧ prev t = some s := by
  obtain ⟨l, r, rfl⟩ := append_of_mem hs
  rw [h.next_eq l s r rfl] at e
  cases r with
  | nil => simp at e
  | cons x r =>
    simp only [head?_cons, Option.some.injEq] at e
    subst e
    refine ⟨by simp, ?_⟩
    have := h.prev_eq (l ++ [s]) x r (by simp)
    simpa using this

lemma next_of_prev {s t : Nat}
    (hs : s ∈ order) (e : prev s = some t) : t ∈ order ∧ next t = some s := by
  obtain ⟨l, r, rfl⟩ := append_of_mem hs
  rw [h.prev_eq l s r rfl] at e
  obtain ⟨l', rfl⟩ := getLast?_eq_some_iff.mp e
  refine ⟨by simp, ?_⟩
  have := h.next_eq l' t (s :: r) (by simp)
  simpa using this

lemma next_eq_none (nodup : order.Nodup) {s : Nat}
    (hs : s ∈ order) : next s = none ↔ last = some s := by
  obtain ⟨l, r, rfl⟩ := append_of_mem hs
  rw [h.next_eq l s r rfl, h.last_eq]
  cases r with
  | nil => simp
  | cons x r =>
    have hne : (x :: r).getLast? ≠ some s := by
      intro e
      have hmem := mem_of_getLast? e
      simp only [nodup_append, nodup_cons] at nodup
      exact nodup.2.1.1 hmem
    simpa [getLast?_append, getLast?_cons_cons] using hne

lemma next_ne_self (nodup : order.Nodup) {s : Nat} (hs : s ∈ order) : next s ≠ some s := by
  obtain ⟨l, r, rfl⟩ := append_of_mem hs
  rw [h.next_eq l s r rfl]
  intro e
  have hmem : s ∈ r := mem_of_head? e
  simp only [nodup_append, nodup_cons] at nodup
  exact nodup.2.1.1 hmem

lemma push {x : Nat} (fresh : x ∉ order)
    (hn : ∀ s ∈ order, next' s = if last = some s then some x else next s)
    (hp : ∀ s ∈ order, prev' s = prev s)
    (hnx : next' x = none) (hpx : prev' x = last) (nodup : order.Nodup) :
    Linked next' prev' (some x) (order ++ [x]) := by
  refine ⟨by simp, ?_, ?_⟩
  · intro l s r e
    rcases eq_nil_or_concat r with rfl | ⟨r, y, rfl⟩
    · obtain ⟨rfl, hsx⟩ := append_inj' e rfl
      simp only [cons.injEq, and_true] at hsx
      simp [← hsx, hnx]
    have e' : order ++ [x] = (l ++ s :: r) ++ [y] := by simpa using e
    obtain ⟨rfl, hxy⟩ := append_inj' e' rfl
    simp only [cons.injEq, and_true] at hxy
    subst hxy
    rw [hn s (by simp)]
    have hnone := h.next_eq_none nodup (s := s) (by simp)
    rw [h.next_eq l s r rfl] at hnone ⊢
    split
    next hl => rw [hnone.mpr hl |> head?_eq_none_iff.mp]; rfl
    next hl =>
      cases r with
      | nil => exact absurd (hnone.mp rfl) hl
      | cons z r => rfl
  · intro l s r e
    rcases eq_nil_or_concat r with rfl | ⟨r, y, rfl⟩
    · obtain ⟨rfl, hsx⟩ := append_inj' e rfl
      simp only [cons.injEq, and_true] at hsx
      rw [← hsx, hpx, h.last_eq]
    · have e' : order ++ [x] = (l ++ s :: r) ++ [y] := by simpa using e
      obtain ⟨rfl, -⟩ := append_inj' e' rfl
      rw [hp s (by simp)]
      exact h.prev_eq l s r rfl

end

variable {l r : List Nat}

lemma unlink {x : Nat} (h : Linked next prev last (l ++ x :: r)) (nodup : (l ++ x :: r).Nodup)
    (hn : ∀ s ∈ l ++ r, next' s = if prev x = some s then next x else next s)
    (hp : ∀ s ∈ l ++ r, prev' s = if next x = some s then prev x else prev s)
    (hlast : last' = if next x = none then prev x else last) :
    Linked next' prev' last' (l ++ r) := by
  have hnx := h.next_eq l x r rfl
  have hpx := h.prev_eq l x r rfl
  have hll := h.last_eq
  simp only [nodup_append, nodup_cons] at nodup
  obtain ⟨hnl, ⟨hxr, hnr⟩, hdisj⟩ := nodup
  refine ⟨?_, ?_, ?_⟩
  · rw [hlast, hnx, hpx, hll]
    cases r with
    | nil => simp
    | cons y r => simp [getLast?_append, getLast?_cons_cons]
  · intro a s b e
    rw [hn s (by simp [e]), hnx, hpx]
    rcases append_eq_append_iff.mp e with ⟨m, rfl, rfl⟩ | ⟨m, rfl, hm⟩
    · -- the node lies behind the removed one
      have hs : ¬ l.getLast? = some s := by
        intro hs
        exact hdisj s (mem_of_getLast? hs) s (by simp) rfl
      rw [if_neg hs]
      exact h.next_eq (l ++ x :: m) s b (by simp)
    · cases m with
      | nil =>
        simp only [nil_append, append_nil] at hm hdisj hnl hxr ⊢
        subst hm
        have hs : ¬ a.getLast? = some s := by
          intro hs
          exact hdisj s (mem_of_getLast? hs) s (by simp) rfl
        rw [if_neg hs]
        exact h.next_eq (a ++ [x]) s b (by simp)
      | cons y m =>
        obtain ⟨rfl, rfl⟩ := hm
        cases m with
        | nil => simp
        | cons z m =>
          have hs : ¬ (a ++ s :: z :: m).getLast? = some s := by
            intro hs
            have : (z :: m).getLast? = some s := by
              simpa using hs
            have hmem := mem_of_getLast? this
            simp only [nodup_append, nodup_cons] at hnl
            exact hnl.2.1.1 hmem
          rw [if_neg hs]
          exact h.next_eq a s (z :: m ++ x :: r) (by simp)
  · intro a s b e
    rw [hp s (by simp [e]), hnx, hpx]
    rcases append_eq_append_iff.mp e with ⟨m, rfl, rfl⟩ | ⟨m, rfl, hm⟩
    · cases m with
      | nil => simp
      | cons y m =>
        have hs : ¬ ((y :: m) ++ s :: b).head? = some s := by
          simp only [cons_append, head?_cons, Option.some.injEq]
          rintro rfl
          simp at hnr
        rw [if_neg hs]
        have := h.prev_eq (l ++ x :: y :: m) s b (by simp)
        rw [this]
        simp [getLast?_append, getLast?_cons_cons]
    · cases m with
      | nil =>
        subst hm
        simp
      | cons y m =>
        obtain ⟨rfl, rfl⟩ := hm
        have hs : ¬ r.head? = some s := by
          intro hs
          exact hdisj s (by simp) s (by simp [mem_of_head? hs]) rfl
        rw [if_neg hs]
        exact h.prev_eq a s (m ++ x :: r) (by simp)

lemma rename (h : Linked next prev last order) (σ : Equiv.Perm Nat)
    (hn : ∀ s ∈ order, next' (σ s) = (next s).map σ)
    (hp : ∀ s ∈ order, prev' (σ s) = (prev s).map σ) :
    Linked next' prev' (last.map σ) (order.map σ) := by
  refine ⟨?_, ?_, ?_⟩
  · rw [h.last_eq, getLast?_map]
  · intro l s r e
    obtain ⟨l', r', rfl, rfl, hr⟩ := map_eq_append_iff.mp e
    obtain ⟨s', r'', rfl, rfl, rfl⟩ := map_eq_cons_iff.mp hr
    rw [hn s' (by simp), h.next_eq l' s' r'' rfl, head?_map]
  · intro l s r e
    obtain ⟨l', r', rfl, rfl, hr⟩ := map_eq_append_iff.mp e
    obtain ⟨s', r'', rfl, rfl, rfl⟩ := map_eq_cons_iff.mp hr
    rw [hp s' (by simp), h.prev_eq l' s' r'' rfl, getLast?_map]

lemma chase_next (h : Linked next prev last order) (e : order = l ++ r)
    {fuel : Nat} (hfuel : r.length ≤ fuel) : chase next fuel r.head? = r := by
  induction r generalizing l fuel with
  | nil => cases fuel <;> rfl
  | cons s r ih =>
    obtain ⟨fuel, rfl⟩ : ∃ n, fuel = n + 1 := ⟨fuel - 1, by simp at hfuel; omega⟩
    rw [head?_cons, chase, h.next_eq l s r e,
      ih (l := l ++ [s]) (by simp [e]) (by simpa using hfuel)]

lemma chase_prev (h : Linked next prev last order) (e : order = l ++ r)
    {fuel : Nat} (hfuel : l.length ≤ fuel) : chase prev fuel l.getLast? = l.reverse := by
  induction fuel generalizing l r with
  | zero =>
    have hnil : l = [] := length_eq_zero_iff.mp (by omega)
    rw [hnil]
    rfl
  | succ fuel ih =>
    rcases eq_nil_or_concat l with rfl | ⟨l, s, rfl⟩
    · rfl
    · simp only [concat_eq_append, append_assoc, singleton_append] at e
      simp only [concat_eq_append, length_append, length_singleton] at hfuel
      rw [concat_eq_append, getLast?_concat, chase, h.prev_eq l s r e,
        ih e (by omega), reverse_append]
      rfl

end Linked
end TyLang
