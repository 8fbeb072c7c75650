import Mathlib

/-!
Binary search in a sorted list. A window says where the key can still be: what is
before it is smaller than the key and what is behind it is larger. Both halves of
a window are windows, and an empty one is the place at which the key belongs.
-/
namespace TyLang.Search
open List

variable {K : Type} [LinearOrder K] {ks : List K} {x k : K} {lo hi m j : Nat}

structure Window (ks : List K) (x : K) (lo hi : Nat) : Prop where
  le : lo ≤ hi
  hi_le : hi ≤ ks.length
  below : ∀ k ∈ ks.take lo, k < x
  above : ∀ k ∈ ks.drop hi, x < k

lemma Window.whole (ks : List K) (x : K) : Window ks x 0 ks.length := by
  refine ⟨Nat.zero_le _, .refl, ?_, ?_⟩
  · intro k hk
    simp at hk
  · intro k hk
    simp at hk

section
variable (hs : ks.Pairwise (· ≤ ·))
include hs

lemma le_of_mem_drop (hm : ks[m]? = some k) : ∀ y ∈ ks.drop m, k ≤ y := by
  obtain ⟨hlt, rfl⟩ := List.getElem?_eq_some_iff.mp hm
  have hd := hs.sublist (drop_sublist m ks)
  rw [drop_eq_getElem_cons hlt, pairwise_cons] at hd
  rw [drop_eq_getElem_cons hlt]
  intro y hy
  rcases mem_cons.mp hy with rfl | hy
  · exact le_refl _
  · exact hd.1 y hy

lemma le_of_mem_take (hm : ks[m]? = some k) : ∀ y ∈ ks.take (m + 1), y ≤ k := by
  obtain ⟨hlt, rfl⟩ := List.getElem?_eq_some_iff.mp hm
  have ht := hs.sublist (take_sublist (m + 1) ks)
  rw [take_succ_eq_append_getElem hlt, pairwise_append] at ht
  rw [take_succ_eq_append_getElem hlt]
  intro y hy
  rcases mem_append.mp hy with hy | hy
  · exact ht.2.2 y hy _ (mem_singleton_self _)
  · exact (mem_singleton.mp hy).le

lemma Window.left (w : Window ks x lo hi) (hlo : lo ≤ m)
    (hm : ks[m]? = some k) (hx : x < k) : Window ks x lo m := by
  have hlt : m < ks.length := (List.getElem?_eq_some_iff.mp hm).1
  exact ⟨hlo, Nat.le_of_lt hlt, w.below, fun y hy => hx.trans_le (le_of_mem_drop hs hm y hy)⟩

lemma Window.right (w : Window ks x lo hi) (hhi : m < hi)
    (hm : ks[m]? = some k) (hx : k < x) : Window ks x (m + 1) hi :=
  ⟨hhi, w.hi_le, fun y hy => (le_of_mem_take hs hm y hy).trans_lt hx, w.above⟩

end

lemma Window.notMem (w : Window ks x m m) : x ∉ ks := by
  intro hx
  rw [← take_append_drop m ks, mem_append] at hx
  rcases hx with hx | hx
  · exact lt_irrefl x (w.below x hx)
  · exact lt_irrefl x (w.above x hx)

/-- An empty window is the only place at which the key keeps the list sorted. -/
lemma Window.pairwise_insert (w : Window ks x m m) (hs : ks.Pairwise (· < ·))
    (hj : j ≤ ks.length) :
    (ks.take j ++ x :: ks.drop j).Pairwise (· < ·) ↔ j = m := by
  constructor
  · intro h
    rw [pairwise_append, pairwise_cons] at h
    obtain ⟨-, ⟨habove, -⟩, hbelow⟩ := h
    rcases Nat.lt_trichotomy j m with hlt | heq | hgt
    · -- the entry at `j` stands before the window and behind the key
      have hjl : j < ks.length := Nat.lt_of_lt_of_le hlt w.hi_le
      have h1 := w.below ks[j] (mem_take_iff_getElem.mpr ⟨j, by omega, rfl⟩)
      have h2 := habove ks[j] (mem_drop_iff_getElem.mpr ⟨0, by omega, by simp⟩)
      exact absurd h1 (lt_asymm h2)
    · exact heq
    · have hml : m < ks.length := Nat.lt_of_lt_of_le hgt hj
      have h1 := w.above ks[m] (mem_drop_iff_getElem.mpr ⟨0, by omega, by simp⟩)
      have h2 := hbelow ks[m] (mem_take_iff_getElem.mpr ⟨m, by omega, rfl⟩) x
        (.head _)
      exact absurd h1 (lt_asymm h2)
  · rintro rfl
    rw [pairwise_append, pairwise_cons]
    refine ⟨hs.sublist (take_sublist _ _), ⟨w.above, hs.sublist (drop_sublist _ _)⟩, ?_⟩
    intro a ha b hb
    rcases mem_cons.mp hb with rfl | hb
    · exact w.below a ha
    · exact (w.below a ha).trans (w.above b hb)

section Parallel

variable {V : Type} {l r : List K} {vl vr : List V} {v : V} {y : K}

lemma lookup_zip_self (hlen : l.length = vl.length) (hx : x ∉ l) :
    ((l ++ x :: r).zip (vl ++ v :: vr)).lookup x = some v := by
  have hnone : (l.zip vl).lookup x = none := by
    rw [lookup_eq_none_iff]
    intro p hp
    have hne : x ≠ p.1 := fun h => hx (h ▸ (of_mem_zip hp).1)
    simpa using hne
  rw [zip_append hlen, lookup_append, hnone, zip_cons_cons, lookup_cons_self]
  rfl

/-- An entry of two parallel lists has no say in what is found under another key. -/
lemma lookup_zip_of_ne (hlen : l.length = vl.length) (hy : y ≠ x) :
    ((l ++ x :: r).zip (vl ++ v :: vr)).lookup y = ((l ++ r).zip (vl ++ vr)).lookup y := by
  have hne : (y == x) = false := by simpa using hy
  rw [zip_append hlen, zip_append hlen, lookup_append, lookup_append,
    zip_cons_cons, lookup_cons, hne]

end Parallel

end TyLang.Search
