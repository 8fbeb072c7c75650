import Mathlib

/-!
Scripts of edits between two lists. A script runs over both lists once, so that no part is edited
twice. The distance of two lists is the least cost of a script between them.
-/
namespace TyLang.Edits
open List

variable {α : Type}

inductive Edit (α : Type) where
  | insert (y : α)
  | delete (x : α)
  | keep (x : α)
  | substitute (x y : α)
  | swap (x y : α)

namespace Edit

def old : Edit α → List α
  | .insert _ => []
  | .delete x | .keep x | .substitute x _ => [x]
  | .swap x y => [x, y]

def new : Edit α → List α
  | .delete _ => []
  | .insert y | .keep y | .substitute _ y => [y]
  | .swap x y => [y, x]

def cost : Edit α → Nat
  | .keep _ => 0
  | _ => 1

def flip : Edit α → Edit α
  | .insert y => .delete y
  | .delete x => .insert x
  | .keep x => .keep x
  | .substitute x y => .substitute y x
  | .swap x y => .swap y x

end Edit

def olds (es : List (Edit α)) : List α := es.flatMap Edit.old

def news (es : List (Edit α)) : List α := es.flatMap Edit.new

def cost (es : List (Edit α)) : Nat := (es.map Edit.cost).sum

/-- There is a script of cost `n`. -/
def Reached (a b : List α) (n : Nat) : Prop := ∃ es, olds es = a ∧ news es = b ∧ cost es = n

structure IsDistance (a b : List α) (n : Nat) : Prop where
  reached : Reached a b n
  least : ∀ m, Reached a b m → n ≤ m

variable {a b : List α} {x y : α} {n m : Nat}

lemma IsDistance.unique (h : IsDistance a b n) (h' : IsDistance a b m) : n = m :=
  Nat.le_antisymm (h.least m h'.reached) (h'.least n h.reached)

lemma Reached.snoc (h : Reached a b n) (e : Edit α) :
    Reached (a ++ e.old) (b ++ e.new) (n + e.cost) := by
  obtain ⟨es, rfl, rfl, rfl⟩ := h
  exact ⟨es ++ [e], by simp [olds], by simp [news], by simp [cost]⟩

/-- A script is empty, or has a last edit. -/
lemma Reached.last (h : Reached a b n) : (a = [] ∧ b = [] ∧ n = 0) ∨
    ∃ a' b' m, ∃ e : Edit α, Reached a' b' m ∧ a = a' ++ e.old ∧ b = b' ++ e.new ∧
    n = m + e.cost := by
  obtain ⟨es, rfl, rfl, rfl⟩ := h
  rcases eq_nil_or_concat es with rfl | ⟨es, e, rfl⟩
  · exact .inl ⟨rfl, rfl, rfl⟩
  · exact .inr ⟨_, _, _, e, ⟨es, rfl, rfl, rfl⟩, by simp [olds], by simp [news], by simp [cost]⟩

lemma Reached.flip (h : Reached a b n) : Reached b a n := by
  obtain ⟨es, rfl, rfl, rfl⟩ := h
  have hold : ∀ e : Edit α, e.flip.old = e.new := by rintro (_ | _ | _ | _ | _) <;> rfl
  have hnew : ∀ e : Edit α, e.flip.new = e.old := by rintro (_ | _ | _ | _ | _) <;> rfl
  have hcost : ∀ e : Edit α, e.flip.cost = e.cost := by rintro (_ | _ | _ | _ | _) <;> rfl
  refine ⟨es.map Edit.flip, ?_, ?_, ?_⟩
  · simp [olds, news, flatMap_map, hold]
  · simp [olds, news, flatMap_map, hnew]
  · simp [cost, Function.comp_def, hcost]

lemma IsDistance.flip (h : IsDistance a b n) : IsDistance b a n :=
  ⟨h.reached.flip, fun m hm => h.least m hm.flip⟩

/-! ### Bounds -/

lemma Reached.length_le (h : Reached a b n) : a.length ≤ b.length + n := by
  obtain ⟨es, rfl, rfl, rfl⟩ := h
  induction es with
  | nil => exact Nat.zero_le _
  | cons e es ih =>
    have he : e.old.length ≤ e.new.length + e.cost := by
      cases e <;> simp [Edit.old, Edit.new, Edit.cost]
    simp only [olds, news, cost, flatMap_cons, length_append, map_cons, sum_cons] at ih ⊢
    omega

lemma Reached.eq_of_zero (h : Reached a b 0) : a = b := by
  obtain ⟨es, rfl, rfl, hcost⟩ := h
  induction es with
  | nil => rfl
  | cons e es ih =>
    simp only [cost, map_cons, sum_cons, Nat.add_eq_zero_iff] at hcost
    have he : e.old = e.new := by
      cases e with
      | keep => rfl
      | _ => exact absurd hcost.1 Nat.one_ne_zero
    simp only [olds, news, flatMap_cons, he] at ih ⊢
    rw [ih hcost.2]

lemma reached_nil : Reached ([] : List α) [] 0 := ⟨[], rfl, rfl, rfl⟩

lemma reached_self (a : List α) : Reached a a 0 := by
  induction a using reverseRecOn with
  | nil => exact reached_nil
  | append_singleton a x ih => exact ih.snoc (.keep x)

lemma reached_nil_left (b : List α) : Reached [] b b.length := by
  induction b using reverseRecOn with
  | nil => exact reached_nil
  | append_singleton b y ih =>
    rw [length_append]
    exact ih.snoc (.insert y)

lemma isDistance_nil_left (b : List α) : IsDistance [] b b.length :=
  ⟨reached_nil_left b, fun _ hm => by simpa using hm.flip.length_le⟩

lemma IsDistance.eq_zero_iff (h : IsDistance a b n) : n = 0 ↔ a = b := by
  refine ⟨?_, ?_⟩
  · rintro rfl
    exact h.reached.eq_of_zero
  · rintro rfl
    exact Nat.le_zero.mp (h.least 0 (reached_self a))

/-- Some script replaces item by item, and then deletes or inserts the rest. -/
lemma exists_reached (a b : List α) : ∃ m, Reached a b m ∧ m ≤ max a.length b.length := by
  induction a using reverseRecOn generalizing b with
  | nil => exact ⟨b.length, reached_nil_left b, by simp⟩
  | append_singleton a x ih =>
    rcases eq_nil_or_concat b with rfl | ⟨b, y, rfl⟩
    · exact ⟨_, (reached_nil_left (a ++ [x])).flip, by simp⟩
    · obtain ⟨m, hm, hle⟩ := ih b
      rw [concat_eq_append]
      refine ⟨m + 1, hm.snoc (.substitute x y), ?_⟩
      simp only [length_append, length_singleton]
      omega

lemma IsDistance.le_max (h : IsDistance a b n) : n ≤ max a.length b.length := by
  obtain ⟨m, hm, hle⟩ := exists_reached a b
  exact Nat.le_trans (h.least m hm) hle

/-! ### The last edit -/

/-- A bound of the four ways to end a script is a bound of all scripts. -/
lemma le_of_last (hinsert : ∀ m, Reached (a ++ [x]) b m → n ≤ m + 1)
    (hdelete : ∀ m, Reached a (b ++ [y]) m → n ≤ m + 1)
    (hkeep : ∀ m, x = y → Reached a b m → n ≤ m) (hsubstitute : ∀ m, Reached a b m → n ≤ m + 1)
    (hswap : ∀ a' b' m, a = a' ++ [y] → b = b' ++ [x] → Reached a' b' m → n ≤ m + 1) :
    ∀ m, Reached (a ++ [x]) (b ++ [y]) m → n ≤ m := by
  intro m hm
  rcases hm.last with ⟨h, -, -⟩ | ⟨a', b', m, e, hr, ha, hb, rfl⟩
  · simp at h
  cases e with
  | insert z =>
    obtain ⟨rfl, -⟩ := append_inj' hb rfl
    rw [Edit.old, append_nil] at ha
    exact hinsert m (ha ▸ hr)
  | delete z =>
    obtain ⟨rfl, -⟩ := append_inj' ha rfl
    rw [Edit.new, append_nil] at hb
    exact hdelete m (hb ▸ hr)
  | keep z =>
    obtain ⟨rfl, hx⟩ := append_inj' ha rfl
    obtain ⟨rfl, hy⟩ := append_inj' hb rfl
    cases hx
    cases hy
    exact hkeep m rfl hr
  | substitute z w =>
    obtain ⟨rfl, -⟩ := append_inj' ha rfl
    obtain ⟨rfl, -⟩ := append_inj' hb rfl
    exact hsubstitute m hr
  | swap z w =>
    obtain ⟨rfl, hx⟩ := append_inj' (ha.trans (append_cons a' z [w])) rfl
    obtain ⟨rfl, hy⟩ := append_inj' (hb.trans (append_cons b' w [z])) rfl
    cases hx
    cases hy
    exact hswap a' b' m rfl rfl hr

/-- The distance is that of the cheapest last edit. -/
lemma isDistance_of_last [DecidableEq α] {n1 n2 n3 : Nat} (h1 : IsDistance a (b ++ [y]) n1)
    (h2 : IsDistance (a ++ [x]) b n2) (h3 : IsDistance a b n3) (hn1 : n ≤ n1 + 1) (hn2 : n ≤ n2 + 1)
    (hn3 : n ≤ n3 + if x = y then 0 else 1)
    (hswap : ∀ a' b' m, a = a' ++ [y] → b = b' ++ [x] → Reached a' b' m → n ≤ m + 1)
    (hlast : n ∈ [n1 + 1, n2 + 1, n3 + if x = y then 0 else 1] ∨
      ∃ a' b' m, a = a' ++ [y] ∧ b = b' ++ [x] ∧ Reached a' b' m ∧ n = m + 1) :
    IsDistance (a ++ [x]) (b ++ [y]) n := by
  constructor
  · simp only [mem_cons, not_mem_nil, or_false] at hlast
    obtain (rfl | rfl | rfl) | ⟨a', b', m, rfl, rfl, hm, rfl⟩ := hlast
    · simpa [Edit.old, Edit.new, Edit.cost] using h1.reached.snoc (.delete x)
    · simpa [Edit.old, Edit.new, Edit.cost] using h2.reached.snoc (.insert y)
    · split
      next hxy => exact hxy ▸ h3.reached.snoc (.keep x)
      next => exact h3.reached.snoc (.substitute x y)
    · simpa [Edit.old, Edit.new, Edit.cost] using hm.snoc (.swap y x)
  · refine le_of_last (fun m hm => ?_) (fun m hm => ?_) (fun m hxy hm => ?_) (fun m hm => ?_) hswap
    · exact Nat.le_trans hn2 (Nat.succ_le_succ (h2.least m hm))
    · exact Nat.le_trans hn1 (Nat.succ_le_succ (h1.least m hm))
    · rw [if_pos hxy] at hn3
      exact Nat.le_trans hn3 (h3.least m hm)
    · have hle := h3.least m hm
      split at hn3 <;> omega

end TyLang.Edits
