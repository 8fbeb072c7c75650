import Mathlib

/-!
Maps that remember the order in which their keys were first inserted, as lists
of pairs from the oldest key to the newest.
-/
namespace TyLang.OrderedMap
open List

variable {K V : Type} [BEq K] {m : List (K × V)} {k : K}

section
variable (m : List (K × V)) (k : K)

def Has : Prop := ∃ e ∈ m, (e.1 == k)

instance (m : List (K × V)) (k : K) : Decidable (Has m k) :=
  inferInstanceAs (Decidable (∃ e ∈ m, (e.1 == k)))

def lookup : Option V :=
  (m.find? fun e => e.1 == k).map Prod.snd

/-- A key keeps its place when its value is replaced; a new key goes to the end. -/
def put (v : V) : List (K × V) :=
  if Has m k then m.map fun e => if e.1 == k then (e.1, v) else e
  else m ++ [(k, v)]

def erase : List (K × V) := m.filter fun e => !(e.1 == k)

end

def Distinct (m : List (K × V)) : Prop := m.Pairwise fun a b => (a.1 == b.1) = false

lemma lookup_eq_none (h : ¬ Has m k) : lookup m k = none := by
  unfold lookup
  rw [find?_eq_none.mpr]
  · rfl
  · exact fun e he hek => h ⟨e, he, hek⟩

lemma lookup_ne_none (h : Has m k) : lookup m k ≠ none := by
  obtain ⟨e, he, hek⟩ := h
  unfold lookup
  rw [Ne, Option.map_eq_none_iff, find?_eq_none]
  exact fun hall => hall e he hek

lemma erase_eq_self (h : ¬ Has m k) : erase m k = m := by
  unfold erase
  rw [filter_eq_self]
  intro e he
  have : ¬ (e.1 == k) := fun hek => h ⟨e, he, hek⟩
  simpa using this

/-- In a map with distinct keys the entry under a key is the only one. -/
lemma Distinct.split [PartialEquivBEq K] {l r : List (K × V)} {e : K × V}
    (hm : Distinct (l ++ e :: r)) (he : (e.1 == k)) : ¬ Has l k ∧ ¬ Has r k := by
  unfold Distinct at hm
  rw [pairwise_append, pairwise_cons] at hm
  constructor
  · rintro ⟨a, ha, hak⟩
    have := hm.2.2 a ha e (by simp)
    rw [PartialEquivBEq.trans hak (PartialEquivBEq.symm he)] at this
    cases this
  · rintro ⟨a, ha, hak⟩
    have := hm.2.1.1 a ha
    rw [PartialEquivBEq.trans he (PartialEquivBEq.symm hak)] at this
    cases this

lemma Distinct.lookup_eq [PartialEquivBEq K] {l r : List (K × V)} {e : K × V}
    (hm : Distinct (l ++ e :: r)) (he : (e.1 == k)) : lookup (l ++ e :: r) k = some e.2 := by
  have hl := (hm.split he).1
  unfold lookup
  rw [find?_append, find?_eq_none.mpr fun a ha hak => hl ⟨a, ha, hak⟩,
    find?_cons_of_pos (by simpa using he)]
  rfl

lemma Distinct.erase_eq [PartialEquivBEq K] {l r : List (K × V)} {e : K × V}
    (hm : Distinct (l ++ e :: r)) (he : (e.1 == k)) : erase (l ++ e :: r) k = l ++ r := by
  have hl := erase_eq_self (hm.split he).1
  have hr := erase_eq_self (hm.split he).2
  unfold erase at *
  rw [filter_append, filter_cons_of_neg (by simp [he]), hl, hr]

/-- The entries of `es`, put one after the other. -/
def putAll (m es : List (K × V)) : List (K × V) := es.foldl (fun m e => put m e.1 e.2) m

lemma putAll_cons (m : List (K × V)) (e : K × V) (es : List (K × V)) :
    putAll m (e :: es) = putAll (put m e.1 e.2) es := rfl

end TyLang.OrderedMap
