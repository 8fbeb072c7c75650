import Mathlib

/-!
Parts of a list that stand at a known place in a longer one, and what holds for
each of their elements together with its index in the longer list.
-/
namespace TyLang.Segment

variable {α β : Type}

/-- Each element has the property together with its index, counted from `a`. -/
def Every (P : Nat → α → Prop) : Nat → List α → Prop
  | _, [] => True
  | a, x :: xs => P a x ∧ Every P (a + 1) xs

/-- The list stands in `whole` from the index `a` on. -/
def Stands (whole : List α) : Nat → List α → Prop := Every fun a x => whole[a]? = some x

variable {P : Nat → α → Prop} {a : Nat} {whole : List α} {xs : List α}

@[simp] lemma every_nil : Every P a [] := trivial

@[simp] lemma every_cons {x : α} :
    Every P a (x :: xs) ↔ P a x ∧ Every P (a + 1) xs := Iff.rfl

@[simp] lemma every_append {xs ys : List α} :
    Every P a (xs ++ ys) ↔ Every P a xs ∧ Every P (a + xs.length) ys := by
  induction xs generalizing a with
  | nil => simp
  | cons x xs ih =>
    simp only [List.cons_append, every_cons, ih, and_assoc, List.length_cons,
      show a + 1 + xs.length = a + (xs.length + 1) by omega]

lemma Every.get {a i : Nat} {x : α} (h : Every P a xs) (hx : xs[i]? = some x) : P (a + i) x := by
  induction xs generalizing a i with
  | nil => cases hx
  | cons y ys ih =>
    cases i with
    | zero =>
      cases hx
      exact h.1
    | succ i =>
      have hi := ih h.2 (by simpa using hx)
      rwa [show a + 1 + i = a + (i + 1) by omega] at hi

@[simp] lemma stands_nil : Stands whole a [] := trivial

@[simp] lemma stands_cons {x : α} :
    Stands whole a (x :: xs) ↔ whole[a]? = some x ∧ Stands whole (a + 1) xs := Iff.rfl

@[simp] lemma stands_append {xs ys : List α} :
    Stands whole a (xs ++ ys) ↔ Stands whole a xs ∧ Stands whole (a + xs.length) ys :=
  every_append

lemma stands_self (front xs : List α) : Stands (front ++ xs) front.length xs := by
  induction xs generalizing front with
  | nil => trivial
  | cons x xs ih =>
    rw [stands_cons]
    exact ⟨by simp, by simpa using ih (front ++ [x])⟩

end TyLang.Segment
