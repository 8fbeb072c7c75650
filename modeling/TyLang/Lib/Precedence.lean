import Mathlib

/-!
Trees of binary operators, and how the strengths of the operators group a sequence of operands
and operators. At most one tree groups a sequence.
-/
namespace TyLang.Precedence
open List

inductive Tree (X Op : Type) where
  | leaf (x : X)
  | node (op : Op) (left right : Tree X Op)
  deriving DecidableEq, Repr

variable {X Op : Type}

namespace Tree

/-- The first operand of the in-order traversal. -/
def first : Tree X Op → X
  | .leaf x => x
  | .node _ l _ => first l

/-- The operators of the in-order traversal, each with the operand after it. -/
def later : Tree X Op → List (Op × X)
  | .leaf _ => []
  | .node op l r => later l ++ (op, first r) :: later r

/-- How often one goes to the right on a path. -/
def nesting : Tree X Op → Nat
  | .leaf _ => 0
  | .node _ l r => max (nesting l) (nesting r + 1)

lemma nesting_le_length (t : Tree X Op) : nesting t ≤ (later t).length := by
  induction t with
  | leaf x => exact .refl
  | node op l r ihl ihr =>
    simp only [nesting, later, length_append, length_cons]
    omega

/-- `before a b` says that of two operators, `a` the earlier one, `a` is applied first. -/
def Grouped (before : Op → Op → Prop) : Tree X Op → Prop
  | .leaf _ => True
  | .node op l r =>
    (∀ p ∈ later l, before p.1 op) ∧ (∀ p ∈ later r, ¬ before op p.1) ∧ Grouped before l ∧
      Grouped before r

lemma Grouped.congr {before before' : Op → Op → Prop} (h : ∀ a b, before a b ↔ before' a b)
    {t : Tree X Op} (ht : Grouped before t) : Grouped before' t := by
  induction t with
  | leaf x => trivial
  | node op l r ihl ihr =>
    obtain ⟨hleft, hright, hl, hr⟩ := ht
    exact ⟨fun p hp => (h _ _).mp (hleft p hp), fun p hp hb => hright p hp ((h _ _).mpr hb), ihl hl,
      ihr hr⟩

variable {before : Op → Op → Prop}

/-- Of two operators that are both at the top of a tree of the sequence, neither is later than the
other. -/
lemma Grouped.not_later {op op' : Op} {l r l' r' : Tree X Op}
    {between : List (Op × X)} (h : Grouped before (.node op l r))
    (h' : Grouped before (.node op' l' r')) (hl : later l' = later l ++ between)
    (hr : (op, first r) :: later r = between ++ (op', first r') :: later r') : between = [] := by
  cases between with
  | nil => rfl
  | cons p between =>
    obtain ⟨rfl, hlater⟩ := cons.inj hr
    have hbefore : before op op' := h'.1 (op, first r) (by simp [hl])
    exact absurd hbefore (h.2.1 (op', first r') (by simp [hlater]))

/-- Two trees that group one sequence are the same. -/
lemma Grouped.unique {s t : Tree X Op} (hs : Grouped before s)
    (ht : Grouped before t) (hfirst : first s = first t) (hlater : later s = later t) : s = t := by
  induction s generalizing t with
  | leaf x =>
    cases t with
    | leaf y => exact congrArg leaf hfirst
    | node op l r => simp [later] at hlater
  | node op l r ihl ihr =>
    cases t with
    | leaf y => simp [later] at hlater
    | node op' l' r' =>
      have hsame : later l = later l' ∧
          (op, first r) :: later r = (op', first r') :: later r' := by
        rcases append_eq_append_iff.mp hlater with ⟨between, hl, hr⟩ | ⟨between, hl, hr⟩
        · obtain rfl := hs.not_later ht hl hr
          rw [append_nil] at hl
          exact ⟨hl.symm, hr⟩
        · obtain rfl := ht.not_later hs hl hr
          rw [append_nil] at hl
          exact ⟨hl, hr.symm⟩
      obtain ⟨hl, hcons⟩ := hsame
      obtain ⟨hop, hr⟩ := cons.inj hcons
      obtain ⟨rfl, hfr⟩ := Prod.mk.inj hop
      rw [ihl hs.2.2.1 ht.2.2.1 hfirst hl, ihr hs.2.2.2 ht.2.2.2 hfr hr]

end Tree

/-- How tight each operator binds, and whether it is right-associative. -/
structure Strength (Op : Type) where
  prec : Op → Int
  right : Op → Bool

namespace Strength

variable (S : Strength Op)

/-- The earlier operator binds tighter, or as tight and is left-associative. -/
def Before (a b : Op) : Prop := S.prec b < S.prec a ∨ S.prec a = S.prec b ∧ S.right a = false

/-- What an operator has to exceed to take part in the right operand. -/
def power (a : Op) : Int := if S.right a then S.prec a - 1 else S.prec a

variable {S} {a b c : Op}

lemma before_iff : S.Before a b ↔ S.prec b ≤ S.power a := by
  unfold Before power
  cases S.right a with
  | false =>
    simp only [and_true, Bool.false_eq_true, if_false]
    omega
  | true =>
    simp only [Bool.true_eq_false, and_false, or_false, if_true]
    omega

lemma power_le_prec : S.power a ≤ S.prec a := by
  unfold power
  split <;> omega

lemma Before.trans (hab : S.Before a b) (hbc : S.Before b c) : S.Before a c := by
  rw [before_iff] at *
  exact Int.le_trans hbc (Int.le_trans power_le_prec hab)

end Strength

end TyLang.Precedence
