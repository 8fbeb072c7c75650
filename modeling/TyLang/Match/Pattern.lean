import Mathlib

/-!
The patterns that `src/compiler.c` compiles in groups. What they test at their
leaves differs between the groups; aliases and choices are common to them.
-/
namespace TyLang.Match
open List

/-- A pattern over leaves of one kind. An alias only binds the value. -/
inductive Pattern (L : Type) where
  | leaf (l : L)
  | alias (aliased : Pattern L)
  | choice (es : List (Pattern L))

variable {L : Type} {patterns : List (Pattern L)}

/-- The pattern below its aliases. -/
def Pattern.strip : Pattern L → Pattern L
  | .alias p => p.strip
  | p => p

def numChoicesOf (p : Pattern L) : Nat :=
  match p.strip with
  | .choice es => es.length
  | _ => 1

/-- `choices_of`. A choice inside one of the choices is not opened. -/
def choicesOf (p : Pattern L) : List (Pattern L) :=
  match p.strip with
  | .choice es => es
  | q => [q]

def patGroupTotal (patterns : List (Pattern L)) : Nat := (patterns.map numChoicesOf).sum

mutual

/-- Whether a value passes the pattern, as `emit_try_match` tests it, when `test`
is the test at a leaf. -/
def Pattern.passes (test : L → Bool) : Pattern L → Bool
  | .leaf l => test l
  | .alias p => p.passes test
  | .choice es => passesOne test es

def passesOne (test : L → Bool) : List (Pattern L) → Bool
  | [] => false
  | p :: ps => p.passes test || passesOne test ps

end

mutual

def Pattern.leaves : Pattern L → List L
  | .leaf l => [l]
  | .alias p => p.leaves
  | .choice es => leavesAll es

def leavesAll : List (Pattern L) → List L
  | [] => []
  | p :: ps => p.leaves ++ leavesAll ps

end

mutual

lemma passes_eq_any (test : L → Bool) : ∀ p : Pattern L, p.passes test = p.leaves.any test
  | .leaf l => by simp [Pattern.passes, Pattern.leaves]
  | .alias p => passes_eq_any test p
  | .choice es => passesOne_eq_any test es

lemma passesOne_eq_any (test : L → Bool) :
    ∀ ps : List (Pattern L), passesOne test ps = (leavesAll ps).any test
  | [] => rfl
  | p :: ps => by
    simp only [passesOne, leavesAll, any_append, passes_eq_any test p, passesOne_eq_any test ps]

end

/-- The first arm whose pattern passes: what testing the arms one after the other
selects. -/
def firstMatch (test : L → Bool) (patterns : List (Pattern L)) : Option Nat :=
  patterns.findIdx? fun p => p.passes test

lemma firstMatch_eq_none {test : L → Bool} :
    firstMatch test patterns = none ↔
      ∀ (i : Nat) (p : Pattern L), patterns[i]? = some p → p.passes test = false := by
  rw [firstMatch, findIdx?_eq_none_iff]
  constructor
  · intro h i p hp
    exact h p (mem_of_getElem? hp)
  · intro h p hp
    obtain ⟨i, hi⟩ := mem_iff_getElem?.mp hp
    exact h i p hi

lemma firstMatch_eq_some {test : L → Bool} {i : Nat} :
    firstMatch test patterns = some i ↔
      (∃ p, patterns[i]? = some p ∧ p.passes test) ∧
        ∀ (j : Nat) (p : Pattern L), j < i → patterns[j]? = some p → p.passes test = false := by
  rw [firstMatch, findIdx?_eq_some_iff_getElem]
  constructor
  · rintro ⟨hi, hpass, hbefore⟩
    refine ⟨⟨patterns[i], getElem?_eq_getElem hi, hpass⟩, fun j p hj hp => ?_⟩
    obtain ⟨hlt, rfl⟩ := List.getElem?_eq_some_iff.mp hp
    simpa using hbefore j hj
  · rintro ⟨⟨p, hp, hpass⟩, hbefore⟩
    obtain ⟨hi, rfl⟩ := List.getElem?_eq_some_iff.mp hp
    refine ⟨hi, hpass, fun j hj => ?_⟩
    simpa using hbefore j _ hj (getElem?_eq_getElem (Nat.lt_trans hj hi))

end TyLang.Match
