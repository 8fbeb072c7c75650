import Mathlib

/-!
Runs as sequences of propositions about their states. An invariant that every
regular step keeps, and that an irregular step breaks for all to see, says that
a run shows no fault if and only if all its steps are regular. A run also leaves a history, to
which its steps add events one by one.
-/
namespace TyLang.Runs
open List

variable {Inv Good Regular : Nat → Prop}

/-- What holds at the start and is kept by every regular step holds always. -/
lemma invariant (start : Inv 0) (step : ∀ n, Inv n → Regular n → Inv (n + 1))
    (regular : ∀ n, Regular n) (n : Nat) : Inv n := by
  induction n with
  | zero => exact start
  | succ n ih => exact step n ih (regular n)

lemma forall_iff_of_invariant (start : Inv 0) (step : ∀ n, Inv n → Regular n → Inv (n + 1))
    (sound : ∀ n, Inv n → Regular n → Good n) (fault : ∀ n, Inv n → ¬ Regular n →
      ¬ (Good n ∧ Good (n + 1))) : (∀ n, Good n) ↔ ∀ n, Regular n := by
  constructor
  · intro good n
    -- a run that has been regular so far can only go on regularly
    have both : ∀ m, Inv m ∧ Regular m := by
      have regular_of (m : Nat) (hm : Inv m) : Regular m :=
        Classical.byContradiction fun h => fault m hm h ⟨good m, good (m + 1)⟩
      intro m
      induction m with
      | zero => exact ⟨start, regular_of 0 start⟩
      | succ m ih =>
        have hm := step m ih.1 ih.2
        exact ⟨hm, regular_of (m + 1) hm⟩
    exact (both n).2
  · intro regular n
    exact sound n (invariant start step regular n) (regular n)

lemma split_snoc {α : Type} {history before after : List α} {e x : α}
    (h : history ++ [e] = before ++ x :: after) :
    (before = history ∧ x = e) ∨ ∃ after', history = before ++ x :: after' := by
  rcases eq_nil_or_concat after with rfl | ⟨after, e', rfl⟩
  · obtain ⟨hbefore, he⟩ := append_inj' h rfl
    exact .inl ⟨hbefore.symm, (cons.inj he).1.symm⟩
  · rw [concat_eq_append, ← cons_append, ← append_assoc] at h
    exact .inr ⟨after, (append_inj' h rfl).1⟩

end TyLang.Runs
