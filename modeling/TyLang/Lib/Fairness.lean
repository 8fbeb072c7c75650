import Mathlib

/-!
Fairness of a run, as a property of what its states enable and what happens at them. A
measure that falls each time something happens bounds how often it can happen, so a fair run
does not stay where it is enabled again and again.
-/
namespace TyLang.Fairness

/-- What is enabled again and again happens again and again. -/
def StrongFair (enabled occurs : Nat → Prop) : Prop :=
  (∀ start, ∃ n, start ≤ n ∧ enabled n) → ∀ start, ∃ n, start ≤ n ∧ occurs n

variable {p enabled occurs : Nat → Prop} {rank : Nat → Nat} {start : Nat}

lemma ends (hp : p start) (left : ¬ ∀ n, start ≤ n → p n) :
    ∃ n, start ≤ n ∧ (∀ k, start ≤ k → k ≤ n → p k) ∧ ¬ p (n + 1) := by
  refine Classical.byContradiction fun goesOn => left ?_
  have upTo (n : Nat) (hn : start ≤ n) : ∀ k, start ≤ k → k ≤ n → p k := by
    induction n, hn using Nat.le_induction with
    | base =>
      intro k hk hkn
      rwa [Nat.le_antisymm hkn hk]
    | succ n hn ih =>
      intro k hk hkn
      rcases Nat.lt_or_ge n k with hlt | hge
      · obtain rfl : k = n + 1 := by omega
        exact Classical.byContradiction fun h => goesOn ⟨n, hn, ih, h⟩
      · exact ih k hk hge
  exact fun n hn => upTo n hn n hn .refl

section Always

variable (always : ∀ n, start ≤ n → p n) (stays : ∀ n, p n → p (n + 1) → rank (n + 1) ≤ rank n)

include always stays

lemma rank_antitone {n m : Nat} (hn : start ≤ n) (hm : n ≤ m) : rank m ≤ rank n := by
  induction m, hm using Nat.le_induction with
  | base => exact .refl
  | succ m hm ih => exact (stays m (always m (by omega)) (always (m + 1) (by omega))).trans ih

lemma rank_falls (recurs : ∀ start, ∃ n, start ≤ n ∧ occurs n)
    (falls : ∀ n, p n → occurs n → p (n + 1) → rank (n + 1) < rank n) (k : Nat) :
    ∃ n, start ≤ n ∧ rank n + k ≤ rank start := by
  induction k with
  | zero => exact ⟨start, .refl, .refl⟩
  | succ k ih =>
    obtain ⟨n, hn, hrank⟩ := ih
    obtain ⟨m, hm, hoccurs⟩ := recurs n
    have hle := rank_antitone always stays hn hm
    have hlt := falls m (always m (by omega)) hoccurs (always (m + 1) (by omega))
    exact ⟨m + 1, by omega, by omega⟩

end Always

/-- A fair run does not stay in `p`. -/
lemma StrongFair.leaves (fair : StrongFair enabled occurs) (p : Nat → Prop) (rank : Nat → Nat)
    (able : (∀ n, start ≤ n → p n) → ∀ start, ∃ n, start ≤ n ∧ enabled n)
    (stays : ∀ n, p n → p (n + 1) → rank (n + 1) ≤ rank n)
    (falls : ∀ n, p n → occurs n → p (n + 1) → rank (n + 1) < rank n) (hp : p start) :
    ∃ n, start ≤ n ∧ (∀ k, start ≤ k → k ≤ n → p k) ∧ ¬ p (n + 1) := by
  refine ends hp fun always => ?_
  obtain ⟨n, -, hrank⟩ := rank_falls always stays (fair (able always)) falls (rank start + 1)
  omega

end TyLang.Fairness
