import Mathlib

/-!
Nodes with at most one parent. A node from which a root is reached has no cycle
above it, so a walk up from it that may take as many steps as there are nodes sees
everything above it.
-/
namespace TyLang.Forest

variable {parent : Nat → Option Nat} {c d a b root : Nat} {fuel : Nat}

/-- The node `a` is `c` itself or above it. -/
inductive Above (parent : Nat → Option Nat) : Nat → Nat → Prop where
  | refl (c : Nat) : Above parent c c
  | step {c d a : Nat} : parent c = some d → Above parent d a → Above parent c a

lemma Above.trans (hca : Above parent c a) (hab : Above parent a b) : Above parent c b := by
  induction hca with
  | refl => exact hab
  | step hparent _ ih => exact .step hparent (ih hab)

lemma Above.cases_of_parent (h : Above parent c a) (hparent : parent c = some d) :
    a = c ∨ Above parent d a := by
  cases h with
  | refl => exact .inl rfl
  | step hstep hrest =>
    rw [hparent] at hstep
    cases hstep
    exact .inr hrest

lemma Above.eq_of_parent_none (h : Above parent c a) (hroot : parent c = none) : a = c := by
  cases h with
  | refl => rfl
  | step hstep _ =>
    rw [hroot] at hstep
    cases hstep

lemma Above.acyclic (h : Above parent c root) (hroot : parent root = none)
    (hparent : parent c = some d) : ¬ Above parent d c := by
  induction h generalizing d with
  | refl =>
    rw [hroot] at hparent
    cases hparent
  | @step c e root hstep hrest ih =>
    rw [hparent] at hstep
    cases hstep
    intro hback
    cases hback with
    | refl => exact ih hroot hparent (.refl _)
    | step hup hback => exact ih hroot hup (hback.trans (.step hparent (.refl _)))

/-- What stays above a node if the parents of some nodes change that are not above it. -/
lemma Above.congr {parent' : Nat → Option Nat} (h : Above parent c a)
    (hsame : ∀ b, Above parent c b → parent' b = parent b) : Above parent' c a := by
  induction h with
  | refl => exact .refl _
  | step hparent _ ih =>
    refine .step ?_ (ih fun b hb => hsame b (.step hparent hb))
    rw [hsame _ (.refl _), hparent]

def walk (parent : Nat → Option Nat) (p : Nat → Bool) : Nat → Nat → Bool
  | 0, _ => false
  | fuel + 1, c =>
    p c || match parent c with
      | none => false
      | some d => walk parent p fuel d

/-- Fuel for a way up: all that is above the node is among so many nodes. -/
def Enough (parent : Nat → Option Nat) (fuel c : Nat) : Prop :=
  ∃ nodes : Finset Nat, nodes.card ≤ fuel ∧ ∀ a, Above parent c a → a ∈ nodes

lemma Enough.pos (h : Enough parent fuel c) : ∃ n, fuel = n + 1 := by
  obtain ⟨nodes, hcard, hmem⟩ := h
  have hpos : 0 < nodes.card := Finset.card_pos.mpr ⟨c, hmem c (.refl c)⟩
  exact ⟨fuel - 1, by omega⟩

lemma Enough.up (h : Enough parent (fuel + 1) c)
    (hup : Above parent c root) (hroot : parent root = none) (hparent : parent c = some d) :
    Enough parent fuel d := by
  obtain ⟨nodes, hcard, hmem⟩ := h
  refine ⟨nodes.erase c, ?_, fun a ha => ?_⟩
  · rw [Finset.card_erase_of_mem (hmem c (.refl c))]
    omega
  · rw [Finset.mem_erase]
    refine ⟨?_, hmem a (.step hparent ha)⟩
    rintro rfl
    exact hup.acyclic hroot hparent ha

lemma enough_of_lt {n : Nat} (h : ∀ a, Above parent c a → a < n) : Enough parent n c :=
  ⟨Finset.range n, by rw [Finset.card_range], fun a ha => Finset.mem_range.mpr (h a ha)⟩

lemma walk_iff {p : Nat → Bool} (henough : Enough parent fuel c)
    (hup : Above parent c root) (hroot : parent root = none) :
    walk parent p fuel c ↔ ∃ a, Above parent c a ∧ p a := by
  induction fuel generalizing c with
  | zero =>
    obtain ⟨n, hn⟩ := henough.pos
    cases hn
  | succ fuel ih =>
    rw [walk, Bool.or_eq_true]
    cases hparent : parent c with
    | none =>
      constructor
      · rintro (hp | hfalse)
        · exact ⟨c, .refl c, hp⟩
        · cases hfalse
      · rintro ⟨a, ha, hp⟩
        rw [ha.eq_of_parent_none hparent] at hp
        exact .inl hp
    | some d =>
      have hd : Above parent d root := by
        rcases hup.cases_of_parent hparent with rfl | hd
        · rw [hroot] at hparent
          cases hparent
        · exact hd
      rw [ih (henough.up hup hroot hparent) hd]
      constructor
      · rintro (hp | ⟨a, ha, hp⟩)
        · exact ⟨c, .refl c, hp⟩
        · exact ⟨a, .step hparent ha, hp⟩
      · rintro ⟨a, ha, hp⟩
        rcases ha.cases_of_parent hparent with rfl | ha
        · exact .inl hp
        · exact .inr ⟨a, ha, hp⟩

end TyLang.Forest
