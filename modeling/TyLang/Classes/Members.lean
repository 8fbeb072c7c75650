import TyLang.Classes.Resolve
import TyLang.Lib.DepthFirst

/-!
Where the search for a definition and the merged tables agree. Both take the first of the
paths that lead up from a class to one that has the member. The search orders them with the
traits before the super class and looks at the definitions; for the tables the super class
comes before the traits, and what counts is what each class's own table holds.
-/
namespace TyLang.Classes
open Option DepthFirst

open Itable (Value)

variable {D : Type} {h : Hierarchy D} {k : Kind} {c : Nat} {m : List Char}

/-! ### Paths -/

/-- A step up from a class, to its super class or to one of its traits. -/
inductive Step where
  | super
  | trait (i : Nat)
  deriving DecidableEq, Repr

def Hierarchy.up (h : Hierarchy D) (c : Nat) : Step → Option Nat
  | .super => h.super c
  | .trait i => (h.traits c)[i]?

def traitsFirst : Step → WithTop Nat
  | .super => ⊤
  | .trait i => (i : WithTop Nat)

def superFirst : Step → WithTop Nat
  | .super => ((0 : Nat) : WithTop Nat)
  | .trait i => ((i + 1 : Nat) : WithTop Nat)

section
variable (h : Hierarchy D) (k : Kind) (m : List Char)

/-- The definition of a member at the end of a path through classes with `c->def != NULL`. -/
def definitionAlong : Nat → List Step → Option D :=
  along (fun c s => if h.isDefined c then h.up c s else none)
    fun c => if h.isDefined c then findMethodImmediate h (h.members k c) m else none

/-- What the own table of the class at the end of a path holds. -/
def ownAlong : Nat → List Step → Option D := along h.up fun c => h.own k c m

end

/-- For every class and name, the first path to a definition, with the traits before the super
class, and the first path to an entry of a class's own table, with the super class before the
traits, lead to the same definition, or there are none. -/
def Fits (h : Hierarchy D) (k : Kind) : Prop :=
  ∀ c m d, IsFirst traitsFirst (definitionAlong h k m c) d ↔
    IsFirst superFirst (ownAlong h k m c) d

lemma traitsFirst_injective : Function.Injective traitsFirst := by
  intro s s' heq
  cases s <;> cases s' <;> simp_all [traitsFirst]

lemma superFirst_injective : Function.Injective superFirst := by
  intro s s' heq
  cases s <;> cases s' <;> simp only [superFirst, Nat.cast_inj] at heq <;> simp_all

section
variable (h : Hierarchy D)

def superStep (c : Nat) : List (Step × Nat) := (h.super c).toList.map (.super, ·)

def traitSteps (c : Nat) : List (Step × Nat) :=
  (h.traits c).zipIdx.map fun e => (.trait e.2, e.1)

lemma findSome?_superStep {E : Type} (f : Nat → Option E) (c : Nat) :
    (superStep h c).findSome? (fun e => f e.2) = (h.super c).toList.findSome? f :=
  List.findSome?_map

lemma findSome?_traitSteps {E : Type} (f : Nat → Option E) (c : Nat) :
    (traitSteps h c).findSome? (fun e => f e.2) = (h.traits c).findSome? f := by
  have hfst : (h.traits c).zipIdx.map Prod.fst = h.traits c := List.zipIdx_map_fst 0 _
  conv_rhs => rw [← hfst]
  rw [traitSteps, List.findSome?_map, List.findSome?_map]
  rfl

lemma mem_steps_iff (c : Nat) (s : Step) (e : Nat) :
    (s, e) ∈ superStep h c ∨ (s, e) ∈ traitSteps h c ↔ h.up c s = some e := by
  cases s with
  | super => simp [superStep, traitSteps, Hierarchy.up, eq_comm]
  | trait i => simp [superStep, traitSteps, Hierarchy.up, List.mk_mem_zipIdx_iff_getElem?]

lemma traitSteps_pairwise {key : Step → WithTop Nat}
    (hkey : ∀ i j, i < j → key (.trait i) < key (.trait j)) (c : Nat) :
    (traitSteps h c).Pairwise fun a b => key a.1 < key b.1 := by
  have hplaces : ((h.traits c).zipIdx.map Prod.snd).Pairwise (· < ·) := by
    rw [List.zipIdx_map_snd]
    exact List.pairwise_lt_range'
  rw [traitSteps, List.pairwise_map]
  exact (List.pairwise_map.mp hplaces).imp fun hlt => hkey _ _ hlt

lemma superStep_pairwise (R : Step × Nat → Step × Nat → Prop) (c : Nat) :
    (superStep h c).Pairwise R := by
  rw [superStep]
  cases h.super c with
  | none => exact .nil
  | some d => exact List.pairwise_singleton R _

lemma eq_super_of_mem {c : Nat} {e : Step × Nat} (he : e ∈ superStep h c) : e.1 = .super := by
  obtain ⟨d, -, rfl⟩ := List.mem_map.mp he
  rfl

lemma eq_trait_of_mem {c : Nat} {e : Step × Nat} (he : e ∈ traitSteps h c) :
    ∃ i, e.1 = .trait i := by
  obtain ⟨d, -, rfl⟩ := List.mem_map.mp he
  exact ⟨d.2, rfl⟩

lemma up_rank {c : Nat} {s : Step} {e : Nat} (hs : h.up c s = some e) : h.rank e < h.rank c := by
  cases s with
  | super => exact h.super_rank c e hs
  | trait i => exact h.traits_rank c e (List.mem_of_getElem? hs)

end

/-! ### The search -/

/-- The steps in the order of the search. -/
def searchSteps (h : Hierarchy D) (c : Nat) : List (Step × Nat) :=
  if h.isDefined c then traitSteps h c ++ superStep h c else []

lemma findMember_eq_search (h : Hierarchy D) (k : Kind) (m : List Char) (fuel c : Nat) :
    findMember h k fuel c m = search (searchSteps h)
      (fun c => if h.isDefined c then findMethodImmediate h (h.members k c) m else none)
        fuel c := by
  induction fuel generalizing c with
  | zero => rfl
  | succ fuel ih =>
    rw [findMember, search, searchSteps]
    by_cases hdef : h.isDefined c
    · rw [if_pos hdef, if_pos hdef, if_pos hdef, Option.or_assoc, List.findSome?_append,
        findSome?_traitSteps h (search _ _ fuel), findSome?_superStep h (search _ _ fuel),
        funext ih]
    · rw [if_neg hdef, if_neg hdef, if_neg hdef]
      rfl

lemma find_eq_some_iff {d : D} :
    find h k c m = some d ↔ IsFirst traitsFirst (definitionAlong h k m c) d := by
  have hfind : find h k c m = findMember h k (h.rank c + 1) c m := by cases k <;> rfl
  rw [hfind, findMember_eq_search]
  refine search_eq_some_iff (fun c s e => ?_) (fun c => ?_) traitsFirst_injective
    (fun c s e hs => ?_) (Nat.lt_succ_self (h.rank c))
  · rw [searchSteps]
    by_cases hdef : h.isDefined c
    · rw [if_pos hdef, if_pos hdef, List.mem_append, or_comm, mem_steps_iff]
    · simp [hdef]
  · rw [searchSteps]
    split
    · refine List.pairwise_append.mpr ⟨traitSteps_pairwise h (fun i j hij => ?_) c,
        superStep_pairwise h _ c, fun a ha b hb => ?_⟩
      · exact WithTop.coe_lt_coe.mpr hij
      · obtain ⟨i, hi⟩ := eq_trait_of_mem h ha
        rw [hi, eq_super_of_mem h hb]
        exact WithTop.coe_lt_top i
    · exact .nil
  · split at hs
    · exact up_rank h hs
    · cases hs

/-! ### The tables -/

lemma flatten_eq_search (h : Hierarchy D) (k : Kind) (m : List Char) (fuel c : Nat) :
    flatten h k m fuel c = search (fun c => superStep h c ++ traitSteps h c)
      (fun c => h.own k c m) fuel c := by
  induction fuel generalizing c with
  | zero => rfl
  | succ fuel ih =>
    rw [flatten, search, Hierarchy.parents, List.findSome?_append, List.findSome?_append,
      findSome?_traitSteps h (search _ _ fuel), findSome?_superStep h (search _ _ fuel), funext ih]

lemma flat_eq_some_iff {d : D} :
    flat h k m c = some d ↔ IsFirst superFirst (ownAlong h k m c) d := by
  rw [flat, flatten_eq_search]
  refine search_eq_some_iff (fun c s e => ?_) (fun c => ?_) superFirst_injective
    (fun c s e hs => up_rank h hs) (Nat.lt_succ_self (h.rank c))
  · rw [List.mem_append, mem_steps_iff]
  · refine List.pairwise_append.mpr ⟨superStep_pairwise h _ c,
      traitSteps_pairwise h (fun i j hij => ?_) c, fun a ha b hb => ?_⟩
    · exact WithTop.coe_lt_coe.mpr (Nat.succ_lt_succ hij)
    · obtain ⟨i, hi⟩ := eq_trait_of_mem h hb
      rw [hi, eq_super_of_mem h ha]
      exact WithTop.coe_lt_coe.mpr (Nat.succ_pos i)

lemma fits_iff : Fits h k ↔ ∀ c m, flat h k m c = find h k c m := by
  simp only [Fits, ← find_eq_some_iff, ← flat_eq_some_iff]
  refine forall₂_congr fun c m => ⟨fun heq => ?_, fun heq d => by rw [heq]⟩
  exact Option.ext fun d => (heq d).symm

/-! ### More fuel changes nothing -/

lemma fuel_mono (h : Hierarchy D) : ∀ fuel,
    (∀ s c s', finalize h fuel s c = some s' → finalize h (fuel + 1) s c = some s') ∧
      ∀ c0 c s q s', resolveLoop h fuel c0 c s q = some s' →
        resolveLoop h (fuel + 1) c0 c s q = some s' := by
  intro fuel
  induction fuel with
  | zero =>
    constructor
    · intro s c s' hrun
      cases hrun
    · intro c0 c s q s' hrun
      cases hrun
  | succ fuel ih =>
    obtain ⟨ihf, ihl⟩ := ih
    constructor
    · intro s c s' hrun
      rw [finalize] at hrun ⊢
      by_cases hfinal : s.isFinal c
      · rw [if_pos hfinal] at hrun ⊢
        exact hrun
      rw [if_neg hfinal] at hrun ⊢
      cases hloop : resolveLoop h fuel c c s emptyQueue with
      | none =>
        rw [hloop] at hrun
        cases hrun
      | some s1 =>
        rw [hloop] at hrun
        rwa [ihl _ _ _ _ _ hloop]
    · intro c0 c s q s' hrun
      rw [resolveLoop] at hrun ⊢
      -- what the round yields does not depend on the fuel either
      have hround {s1 : Tables D}
          (h1 : (if c ≠ c0 then (finalize h fuel s c).map (copyWeak · c0 c) else some s) =
            some s1) :
          (if c ≠ c0 then (finalize h (fuel + 1) s c).map (copyWeak · c0 c) else some s) =
            some s1 := by
        split at h1
        · rename_i hne
          obtain ⟨s0, hfin, hcopy⟩ := map_eq_some_iff.mp h1
          rw [if_pos hne, ihf _ _ _ hfin]
          exact congrArg some hcopy
        · rename_i heq
          rwa [if_neg heq]
      cases hcase : (if c ≠ c0 then (finalize h fuel s c).map (copyWeak · c0 c) else some s) with
      | none =>
        rw [hcase] at hrun
        cases hrun
      | some s1 =>
        rw [hcase] at hrun
        rw [hround hcase]
        simp only at hrun ⊢
        split at hrun
        · exact hrun
        · exact ihl _ _ _ _ _ hrun

lemma finalize_mono {s s' : Tables D} {n fuel : Nat} (hrun : finalize h n s c = some s')
    (hfuel : n ≤ fuel) : finalize h fuel s c = some s' := by
  induction hfuel with
  | refl => exact hrun
  | step _ ih => exact (fuel_mono h _).1 s c s' ih

/-! ### Agreement -/

def Returns (h : Hierarchy D) (s : Tables D) (c : Nat) (s' : Tables D) : Prop :=
  ∃ n, ∀ fuel, n ≤ fuel → finalize h fuel s c = some s'

lemma Returns.unique {s s1 s2 : Tables D} (h1 : Returns h s c s1) (h2 : Returns h s c s2) :
    s1 = s2 := by
  obtain ⟨n1, hn1⟩ := h1
  obtain ⟨n2, hn2⟩ := h2
  have := (hn1 (max n1 n2) (Nat.le_max_left ..)).symm.trans
    (hn2 (max n1 n2) (Nat.le_max_right ..))
  exact some.inj this

inductive Reached (h : Hierarchy D) : Tables D → Prop where
  | start : Reached h h.tables
  | finalize {s s' : Tables D} {c : Nat} : Reached h s → Returns h s c s' → Reached h s'

lemma returns_of_tablesAt {s : Tables D} (hs : ∀ d, TablesAt h s d) (c : Nat) :
    ∃ s', Returns h s c s' ∧ (∀ d, TablesAt h s' d) ∧ s'.isFinal c := by
  obtain ⟨n, hn⟩ := finalizes h _ c rfl
  obtain ⟨s', hrun, hf⟩ := hn n .refl s fun d _ => hs d
  refine ⟨s', ⟨n, fun fuel hfuel => finalize_mono hrun hfuel⟩, fun d => ?_, hf.final⟩
  rcases Nat.lt_or_ge (h.rank c) (h.rank d) with hlt | hge
  · obtain ⟨htable, hfinal⟩ := hf.above d hlt
    intro k m
    rw [htable, hfinal]
    exact hs d k m
  · exact hf.tables d hge

lemma Reached.tablesAt {s : Tables D} (hs : Reached h s) : ∀ d, TablesAt h s d := by
  induction hs with
  | start => exact fun d k m => rfl
  | finalize _ hret ih =>
    obtain ⟨s', hret', hs', -⟩ := returns_of_tablesAt ih _
    rwa [hret.unique hret']

/-- The search and the final tables agree, on every class and name and whatever has been
finalized before, exactly if the hierarchy fits. -/
theorem find_eq_table_iff (h : Hierarchy D) (k : Kind) :
    (∀ s, Reached h s → ∀ c, ∃ s', Returns h s c s' ∧
      ∀ m, s'.table k c m = (find h k c m).map .other) ↔ Fits h k := by
  have hother {a b : Option D} (hab : a.map Value.other = b.map Value.other) : a = b :=
    map_injective (fun _ _ he => Value.other.inj he) hab
  rw [fits_iff]
  constructor
  · intro hagree c m
    obtain ⟨s', hret, htable⟩ := hagree h.tables .start c
    obtain ⟨s'', hret', hs'', hfinal⟩ := returns_of_tablesAt Reached.start.tablesAt c
    rw [← hret.unique hret'] at hs'' hfinal
    have hflat := hs'' c k m
    rw [hfinal, if_pos rfl, htable m] at hflat
    exact (hother hflat).symm
  · intro hfits s hs c
    obtain ⟨s', hret, hs', hfinal⟩ := returns_of_tablesAt hs.tablesAt c
    refine ⟨s', hret, fun m => ?_⟩
    rw [hs' c k m, hfinal, if_pos rfl, hfits c m]

/-- A class 3 with the super class 1 and the trait 2, both of which define `m`. -/
def twoParents : Hierarchy Nat where
  super c := if c = 3 then some 1 else if c = 1 ∨ c = 2 then some 0 else none
  traits c := if c = 3 then [2] else []
  isDefined c := c < 4
  members k c := if k = .methods ∧ (c = 1 ∨ c = 2) then [c] else []
  name _ := ['m']
  own k c m := if k = .methods ∧ (c = 1 ∨ c = 2) ∧ m = ['m'] then some c else none
  rank c := if c = 3 then 2 else if c = 0 then 0 else 1
  super_rank := by
    intro c d hcd
    split at hcd
    · cases hcd
      simp [*]
    · split at hcd
      · cases hcd
        rename_i hne hc
        rcases hc with rfl | rfl <;> decide
      · cases hcd
  traits_rank := by
    intro c d hd
    split at hd
    · rw [List.mem_singleton.mp hd]
      simp [*]
    · cases hd

/-- The search finds the method of the trait, the table holds that of the super class. -/
theorem find_ne_table :
    ∃ s', finalize twoParents 9 twoParents.tables 3 = some s' ∧
      s'.table .methods 3 ['m'] = some (.other 1) ∧ findMethod twoParents 3 ['m'] = some 2 :=
  ⟨_, rfl, by decide +kernel, by decide +kernel⟩

end TyLang.Classes
