import Mathlib

/-!
Depth-first search for a value. Nodes have steps to further nodes, with a key for each step.
A search that takes a node before those above it, and its steps by their keys, finds the value
at the end of the first path, where paths are compared as lists of keys.
-/
namespace TyLang.DepthFirst
open List Function

variable {N S K D : Type} [LinearOrder K]

def search (children : N → List (S × N)) (value : N → Option D) : Nat → N → Option D
  | 0, _ => none
  | fuel + 1, c => (value c).or ((children c).findSome? fun e => search children value fuel e.2)

/-- The value at the end of a path. -/
def along (up : N → S → Option N) (value : N → Option D) : N → List S → Option D
  | c, [] => value c
  | c, s :: path => (up c s).bind (along up value · path)

/-- The value of the first path that has one. -/
def IsFirst (key : S → K) (f : List S → Option D) (d : D) : Prop :=
  ∃ path, f path = some d ∧ ∀ path', (f path').isSome → ¬ path'.map key < path.map key

lemma IsFirst.unique {key : S → K} (hkey : Injective key) {f : List S → Option D} {d d' : D}
    (h : IsFirst key f d) (h' : IsFirst key f d') : d = d' := by
  obtain ⟨path, hpath, hfirst⟩ := h
  obtain ⟨path', hpath', hfirst'⟩ := h'
  have hle := hfirst path' (by rw [hpath', Option.isSome_some])
  have hge := hfirst' path (by rw [hpath, Option.isSome_some])
  have hsame : path = path' := hkey.list_map (le_antisymm (not_lt.mp hle) (not_lt.mp hge))
  rw [hsame, hpath', Option.some_inj] at hpath
  exact hpath.symm

variable {children : N → List (S × N)} {up : N → S → Option N} {value : N → Option D}
  {key : S → K} {rank : N → Nat}
  (hup : ∀ c s e, (s, e) ∈ children c ↔ up c s = some e)
  (hsorted : ∀ c, (children c).Pairwise fun a b => key a.1 < key b.1)
  (hkey : Injective key) (hrank : ∀ c s e, up c s = some e → rank e < rank c)
include hup hrank

lemma along_eq_none {fuel : Nat} {c : N} (hfuel : rank c < fuel)
    (h : search children value fuel c = none) (path : List S) : along up value c path = none := by
  induction fuel generalizing c path with
  | zero => omega
  | succ fuel ih =>
    rw [search, Option.or_eq_none_iff, findSome?_eq_none_iff] at h
    cases path with
    | nil => exact h.1
    | cons s path =>
      rw [along]
      cases hs : up c s with
      | none => rfl
      | some e =>
        have hlt : rank e < fuel := Nat.lt_of_lt_of_le (hrank c s e hs) (Nat.le_of_lt_succ hfuel)
        exact ih hlt (h.2 (s, e) ((hup c s e).mpr hs)) path

include hsorted hkey

lemma isFirst_of_search {fuel : Nat} {c : N} {d : D} (hfuel : rank c < fuel)
    (h : search children value fuel c = some d) : IsFirst key (along up value c) d := by
  induction fuel generalizing c with
  | zero => omega
  | succ fuel ih =>
    rw [search, Option.or_eq_some_iff] at h
    rcases h with h | ⟨hnone, h⟩
    · exact ⟨[], h, fun path' _ => not_lt_nil _⟩
    obtain ⟨before, ⟨s, e⟩, after, hsplit, hfound, hbefore⟩ := findSome?_eq_some_iff.mp h
    have hs : up c s = some e := (hup c s e).mp (by simp [hsplit])
    have hlow : ∀ {s e}, up c s = some e → rank e < fuel := fun hs =>
      Nat.lt_of_lt_of_le (hrank c _ _ hs) (Nat.le_of_lt_succ hfuel)
    obtain ⟨path, hpath, hfirst⟩ := ih (hlow hs) hfound
    refine ⟨s :: path, by rw [along, hs, Option.bind_some, hpath], fun path' hpath' hless => ?_⟩
    cases path' with
    | nil =>
      rw [along, hnone] at hpath'
      cases hpath'
    | cons s' path' =>
      obtain ⟨d', hd'⟩ := Option.isSome_iff_exists.mp hpath'
      obtain ⟨e', hs', hd'⟩ := Option.bind_eq_some_iff.mp hd'
      rcases cons_lt_cons_iff.mp hless with hlt | ⟨heq, hless'⟩
      · -- a lower step comes before, and finds nothing
        have hmem := (hup c s' e').mpr hs'
        have hpair := hsorted c
        rw [hsplit] at hmem hpair
        have hsooner : (s', e') ∈ before := by
          rcases mem_append.mp hmem with hmem | hmem
          · exact hmem
          rcases mem_cons.mp hmem with heq | hmem
          · cases heq
            exact absurd hlt (lt_irrefl _)
          · have hlater := (pairwise_cons.mp (pairwise_append.mp hpair).2.1).1 _ hmem
            exact absurd (hlt.trans hlater) (lt_irrefl _)
        rw [along_eq_none hup hrank (hlow hs') (hbefore _ hsooner) path'] at hd'
        cases hd'
      · cases hkey heq
        cases hs.symm.trans hs'
        exact hfirst path' (by rw [hd', Option.isSome_some]) hless'

theorem search_eq_some_iff {fuel : Nat} {c : N} {d : D} (hfuel : rank c < fuel) :
    search children value fuel c = some d ↔ IsFirst key (along up value c) d := by
  refine ⟨isFirst_of_search hup hsorted hkey hrank hfuel, fun h => ?_⟩
  cases hfound : search children value fuel c with
  | none =>
    obtain ⟨path, hpath, -⟩ := h
    rw [along_eq_none hup hrank hfuel hfound path] at hpath
    cases hpath
  | some d' =>
    rw [(isFirst_of_search hup hsorted hkey hrank hfuel hfound).unique hkey h]

end TyLang.DepthFirst
