import TyLang.Dict.Merge

/-!
Dicts as sets of keys: `intersect`, `&`, `subtract`, `diff` and the comparison of the key sets. The
first and the third delete from the table that they walk along or probe, which may be that of
their argument.
-/
namespace TyLang.Dict
open List OrderedMap Option

variable {K V : Type} [Inhabited V] [BEq K] [Hashable K]

/-- `dict_intersect_copy`; the copy is never the argument. -/
def dictIntersectCopy (d u : Dict K V) : Option (Dict K V) :=
  (dictClone d).bind fun copy => dictIntersect copy (some u) none

def copyUniqueStep (d u diff : Dict K V) (i : Nat) : Option (Dict K V) := do
  let it := itemAt d.items i
  match it.k with
  | .key k =>
    let j ← findSpot u.size u.items it.h k
    if occupied u j then return diff
    match ← findSpot diff.size diff.items it.h k with
    | .noSuchSpot => none
    | .slot n =>
      let (diff, _) ← put diff n it.h k it.v
      return diff
  | _ => return diff

def copyUnique (diff d u : Dict K V) : Option (Dict K V) :=
  (List.range d.size).foldlM (copyUniqueStep d u) (ensureInit diff)

def dictDiff (d u : Dict K V) : Option (Dict K V) := do
  let diff ← copyUnique dictNew d u
  copyUnique diff u d

def sameKeysLoop (d u : Dict K V) : List Nat → Option Bool
  | [] => some true
  | i :: slots =>
    match (itemAt d.items i).k with
    | .key k => do
      let j ← findSpot u.size u.items (itemAt d.items i).h k
      if occupied u j then sameKeysLoop d u slots else return false
    | _ => sameKeysLoop d u slots

def dictSameKeys (d u : Dict K V) : Option Bool :=
  if d.count ≠ u.count then some false else sameKeysLoop d u (List.range d.size)

variable {d u diff : Dict K V} {order order' : List Nat} {m : List (K × V)} {i n : Nat} {k : K}

def isIn (u : Dict K V) (k : K) : Bool := decide (Has (contents u) k)

section Found

variable [LawfulHashable K]

/-- A search by an item of one dict in the table of another. -/
lemma Inv.findSpot_item (hu : Inv u order') (hd : Inv d order)
    (hk : (itemAt d.items i).k = .key k) :
    ∃ s, findSpot u.size u.items (itemAt d.items i).h k = some s ∧ occupied u s = isIn u k ∧
      ∀ j, s = .slot j → isIn u k → Matches u (hash k) k j := by
  rw [hd.hashed i k hk, isIn, hu.contents_eq]
  rcases hu.spotOf_cases k with ⟨j, hspot, hocc, hm⟩ | ⟨s, hspot, hocc, absent⟩
  · refine ⟨.slot j, hspot, ?_, ?_⟩
    · rw [hocc, decide_eq_true (hu.has_iff.mpr ⟨j, hm⟩)]
    · rintro _ ⟨⟩ -
      exact hm
  · have hnot := hu.not_has absent
    refine ⟨s, hspot, by rw [hocc, decide_eq_false hnot], ?_⟩
    exact fun _ _ h => absurd (of_decide_eq_true h) hnot

omit [LawfulHashable K] in
lemma Inv.keepMut_refines (hd : Inv d order) (f : K → V → Bool) :
    Refines (dictKeepMut d f) ((contents d).filter fun e => f e.1 e.2) := by
  obtain ⟨order', hinv, hentries⟩ := hd.dictKeepMut_spec f
  exact ⟨order', hinv, by rw [hentries, hd.contents_eq]⟩

omit [LawfulHashable K] in
lemma Inv.keepStep_inv (hd : Inv d order) (f : K → V → Bool) (i : Nat) :
    ∃ order', Inv (keepStep f d i) order' := ⟨_, (hd.keepStep_spec f i).1⟩

/-! ### Intersection -/

/-- A deleted slot is looked at again, and then it is a tombstone. -/
lemma intersectLoop_eq (hu : Inv u order') (n : Nat) :
    ∀ {d : Dict K V} {order : List Nat} {i fuel : Nat}, Inv d order → i + n = d.size →
      2 * n < fuel → intersectLoop (some u) none fuel d i =
        some ((List.range' i n).foldl (keepStep fun k _ => isIn u k) d) := by
  induction n with
  | zero =>
    intro d order i fuel hd hi hfuel
    obtain ⟨fuel, rfl⟩ := Nat.exists_eq_add_of_lt hfuel
    rw [intersectLoop, if_neg (by omega)]
    rfl
  | succ n ih =>
    intro d order i fuel hd hi hfuel
    obtain ⟨fuel, rfl⟩ : ∃ m, fuel = m + 2 := ⟨fuel - 2, by omega⟩
    have hinv := hd.keepStep_inv (fun k _ => isIn u k) i
    have hsize := (keepStep_fields (fun k _ => isIn u k) d i).2
    rw [range'_succ, foldl_cons, intersectLoop, if_pos (by omega)]
    cases hk : (itemAt d.items i).k with
    | empty | tomb =>
      have hstep : keepStep (fun k _ => isIn u k) d i = d := by simp only [keepStep, hk]
      rw [hstep]
      exact ih hd (by omega) (by omega)
    | key k =>
      obtain ⟨s, hspot, hocc, -⟩ := hu.findSpot_item hd hk
      simp only [getD_some, hspot, hocc]
      cases hin : isIn u k with
      | true =>
        have hstep : keepStep (fun k _ => isIn u k) d i = d := by
          simp only [keepStep, hk, hin, if_true]
        rw [hstep]
        cases s with
        | noSuchSpot => rw [hin] at hocc; cases hocc
        | slot j => exact ih hd (by omega) (by omega)
      | false =>
        have hstep : keepStep (fun k _ => isIn u k) d i = delete d i := by
          simp [keepStep, hk, hin]
        have htomb : (itemAt (delete d i).items i).k = .tomb := by
          rw [hd.itemAt_delete ((hd.mem i).mpr (occ_of_key hk)), if_pos rfl]
          rfl
        obtain ⟨order'', hinv⟩ := hinv
        rw [hstep] at hinv hsize ⊢
        show intersectLoop (some u) none (fuel + 1) (delete d i) i = _
        rw [intersectLoop, if_pos (by omega), htomb]
        exact ih hinv (by omega) (by omega)

lemma Inv.dictIntersect_refines (hd : Inv d order) (hu : Inv u order') :
    ∃ d', dictIntersect d (some u) none = some d' ∧
      Refines d' ((contents d).filter fun e => isIn u e.1) := by
  refine ⟨_, ?_, hd.keepMut_refines fun k _ => isIn u k⟩
  rw [dictIntersect, intersectLoop_eq hu d.size hd (Nat.zero_add _) (by omega), dictKeepMut,
    range_eq_range']

omit [LawfulHashable K] in
lemma Inv.isIn_self [EquivBEq K] (hd : Inv d order) (hk : (itemAt d.items i).k = .key k) :
    isIn d k := by
  rw [isIn, hd.contents_eq]
  exact decide_eq_true ⟨(k, val d i), hd.mem_entries.mpr ⟨i, hk, rfl⟩, BEq.rfl⟩

/-- Every key of a dict is found in it, so nothing is deleted. -/
lemma intersectLoop_self [EquivBEq K] (hd : Inv d order) (n : Nat) :
    ∀ {i fuel : Nat}, i + n = d.size → n < fuel → intersectLoop none none fuel d i = some d := by
  induction n with
  | zero =>
    intro i fuel hi hfuel
    obtain ⟨fuel, rfl⟩ := Nat.exists_eq_add_of_lt hfuel
    rw [intersectLoop, if_neg (by omega)]
  | succ n ih =>
    intro i fuel hi hfuel
    obtain _ | fuel := fuel
    · omega
    rw [intersectLoop, if_pos (by omega)]
    cases hk : (itemAt d.items i).k with
    | empty | tomb => exact ih (by omega) (by omega)
    | key k =>
      obtain ⟨s, hspot, hocc, -⟩ := hd.findSpot_item hd hk
      rw [hd.isIn_self hk] at hocc
      simp only [getD_none, hspot, hocc]
      cases s with
      | noSuchSpot => cases hocc
      | slot j => exact ih (by omega) (by omega)

/-! ### Subtraction -/

section Subtract
variable [EquivBEq K]

/-- In the dict itself the search for an item finds its own slot. -/
lemma subtractLoop_self (n : Nat) : ∀ {d : Dict K V} {order : List Nat} {i : Nat}, Inv d order →
    i + n = d.size → subtractLoop none (n + 1) d i =
      some ((List.range' i n).foldl (keepStep fun _ _ => false) d) := by
  induction n with
  | zero =>
    intro d order i hd hi
    rw [subtractLoop]
    simp only [getD_none]
    rw [if_neg (by omega)]
    rfl
  | succ n ih =>
    intro d order i hd hi
    rw [range'_succ, foldl_cons, subtractLoop]
    simp only [getD_none]
    rw [if_pos (by omega)]
    cases hk : (itemAt d.items i).k with
    | empty | tomb =>
      have hstep : keepStep (fun _ _ => false) d i = d := by simp only [keepStep, hk]
      rw [hstep]
      exact ih hd (by omega)
    | key k =>
      have hin := hd.isIn_self hk
      obtain ⟨s, hspot, hocc, hm⟩ := hd.findSpot_item hd hk
      rw [hin] at hocc
      simp only [hspot, hocc]
      cases s with
      | noSuchSpot => cases hocc
      | slot j =>
        have heq : j = i := hd.matches_unique (hm j rfl hin) (hd.matches_iff.mpr ⟨k, hk, BEq.rfl⟩)
        have hstep : keepStep (fun _ _ => false) d i = delete d i := by simp [keepStep, hk]
        obtain ⟨l, r, -, hdel⟩ := hd.delete_occ_slot (occ_of_key hk)
        subst heq
        rw [hstep]
        exact ih hdel (by rw [delete_size]; omega)

lemma Inv.subtract_self (hd : Inv d order) :
    ∃ d', dictSubtract d none = some d' ∧ Refines d' ([] : List (K × V)) := by
  have hkeep := hd.keepMut_refines fun _ _ => false
  rw [filter_false] at hkeep
  refine ⟨_, ?_, hkeep⟩
  rw [dictSubtract, getD_none, subtractLoop_self d.size hd (Nat.zero_add _), dictKeepMut,
    range_eq_range']

/-- Each round is a removal of a key of the argument. -/
lemma subtractLoop_refines (hu : Inv u order') (n : Nat) :
    ∀ {d : Dict K V} {m : List (K × V)} {i : Nat}, Refines d m → i + n = u.size →
      ∃ d', subtractLoop (some u) (n + 1) d i = some d' ∧
        Refines d' (newEntries (entries u (List.range' i n)) m) := by
  induction n with
  | zero =>
    intro d m i hd hi
    refine ⟨d, ?_, ?_⟩
    · rw [subtractLoop]
      simp only [getD_some]
      rw [if_neg (by omega)]
    · rwa [range'_zero, entries, filterMap_nil, newEntries_nil]
  | succ n ih =>
    intro d m i hd hi
    rw [entries_range', subtractLoop]
    simp only [getD_some]
    rw [if_pos (by omega)]
    cases hk : (itemAt u.items i).k with
    | empty | tomb =>
      have hentry : entry u i = none := by rw [entry, hk]
      rw [hentry]
      exact ih hd (by omega)
    | key k =>
      obtain ⟨order, hinv, rfl⟩ := hd
      obtain ⟨d', v, hrun, href, -⟩ := hinv.refines_remove k
      obtain ⟨d'', hrest, hresult⟩ := ih href (show i + 1 + n = u.size by omega)
      refine ⟨d'', ?_, ?_⟩
      · have hcases := hinv.spotOf_cases k
        rw [dictRemove, spotOf] at hrun
        rw [spotOf] at hcases
        rw [hu.hashed i k hk]
        rcases hcases with ⟨j, hspot, hocc, -⟩ | ⟨s, hspot, hocc, -⟩
        · simp only [hspot, hocc, bind_eq_bind, bind_some, if_true] at hrun ⊢
          cases hrun
          exact hrest
        · simp only [hspot, hocc] at hrun ⊢
          cases s <;>
          · simp only [bind_eq_bind, bind_some, hocc] at hrun
            cases hrun
            exact hrest
      · rwa [entry_of_key hk, toList_some, singleton_append, newEntries_cons]

section
variable (hd : Inv d order) (hu : Inv u order')
include hd hu

lemma Inv.dictSubtract_refines :
    ∃ d', dictSubtract d (some u) = some d' ∧
      Refines d' (newEntries (contents u) (contents d)) := by
  obtain ⟨d', hrun, href⟩ := subtractLoop_refines hu u.size hd.refines (Nat.zero_add _)
  rw [← range_eq_range', ← slotEntries, newEntries_perm hu.slotEntries_perm] at href
  exact ⟨d', hrun, href⟩

/-! ### Differences -/

lemma Inv.dictIntersectCopy_refines :
    ∃ d', dictIntersectCopy d u = some d' ∧
      Refines d' ((contents d).filter fun e => isIn u e.1) := by
  obtain ⟨copy, hclone, href⟩ := hd.dictClone_refines
  obtain ⟨order'', hinv, -⟩ := id href
  obtain ⟨d', hrun, hresult⟩ := hinv.dictIntersect_refines hu
  rw [href.contents_eq] at hresult
  exact ⟨d', by rw [dictIntersectCopy, hclone, bind_some, hrun], hresult⟩

omit [EquivBEq K] in
/-- The key is looked for in the difference only to find its place there. -/
lemma copyUniqueStep_eq {odiff : List Nat}
    (hdiff : Inv diff odiff) (hpos : 0 < diff.size) (hk : (itemAt d.items i).k = .key k)
    (hnew : isIn u k = false → isIn diff k = false) :
    copyUniqueStep d u diff i =
      if isIn u k then some diff else dictPutValue diff k (val d i) := by
  obtain ⟨s, hspot, hocc, -⟩ := hu.findSpot_item hd hk
  have hinit : ensureInit diff = diff := if_neg (by omega)
  simp only [copyUniqueStep, hk, hspot, hocc, bind_eq_bind, bind_some]
  cases hin : isIn u k with
  | true => rfl
  | false =>
    obtain ⟨s', hspot', hocc', -⟩ := hdiff.findSpot_item hd hk
    rw [hnew hin] at hocc'
    have hhash := hd.hashed i k hk
    rw [hhash] at hspot' ⊢
    simp only [dictPutValue, hinit, spotOf, hspot', bind_eq_bind, bind_some]
    cases s' with
    | noSuchSpot => rfl
    | slot j =>
      simp only [hocc']
      rfl

/-- The round over slots whose keys the difference does not have yet. -/
lemma copyUnique_run (slots : List Nat) :
    ∀ {diff : Dict K V} {m : List (K × V)}, Refines diff m → 0 < diff.size →
      Distinct (entries d slots) → (∀ e ∈ newEntries (contents u) (entries d slots), ¬ Has m e.1) →
      ∃ diff', slots.foldlM (copyUniqueStep d u) diff = some diff' ∧ 0 < diff'.size ∧
        Refines diff' (m ++ newEntries (contents u) (entries d slots)) := by
  induction slots with
  | nil =>
    intro diff m hdiff hpos _ _
    exact ⟨diff, rfl, hpos, by rwa [entries, filterMap_nil, newEntries, filter_nil, append_nil]⟩
  | cons i slots ih =>
    intro diff m hdiff hpos hdistinct hnew
    rw [foldlM_cons]
    cases hk : (itemAt d.items i).k with
    | empty | tomb =>
      have hentries : entries d (i :: slots) = entries d slots := by
        rw [entries, filterMap_cons_none (by rw [entry, hk]), entries]
      have hstep : copyUniqueStep d u diff i = some diff := by simp [copyUniqueStep, hk]
      rw [hentries] at hdistinct hnew ⊢
      rw [hstep]
      exact ih hdiff hpos hdistinct hnew
    | key k =>
      have hentries : entries d (i :: slots) = (k, val d i) :: entries d slots := by
        rw [entries, filterMap_cons_some (entry_of_key hk), entries]
      rw [hentries] at hdistinct hnew ⊢
      obtain ⟨hfirst, hrest⟩ := pairwise_cons.mp hdistinct
      obtain ⟨odiff, hinv, rfl⟩ := hdiff
      have habsent : isIn u k = false → ¬ Has (entries diff odiff) k := fun hin =>
        hnew (k, val d i) (mem_filter.mpr ⟨.head _, decide_eq_true (of_decide_eq_false hin)⟩)
      rw [copyUniqueStep_eq hd hu hinv hpos hk fun hin => by
        rw [isIn, hinv.contents_eq]
        exact decide_eq_false (habsent hin)]
      cases hin : isIn u k with
      | true =>
        have hskip : newEntries (contents u) ((k, val d i) :: entries d slots) =
            newEntries (contents u) (entries d slots) :=
          filter_cons_of_neg (by simpa using of_decide_eq_true hin)
        rw [hskip] at hnew ⊢
        exact ih ⟨odiff, hinv, rfl⟩ hpos hrest hnew
      | false =>
        have hcons : newEntries (contents u) ((k, val d i) :: entries d slots) =
            (k, val d i) :: newEntries (contents u) (entries d slots) :=
          filter_cons_of_pos (by simpa using of_decide_eq_false hin)
        obtain ⟨e, hput, hstored, -⟩ := hinv.dictPutValue_spec k (val d i)
        have href := hstored.refines hinv
        rw [OrderedMap.put, if_neg (habsent hin)] at href
        obtain ⟨diff', hrun, hpos', hresult⟩ := ih href hstored.size_pos hrest fun a ha h => by
          obtain ⟨b, hb, hba⟩ := h
          rcases mem_append.mp hb with hold | hlast
          · exact hnew a (hcons ▸ .tail _ ha) ⟨b, hold, hba⟩
          · cases mem_singleton.mp hlast
            rw [hfirst a (mem_of_mem_filter ha)] at hba
            cases hba
        refine ⟨diff', ?_, hpos', ?_⟩
        · rwa [if_neg (by decide), hput]
        · rwa [hcons, ← singleton_append, ← append_assoc]

lemma Inv.copyUnique_refines (hdiff : Refines diff m)
    (hnew : ∀ e ∈ newEntries (contents u) (contents d), ¬ Has m e.1) :
    ∃ diff', copyUnique diff d u = some diff' ∧
      Refines diff' (m ++ newEntries (contents u) (slotEntries d)) := by
  obtain ⟨odiff, hinv, rfl⟩ := hdiff
  have hinit : Refines (ensureInit diff) (entries diff odiff) :=
    ⟨odiff, hinv.initialised, hinv.entries_ensureInit⟩
  have hdistinct := (distinct_perm hd.slotEntries_perm).mpr hd.distinct_contents
  obtain ⟨diff', hrun, -, href⟩ := copyUnique_run hd hu (range d.size) hinit (ensureInit_pos diff)
    hdistinct fun e he => hnew e ((hd.slotEntries_perm.filter _).mem_iff.mp he)
  exact ⟨diff', hrun, href⟩

lemma Inv.dictDiff_refines :
    ∃ diff, dictDiff d u = some diff ∧
      Refines diff (newEntries (contents u) (slotEntries d) ++
        newEntries (contents d) (slotEntries u)) := by
  have hempty : Refines dictNew ([] : List (K × V)) := refines_new none
  obtain ⟨diff, hfirst, href⟩ := hd.copyUnique_refines hu hempty fun _ _ h => by
    obtain ⟨_, h, -⟩ := h
    cases h
  rw [nil_append] at href
  obtain ⟨diff', hsecond, href'⟩ := hu.copyUnique_refines hd href fun e he h => by
    obtain ⟨a, ha, hae⟩ := h
    have hin := hd.slotEntries_perm.mem_iff.mp (mem_of_mem_filter ha)
    exact of_decide_eq_true (mem_filter.mp he).2 ⟨a, hin, hae⟩
  exact ⟨diff', by rwa [dictDiff, hfirst], href'⟩

/-! ### The key sets -/

omit [EquivBEq K] in
lemma sameKeysLoop_eq (slots : List Nat) :
    sameKeysLoop d u slots = some (decide (∀ e ∈ entries d slots, Has (contents u) e.1)) := by
  induction slots with
  | nil => rfl
  | cons i slots ih =>
    rw [sameKeysLoop]
    cases hk : (itemAt d.items i).k with
    | empty | tomb =>
      have hentries : entries d (i :: slots) = entries d slots := by
        rw [entries, filterMap_cons_none (by rw [entry, hk]), entries]
      rwa [hentries]
    | key k =>
      have hentries : entries d (i :: slots) = (k, val d i) :: entries d slots := by
        rw [entries, filterMap_cons_some (entry_of_key hk), entries]
      obtain ⟨s, hspot, hocc, -⟩ := hu.findSpot_item hd hk
      simp only [hentries, hspot, hocc, bind_eq_bind, bind_some, ih, forall_mem_cons]
      cases hin : isIn u k with
      | true => simp [of_decide_eq_true hin]
      | false => simp [of_decide_eq_false hin]

end

omit [LawfulHashable K] [EquivBEq K] in
lemma Inv.count_contents (hd : Inv d order) : d.count = (contents d).length := by
  rw [hd.contents_eq, length_entries fun i => (hd.mem i).mp, hd.count]

/-- Keys of the first dict are in the second; the counters tell that there are no others. -/
lemma Inv.dictSameKeys_iff (hd : Inv d order) (hu : Inv u order') :
    ∃ same, dictSameKeys d u = some same ∧
      (same ↔ ∀ k, Has (contents d) k ↔ Has (contents u) k) := by
  have hhas : ∀ m : List (K × V), ∀ e ∈ m, Has m e.1 := fun _ e he => ⟨e, he, BEq.rfl⟩
  have hdu := hd.distinct_contents.keys_subset hu.distinct_contents
  have hud := hu.distinct_contents.keys_subset hd.distinct_contents
  rw [dictSameKeys, hd.count_contents, hu.count_contents]
  by_cases hcount : (contents d).length = (contents u).length
  · refine ⟨_, by rw [if_neg (by simpa using hcount)]; exact sameKeysLoop_eq hd hu _, ?_⟩
    rw [decide_eq_true_eq]
    constructor
    · intro hall k
      have hsub : ∀ e ∈ contents d, Has (contents u) e.1 := fun e he =>
        hall e (hd.slotEntries_perm.mem_iff.mpr he)
      have hback := (hdu hsub).2 (Nat.le_of_eq hcount.symm)
      exact ⟨has_trans hsub, has_trans hback⟩
    · intro hsame e he
      exact (hsame e.1).mp (hhas _ e (hd.slotEntries_perm.mem_iff.mp he))
  · refine ⟨false, if_pos hcount, ?_⟩
    simp only [Bool.false_eq_true, false_iff]
    intro hsame
    have hle := (hdu fun e he => (hsame e.1).mp (hhas _ e he)).1
    have hge := (hud fun e he => (hsame e.1).mpr (hhas _ e he)).1
    omega

/-- The dict holds `m`, and its table has room for the probes to end. -/
structure Holds (d : Dict K V) (m : List (K × V)) : Prop where
  represents : Represents d m
  room : 0 < d.size → ∃ i, i < d.size ∧ (itemAt d.items i).k = .empty

lemma Refines.holds (h : Refines d m) : Holds d m := by
  refine ⟨h.represents, fun hpos => ?_⟩
  obtain ⟨order, hinv, -⟩ := h
  obtain ⟨e, he, hempty⟩ := hinv.exists_empty hpos
  refine ⟨e, he, ?_⟩
  unfold NonEmpty at hempty
  cases hk : (itemAt d.items e).k with
  | empty => rfl
  | tomb | key _ => rw [hk] at hempty; exact absurd rfl hempty

theorem set_operations (hd : Reachable d) (hu : Reachable u) :
    (∃ d', dictIntersect d (some u) none = some d' ∧
        Holds d' ((contents d).filter fun e => Has (contents u) e.1)) ∧
      (∃ d', dictIntersect d none none = some d' ∧ Holds d' (contents d)) ∧
      (∃ d', dictIntersectCopy d u = some d' ∧
        Holds d' ((contents d).filter fun e => Has (contents u) e.1)) ∧
      (∃ d', dictSubtract d (some u) = some d' ∧ Holds d' (newEntries (contents u) (contents d))) ∧
      (∃ d', dictSubtract d none = some d' ∧ Holds d' []) ∧
      (∃ diff m, dictDiff d u = some diff ∧ Holds diff m ∧
        m.Perm (newEntries (contents u) (contents d) ++ newEntries (contents d) (contents u))) ∧
      ∃ same, dictSameKeys d u = some same ∧
        (same ↔ ∀ k, Has (contents d) k ↔ Has (contents u) k) := by
  obtain ⟨order, hd⟩ := hd.inv
  obtain ⟨order', hu⟩ := hu.inv
  have hself : dictIntersect d none none = some d :=
    intersectLoop_self hd d.size (Nat.zero_add _) (by omega)
  refine ⟨?_, ⟨d, hself, hd.refines.holds⟩, ?_, ?_, ?_, ?_, hd.dictSameKeys_iff hu⟩
  · obtain ⟨d', hrun, href⟩ := hd.dictIntersect_refines hu
    exact ⟨d', hrun, href.holds⟩
  · obtain ⟨d', hrun, href⟩ := hd.dictIntersectCopy_refines hu
    exact ⟨d', hrun, href.holds⟩
  · obtain ⟨d', hrun, href⟩ := hd.dictSubtract_refines hu
    exact ⟨d', hrun, href.holds⟩
  · obtain ⟨d', hrun, href⟩ := hd.subtract_self
    exact ⟨d', hrun, href.holds⟩
  · obtain ⟨diff, hrun, href⟩ := hd.dictDiff_refines hu
    exact ⟨diff, _, hrun, href.holds,
      (hd.slotEntries_perm.filter _).append (hu.slotEntries_perm.filter _)⟩

theorem set_operations_two :
    ∃ d u diff : Dict Nat Nat, Reachable d ∧ Reachable u ∧ contents d = [(1, 10), (2, 20)] ∧
      contents u = [(2, 21), (3, 30)] ∧ dictDiff d u = some diff ∧
      contents diff = [(1, 10), (3, 30)] ∧
      ∃ d', dictIntersect d (some u) none = some d' ∧ Holds d' [(2, 20)] := by
  have hd : Reachable _ := .put (k := 2) (v := 20) (.put (k := 1) (v := 10) .new rfl) rfl
  have hu : Reachable _ := .put (k := 3) (v := 30) (.put (k := 2) (v := 21) .new rfl) rfl
  exact ⟨_, _, _, hd, hu, rfl, rfl, rfl, rfl, (set_operations hd hu).1⟩

end Subtract

end Found

end TyLang.Dict
