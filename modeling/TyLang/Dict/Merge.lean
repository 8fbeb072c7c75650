import TyLang.Dict.GetOrPut
import TyLang.Lib.Merge

/-!
The ways to merge dicts: `update`, `+=`, `+` and splats in a literal. All of them end in
`DictUpdate`, which goes through the table of its argument slot by slot, and not along
the list of its items.
-/
namespace TyLang.Dict
open List OrderedMap Option

variable {K V : Type} [Inhabited V] [BEq K] [Hashable K]

/-! ### The operations -/

/-- `DictUpdate`; the argument is `none` when it is the dict itself, whose table does not grow
by keys that it has. -/
def dictUpdate (d : Dict K V) (u : Option (Dict K V)) : Option (Dict K V) :=
  updateLoop u none ((u.getD d).size + 1) d 0

/-- `DoMutAdd` on dicts. -/
def mutAdd (d : Dict K V) (u : Option (Dict K V)) : Option (Dict K V) := dictUpdate d u

def putValues : List (K × V) → Dict K V → Option (Dict K V)
  | [], d => some d
  | e :: es, d => (dictPutValue d e.1 e.2).bind (putValues es)

/-- `DictClone`, which goes along the list. -/
def dictClone (d : Dict K V) : Option (Dict K V) :=
  putValues (contents d) { dictNew with dflt := d.dflt }

/-- `op_builtin_add` on dicts. -/
def opBuiltinAdd (left right : Dict K V) : Option (Dict K V) :=
  (dictClone left).bind fun new => dictUpdate new (some right)

inductive LiteralItem (K V : Type) where
  | pair (key : K) (value : V)
  | splat (d : Dict K V)

def literalLoop : List (LiteralItem K V) → Dict K V → Option (Dict K V)
  | [], d => some d
  | .pair key value :: items, d => (dictPutValue d key value).bind (literalLoop items)
  | .splat u :: items, d => (dictUpdate d (some u)).bind (literalLoop items)

/-- `DoDictLiteral` -/
def doDictLiteral (items : List (LiteralItem K V)) (dflt : Option (K → V)) : Option (Dict K V) :=
  literalLoop items { dictNew with dflt := dflt }

/-! ### The order of the slots -/

/-- The entries in the order of their slots. -/
def slotEntries (d : Dict K V) : List (K × V) := entries d (List.range d.size)

section Slots

variable {d u : Dict K V} {m : List (K × V)} {order : List Nat}

omit [BEq K] [Hashable K] in
lemma entries_filter_occupied (d : Dict K V) (slots : List Nat) :
    entries d (slots.filter fun i => (itemAt d.items i).k.occupied) = entries d slots := by
  unfold entries
  rw [filterMap_filter]
  apply filterMap_congr
  intro i _
  rw [entry]
  cases (itemAt d.items i).k <;> rfl

lemma Inv.slotEntries_perm (hd : Inv d order) : (slotEntries d).Perm (contents d) := by
  rw [hd.contents_eq, slotEntries, ← entries_filter_occupied]
  apply Perm.filterMap
  rw [perm_ext_iff_of_nodup (nodup_range.filter _) hd.nodup]
  intro i
  rw [mem_filter, mem_range, hd.mem]
  exact ⟨fun h => h.2, fun h => ⟨hd.lt_size h, h⟩⟩

omit [BEq K] [Hashable K] in
lemma entries_range' (u : Dict K V) (i n : Nat) :
    entries u (List.range' i (n + 1)) = (entry u i).toList ++
      entries u (List.range' (i + 1) n) := by
  rw [range'_succ, entries, filterMap_cons]
  cases entry u i <;> rfl

lemma updateLoop_eq (u : Dict K V) (n : Nat) : ∀ (d : Dict K V) i, i + n = u.size →
    updateLoop (some u) none (n + 1) d i = putValues (entries u (List.range' i n)) d := by
  induction n with
  | zero =>
    intro d i hi
    rw [updateLoop]
    simp only [getD_some]
    rw [if_neg (by omega)]
    rfl
  | succ n ih =>
    intro d i hi
    rw [updateLoop, entries_range']
    simp only [getD_some]
    rw [if_pos (by omega)]
    cases hk : (itemAt u.items i).k with
    | empty | tomb =>
      have hentry : entry u i = none := by rw [entry, hk]
      rw [hentry]
      exact ih d (i + 1) (by omega)
    | key k =>
      rw [entry_of_key hk]
      dsimp only [toList_some, singleton_append, putValues]
      cases dictPutValue d k (val u i) with
      | none => rfl
      | some d' => exact ih d' (i + 1) (by omega)

lemma dictUpdate_eq (d u : Dict K V) : dictUpdate d (some u) = putValues (slotEntries u) d := by
  rw [dictUpdate, getD_some, updateLoop_eq u u.size d 0 (Nat.zero_add _), slotEntries,
    range_eq_range']

lemma Refines.contents_eq (hd : Refines d m) : contents d = m := by
  obtain ⟨order, hinv, rfl⟩ := hd
  exact hinv.toCore.contents_eq

lemma Inv.refines (hd : Inv d order) : Refines d (contents d) := ⟨order, hd, hd.contents_eq.symm⟩

lemma refines_new (dflt : Option (K → V)) :
    Refines { dictNew with dflt := dflt } ([] : List (K × V)) :=
  ⟨[], inv_dictNew.setDefault dflt, rfl⟩

variable [LawfulHashable K]

lemma Inv.distinct_contents (hd : Inv d order) : Distinct (contents d) := by
  rw [hd.contents_eq]
  exact hd.distinct_entries

variable [EquivBEq K]

lemma putValues_refines (hd : Refines d m) (es : List (K × V)) :
    ∃ d', putValues es d = some d' ∧ Refines d' (putAll m es) := by
  induction es generalizing d m with
  | nil => exact ⟨d, rfl, hd⟩
  | cons e es ih =>
    obtain ⟨order, hinv, rfl⟩ := hd
    obtain ⟨d', hput, hstored, -⟩ := hinv.dictPutValue_spec e.1 e.2
    obtain ⟨d'', hrun, hresult⟩ := ih (hstored.refines hinv)
    exact ⟨d'', by rwa [putValues, hput], hresult⟩

lemma dictUpdate_refines (hd : Refines d m) (u : Dict K V) :
    ∃ d', dictUpdate d (some u) = some d' ∧ Refines d' (putAll m (slotEntries u)) := by
  rw [dictUpdate_eq]
  exact putValues_refines hd _

lemma Inv.dictClone_refines (hd : Inv d order) :
    ∃ d', dictClone d = some d' ∧ Refines d' (contents d) := by
  obtain ⟨d', hrun, href⟩ := putValues_refines (refines_new d.dflt) (contents d)
  rw [putAll_new [] hd.distinct_contents fun e _ h => ?_, nil_append] at href
  · exact ⟨d', hrun, href⟩
  · obtain ⟨e', he', -⟩ := h
    cases he'

lemma Inv.literal_refines (hd : Inv d order) (u : Dict K V) (dflt : Option (K → V)) :
    ∃ d', doDictLiteral [.splat d, .splat u] dflt = some d' ∧
      Refines d' (putAll (slotEntries d) (slotEntries u)) := by
  have hdistinct : Distinct (slotEntries d) :=
    (distinct_perm hd.slotEntries_perm).mpr hd.distinct_contents
  obtain ⟨e, hfirst, href⟩ := dictUpdate_refines (refines_new dflt) d
  rw [putAll_new [] hdistinct fun e _ h => ?_, nil_append] at href
  · obtain ⟨d', hsecond, href'⟩ := dictUpdate_refines href u
    refine ⟨d', ?_, href'⟩
    rw [doDictLiteral, literalLoop, hfirst, bind_some, literalLoop, hsecond]
    rfl
  · obtain ⟨e', he', -⟩ := h
    cases he'

omit [BEq K] [Hashable K] [LawfulHashable K] [EquivBEq K] in
lemma setVal_val (d : Dict K V) (i : Nat) : setVal d i (val d i) = d := by
  have hitems : d.items.modify i (fun it => { it with v := val d i }) = d.items := by
    apply ext_getElem?
    intro j
    rw [getElem?_modify]
    cases hit : d.items[j]? with
    | none => rfl
    | some it =>
      rw [Option.map_eq_map, Option.map_some]
      by_cases hij : i = j
      · subst hij
        have hval : val d i = it.v := by
          rw [val, itemAt, getD_eq_getElem?_getD, hit, getD_some]
        rw [if_pos rfl, hval]
      · rw [if_neg hij]
  rw [setVal, write, hitems]

lemma Inv.dictPutValue_val (hd : Inv d order) {i : Nat} {k : K}
    (hk : (itemAt d.items i).k = .key k) : dictPutValue d k (val d i) = some d := by
  have hspot := hd.refines.represents.found i k hk
  have hinit : ensureInit d = d := by
    rw [ensureInit, if_neg (Nat.ne_of_gt (hd.size_pos (occ_of_key hk)))]
  have hocc : occupied d (.slot i) := occ_of_key hk
  simp [dictPutValue, hinit, hspot, hocc, setVal_val]

lemma Inv.updateLoop_self (hd : Inv d order) (n : Nat) : ∀ i, i + n = d.size →
    updateLoop none none (n + 1) d i = some d := by
  induction n with
  | zero =>
    intro i hi
    exact if_neg (by simp; omega)
  | succ n ih =>
    intro i hi
    rw [updateLoop]
    simp only [getD_none]
    rw [if_pos (by omega)]
    cases hk : (itemAt d.items i).k with
    | empty | tomb => exact ih (i + 1) (by omega)
    | key k =>
      dsimp only
      rw [hd.dictPutValue_val hk]
      exact ih (i + 1) (by omega)

lemma Inv.dictUpdate_self (hd : Inv d order) : dictUpdate d none = some d :=
  hd.updateLoop_self d.size 0 (Nat.zero_add _)

end Slots

/-! ### When the order is kept -/

section Merge

variable {d u : Dict K V}

/-- The keys of `u` that `d` does not have are in the same order in the table and in the list. -/
def NewKeysInOrder (d u : Dict K V) : Prop :=
  (newEntries (contents d) (slotEntries u)).map Prod.fst =
    (newEntries (contents d) (contents u)).map Prod.fst

def KeysInOrder (d : Dict K V) : Prop := (slotEntries d).map Prod.fst = (contents d).map Prod.fst

def Merges (d u : Dict K V) (d' : Option (Dict K V)) : Prop :=
  ∃ r, d' = some r ∧ IsMerge (contents d) (contents u) (contents r)

lemma merges_iff_of_refines {r : Option (Dict K V)} {m : List (K × V)}
    (h : ∃ d', r = some d' ∧ Refines d' m) :
    Merges d u r ↔ IsMerge (contents d) (contents u) m := by
  obtain ⟨d', rfl, href⟩ := h
  rw [← href.contents_eq]
  constructor
  · rintro ⟨_, ⟨⟩, hmerge⟩
    exact hmerge
  · exact fun hmerge => ⟨d', rfl, hmerge⟩

variable [EquivBEq K] [LawfulHashable K]

/-- Merging keeps the insertion order exactly if the keys that come from a table in the order of
its slots are in that order in its list. -/
theorem merge_keeps_order_iff (hd : Reachable d) (hu : Reachable u) (dflt : Option (K → V)) :
    (Merges d u (dictUpdate d (some u)) ↔ NewKeysInOrder d u) ∧
      (Merges d u (mutAdd d (some u)) ↔ NewKeysInOrder d u) ∧
      (Merges d u (opBuiltinAdd d u) ↔ NewKeysInOrder d u) ∧
      (Merges d u (doDictLiteral [.splat d, .splat u] dflt) ↔ KeysInOrder d ∧ NewKeysInOrder d u) ∧
      Merges d d (dictUpdate d none) ∧ Merges d d (mutAdd d none) := by
  obtain ⟨order, hd⟩ := hd.inv
  obtain ⟨order', hu⟩ := hu.inv
  have hputAll : IsMerge (contents d) (contents u) (putAll (contents d) (slotEntries u)) ↔
      NewKeysInOrder d u := by
    rw [isMerge_putAll_iff (Perm.refl _) hu.slotEntries_perm hd.distinct_contents
      hu.distinct_contents, and_iff_right rfl]
    rfl
  have hupdate : Merges d u (dictUpdate d (some u)) ↔ NewKeysInOrder d u := by
    rw [merges_iff_of_refines (dictUpdate_refines hd.refines u), hputAll]
  have hself : Merges d d (dictUpdate d none) :=
    ⟨d, hd.dictUpdate_self, isMerge_self hd.distinct_contents⟩
  refine ⟨hupdate, hupdate, ?_, ?_, hself, hself⟩
  · obtain ⟨new, hclone, href⟩ := hd.dictClone_refines
    rw [opBuiltinAdd, hclone, bind_some, merges_iff_of_refines (dictUpdate_refines href u), hputAll]
  · obtain ⟨r, hrun, href⟩ := hd.literal_refines u dflt
    rw [merges_iff_of_refines ⟨r, hrun, href⟩, isMerge_putAll_iff hd.slotEntries_perm
      hu.slotEntries_perm hd.distinct_contents hu.distinct_contents]
    rfl

end Merge

instance [DecidableEq K] (d u : Dict K V) : Decidable (NewKeysInOrder d u) :=
  inferInstanceAs (Decidable (_ = _))

instance [DecidableEq K] (d : Dict K V) : Decidable (KeysInOrder d) :=
  inferInstanceAs (Decidable (_ = _))

theorem merge_keeps_order_ascending :
    ∃ d u : Dict Nat Nat, runOps [.putValue 1 10, .putValue 2 20] dictNew = some d ∧
      runOps [.putValue 2 21, .putValue 3 30] dictNew = some u ∧
      Merges d u (dictUpdate d (some u)) ∧ Merges d u (mutAdd d (some u)) ∧
      Merges d u (opBuiltinAdd d u) ∧ Merges d u (doDictLiteral [.splat d, .splat u] none) := by
  have h := merge_keeps_order_iff
    (.put (k := 2) (v := 20) (.put (k := 1) (v := 10) .new rfl) rfl :
      Reachable (K := Nat) (V := Nat) _)
    (.put (k := 3) (v := 30) (.put (k := 2) (v := 21) .new rfl) rfl :
      Reachable (K := Nat) (V := Nat) _)
    none
  exact ⟨_, _, rfl, rfl, h.1.mpr (by decide), h.2.1.mpr (by decide), h.2.2.1.mpr (by decide),
    h.2.2.2.1.mpr (by decide)⟩

/-- The keys 2 and 1 come to an empty dict in the order of their slots. -/
theorem merge_loses_order :
    ∃ u d' : Dict Nat Nat, Reachable u ∧ contents u = [(2, 20), (1, 10)] ∧
      dictUpdate dictNew (some u) = some d' ∧ contents d' = [(1, 10), (2, 20)] ∧
      ¬ Merges dictNew u (some d') := by
  refine ⟨_, _, .put (k := 1) (v := 10) (.put (k := 2) (v := 20) .new rfl) rfl, rfl, rfl, rfl, ?_⟩
  rintro ⟨r, ⟨⟩, hmerge⟩
  exact absurd hmerge.keys (by decide)

end TyLang.Dict
