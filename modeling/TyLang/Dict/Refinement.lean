import TyLang.Dict.Loops
import TyLang.Lib.OrderedMap

/-!
A dict over keys with a lawful equality and hash is an insertion-ordered map.
`Refines` is the abstraction relation; every operation is matched by the
operation of the same name on maps, and so is every finite run of operations.
-/
namespace TyLang.Dict
open List OrderedMap

variable {K V : Type} [Inhabited V] [BEq K] [Hashable K]

/-- Operations whose callbacks, if any, leave the dict alone. -/
inductive Op (K V : Type) where
  | putValue (k : K) (v : V)
  | putKeyIfNotExists (k : K)
  | remove (k : K)
  | pop (arg : Option Int)
  | clear
  | keepMut (f : K → V → Bool)

def PopResult.dict (d : Dict K V) : PopResult K V → Dict K V
  | .popped d' _ _ => d'
  | .raised _ => d

def Op.run : Op K V → Dict K V → Option (Dict K V)
  | .putValue k v, d => dictPutValue d k v
  | .putKeyIfNotExists k, d => (dictPutKeyIfNotExists d k).map Prod.fst
  | .remove k, d => (dictRemove d k).map Prod.fst
  | .pop arg, d => (dictPop d arg).map (PopResult.dict d)
  | .clear, d => some (dictClear d)
  | .keepMut f, d => some (dictKeepMut d f)

def runOps : List (Op K V) → Dict K V → Option (Dict K V)
  | [], d => some d
  | op :: ops, d => (op.run d).bind (runOps ops)

/-- What an operation does to an ordered map. A key put without a value gets
the value `init` gives it. -/
def Op.apply (init : K → V) : Op K V → List (K × V) → List (K × V)
  | .putValue k v, m => OrderedMap.put m k v
  | .putKeyIfNotExists k, m => if Has m k then m else m ++ [(k, init k)]
  | .remove k, m => erase m k
  | .pop arg, m =>
    let i := arg.getD (-1)
    let i := if i < 0 then i + m.length else i
    if i < 0 ∨ i ≥ m.length then m else m.eraseIdx i.toNat
  | .clear, _ => []
  | .keepMut f, m => m.filter fun e => f e.1 e.2

def applyOps (init : K → V) (ops : List (Op K V)) (m : List (K × V)) : List (K × V) :=
  ops.foldl (fun m op => op.apply init m) m

def Refines (d : Dict K V) (m : List (K × V)) : Prop :=
  ∃ order, Inv d order ∧ entries d order = m

section Entries
variable {d : Dict K V} {order : List Nat} {k : K}

omit [BEq K] [Hashable K] in
lemma entry_of_key {i : Nat} (hk : (itemAt d.items i).k = .key k) :
    entry d i = some (k, val d i) := by
  unfold entry
  rw [hk]

lemma Core.mem_entries (hd : Core d order) {e : K × V} :
    e ∈ entries d order ↔ ∃ i, (itemAt d.items i).k = .key e.1 ∧ val d i = e.2 := by
  unfold entries
  rw [mem_filterMap]
  constructor
  · rintro ⟨i, -, hi⟩
    unfold entry at hi
    split at hi
    next k hk =>
      cases hi
      exact ⟨i, hk, rfl⟩
    next => cases hi
  · rintro ⟨i, hk, hv⟩
    refine ⟨i, (hd.mem i).mpr (occ_of_key hk), ?_⟩
    rw [entry_of_key hk, hv]

omit [BEq K] [Hashable K] in
lemma entries_split {l r : List Nat} {i : Nat} (hk : (itemAt d.items i).k = .key k) :
    entries d (l ++ i :: r) = entries d l ++ (k, val d i) :: entries d r := by
  unfold entries
  rw [filterMap_append, filterMap_cons_some (entry_of_key hk)]

omit [BEq K] [Hashable K] in
lemma map_entry {slots : List Nat} (hocc : ∀ i ∈ slots, Occ d i) :
    slots.map (entry d) = (entries d slots).map some := by
  unfold entries
  induction slots with
  | nil => rfl
  | cons i slots ih =>
    obtain ⟨k, hk⟩ := (hocc i (by simp)).exists_key
    rw [map_cons, filterMap_cons_some (entry_of_key hk), map_cons,
      entry_of_key hk, ih fun j hj => hocc j (by simp [hj])]

omit [BEq K] [Hashable K] in
lemma length_entries {slots : List Nat} (hocc : ∀ i ∈ slots, Occ d i) :
    (entries d slots).length = slots.length := by
  have := congrArg length (map_entry hocc)
  rwa [length_map, length_map, eq_comm] at this

variable [LawfulHashable K]

section
variable (hd : Core d order)
include hd

lemma Core.matches_iff {i : Nat} :
    Matches d (hash k) k i ↔ ∃ k', (itemAt d.items i).k = .key k' ∧ (k' == k) := by
  constructor
  · intro hm
    obtain ⟨k', hk⟩ := hm.occ.exists_key
    have := hm.2
    rw [hk] at this
    exact ⟨k', hk, this⟩
  · rintro ⟨k', hk, hkk⟩
    refine ⟨?_, by rwa [hk]⟩
    rw [hd.hashed i k' hk]
    exact hash_eq hkk

lemma Core.has_iff : Has (entries d order) k ↔ ∃ i, Matches d (hash k) k i := by
  constructor
  · rintro ⟨e, he, hek⟩
    obtain ⟨i, hk, -⟩ := hd.mem_entries.mp he
    exact ⟨i, hd.matches_iff.mpr ⟨e.1, hk, hek⟩⟩
  · rintro ⟨i, hm⟩
    obtain ⟨k', hk, hkk⟩ := hd.matches_iff.mp hm
    exact ⟨(k', val d i), hd.mem_entries.mpr ⟨i, hk, rfl⟩, hkk⟩

lemma Core.not_has (absent : ∀ i, ¬ Matches d (hash k) k i) : ¬ Has (entries d order) k := by
  rw [hd.has_iff]
  exact fun ⟨i, hm⟩ => absent i hm

lemma Core.distinct_entries : Distinct (entries d order) := by
  unfold Distinct entries
  rw [pairwise_filterMap]
  refine hd.distinct.imp_of_mem ?_
  intro i j hi hj hij a ha b hb
  obtain ⟨ka, hka⟩ := ((hd.mem i).mp hi).exists_key
  obtain ⟨kb, hkb⟩ := ((hd.mem j).mp hj).exists_key
  rw [entry_of_key hka, Option.some.injEq] at ha
  rw [entry_of_key hkb, Option.some.injEq] at hb
  subst ha hb
  have hno := hij kb hkb
  rw [hd.hashed j kb hkb, hd.matches_iff] at hno
  by_contra hab
  exact hno ⟨ka, hka, by simpa using hab⟩

lemma Core.matches_unique [PartialEquivBEq K] {i j : Nat}
    (hi : Matches d (hash k) k i) (hj : Matches d (hash k) k j) : i = j := by
  obtain ⟨ki, hki, hkki⟩ := hd.matches_iff.mp hi
  obtain ⟨kj, hkj, hkkj⟩ := hd.matches_iff.mp hj
  have hij : Matches d (hash kj) kj i :=
    hd.matches_iff.mpr ⟨ki, hki, BEq.trans hkki (BEq.symm hkkj)⟩
  have hji : Matches d (hash ki) ki j :=
    hd.matches_iff.mpr ⟨kj, hkj, BEq.trans hkkj (BEq.symm hkki)⟩
  rw [← hd.hashed j kj hkj] at hij
  rw [← hd.hashed i ki hki] at hji
  obtain ⟨l, r, horder⟩ := append_of_mem ((hd.mem i).mpr hi.occ)
  have hdistinct := hd.distinct
  rw [horder, pairwise_append, pairwise_cons] at hdistinct
  have hmem := (hd.mem j).mpr hj.occ
  rw [horder, mem_append, mem_cons] at hmem
  rcases hmem with hl | rfl | hr
  · exact absurd hji (hdistinct.2.2 j hl i (by simp) ki hki)
  · rfl
  · exact absurd hij (hdistinct.2.1.1 j hr kj hkj)

end

variable [EquivBEq K]

lemma Stored.refines (hd : Inv d order) {v : V} {d' : Dict K V}
    (h : Stored d order k v d') : Refines d' (OrderedMap.put (entries d order) k v) := by
  cases h with
  | replaced i hm hpos hinv hself hother =>
    refine ⟨order, hinv, ?_⟩
    rw [OrderedMap.put, if_pos (hd.has_iff.mpr ⟨i, hm⟩)]
    unfold entries
    rw [map_filterMap]
    refine filterMap_congr fun s hs => ?_
    obtain ⟨ks, hks⟩ := ((hd.mem s).mp hs).exists_key
    by_cases hsi : s = i
    · subst hsi
      obtain ⟨k', hk', hkk⟩ := hd.matches_iff.mp hm
      rw [hself, entry_of_key hk']
      simp [hkk]
    · have hne : ¬ (ks == k) := fun hkk =>
        hsi (hd.matches_unique (hd.matches_iff.mpr ⟨ks, hks, hkk⟩) hm)
      rw [hother s hsi, entry_of_key hks]
      simp [hne]
  | appended absent order' hpos hinv hent =>
    refine ⟨order', hinv, ?_⟩
    rw [OrderedMap.put, if_neg (hd.not_has absent), hent]

lemma Inv.get_eq_lookup (hd : Inv d order) (hdflt : d.dflt = none) (k : K) :
    dictGetValue d k = some (d, lookup (entries d order) k) := by
  rcases hd.dictGetValue_spec hdflt k with ⟨i, hm, hget⟩ | ⟨absent, hget⟩
  · obtain ⟨k', hk', hkk⟩ := hd.matches_iff.mp hm
    obtain ⟨l, r, rfl⟩ := append_of_mem ((hd.mem i).mpr hm.occ)
    have hdistinct := hd.distinct_entries
    rw [entries_split hk'] at hdistinct ⊢
    rw [hdistinct.lookup_eq hkk, hget]
  · rw [lookup_eq_none (hd.not_has absent), hget]

lemma Inv.refines_remove (hd : Inv d order) (k : K) :
    ∃ d' v, dictRemove d k = some (d', v) ∧ Refines d' (erase (entries d order) k) ∧
      d'.dflt = d.dflt ∧ d'.size = d.size ∧ v = (lookup (entries d order) k).getD default := by
  rcases hd.dictRemove_spec k with ⟨i, hm, hrun⟩ | ⟨absent, hrun⟩
  · obtain ⟨k', hk', hkk⟩ := hd.matches_iff.mp hm
    obtain ⟨l, r, rfl⟩ := append_of_mem ((hd.mem i).mpr hm.occ)
    have hdistinct := hd.distinct_entries
    rw [entries_split hk'] at hdistinct ⊢
    refine ⟨delete d i, val d i, hrun, ⟨l ++ r, hd.deleted, ?_⟩, delete_dflt, delete_size, ?_⟩
    · rw [hdistinct.erase_eq hkk, hd.entries_delete, entries, filterMap_append]
      rfl
    · rw [hdistinct.lookup_eq hkk]
      rfl
  · have hno := hd.not_has absent
    refine ⟨d, default, hrun, ⟨order, hd, (erase_eq_self hno).symm⟩, rfl, rfl, ?_⟩
    rw [lookup_eq_none hno]
    rfl

end Entries

section Runs
variable [EquivBEq K] [LawfulHashable K] {d : Dict K V} {m : List (K × V)}

omit [EquivBEq K] [LawfulHashable K] in
lemma Inv.refines_pop {order : List Nat} (hd : Inv d order) (init : K → V) (arg : Option Int) :
    ∃ res, dictPop d arg = some res ∧
      Refines (res.dict d) ((Op.pop arg : Op K V).apply init (entries d order)) ∧
      (res.dict d).dflt = d.dflt ∧ (res.dict d).size = d.size := by
  have hlen : (entries d order).length = d.count := by
    rw [length_entries fun i => (hd.mem i).mp, hd.count]
  have happly : (Op.pop arg : Op K V).apply init (entries d order) =
      if popIndex d arg < 0 ∨ popIndex d arg ≥ d.count then entries d order
      else (entries d order).eraseIdx (popIndex d arg).toNat := by
    simp only [Op.apply, hlen]
    rfl
  rw [happly]
  rcases hd.dictPop_spec arg with ⟨hrange, msg, hrun⟩ | ⟨l, s, r, k, rfl, hi, hk, hrun⟩
  · rw [if_pos hrange]
    exact ⟨_, hrun, ⟨order, hd, rfl⟩, rfl, rfl⟩
  have hcount := hd.count
  have hl : (entries d l).length = l.length :=
    length_entries fun i hil => (hd.mem i).mp (by simp [hil])
  rw [length_append, length_cons] at hcount
  rw [if_neg (by omega), hi, Int.toNat_natCast]
  refine ⟨_, hrun, ⟨l ++ r, hd.deleted, ?_⟩, delete_dflt, delete_size⟩
  change entries (delete d s) (l ++ r) = _
  rw [hd.entries_delete, entries_split hk, eraseIdx_append_of_length_le (by omega), hl,
    Nat.sub_self, eraseIdx_cons_zero, entries, filterMap_append]
  rfl

lemma Op.run_refines (op : Op K V) (hd : Refines d m) :
    ∃ d', op.run d = some d' ∧ Refines d' (op.apply (initialValue d) m) ∧ d'.dflt = d.dflt ∧
      (0 < d.size → 0 < d'.size) := by
  obtain ⟨order, hd, rfl⟩ := hd
  cases op with
  | putValue k v =>
    obtain ⟨d', hrun, hstored, hdflt⟩ := hd.dictPutValue_spec k v
    exact ⟨d', hrun, hstored.refines hd, hdflt, fun _ => hstored.size_pos⟩
  | putKeyIfNotExists k =>
    obtain ⟨d', j, hrun, hdflt, ⟨hm, rfl⟩ | ⟨absent, hstored, -⟩⟩ := hd.dictPutKeyIfNotExists_spec k
    · refine ⟨_, by rw [Op.run, hrun]; rfl, ⟨order, hd.initialised, ?_⟩, hdflt,
        fun _ => ensureInit_pos d⟩
      rw [Op.apply, if_pos (hd.has_iff.mpr ⟨j, hm⟩), hd.entries_ensureInit]
    · refine ⟨_, by rw [Op.run, hrun]; rfl, ?_, hdflt, fun _ => hstored.size_pos⟩
      have hput := hstored.refines hd
      rw [OrderedMap.put, if_neg (hd.not_has absent)] at hput
      rwa [Op.apply, if_neg (hd.not_has absent)]
  | remove k =>
    obtain ⟨d', v, hrun, href, hdflt, hsize, -⟩ := hd.refines_remove k
    exact ⟨d', by rw [Op.run, hrun]; rfl, href, hdflt, fun h => hsize ▸ h⟩
  | pop arg =>
    obtain ⟨res, hrun, href, hdflt, hsize⟩ := hd.refines_pop (initialValue d) arg
    exact ⟨_, by rw [Op.run, hrun]; rfl, href, hdflt, fun h => hsize ▸ h⟩
  | clear => exact ⟨_, rfl, ⟨[], hd.cleared, rfl⟩, rfl, id⟩
  | keepMut f =>
    obtain ⟨hdflt, hsize⟩ := foldl_keepStep_fields f (range d.size) d
    exact ⟨_, rfl, hd.dictKeepMut_spec f, hdflt, fun h => hsize ▸ h⟩

lemma runOps_refines (ops : List (Op K V)) (hd : Refines d m) :
    ∃ d', runOps ops d = some d' ∧ Refines d' (applyOps (initialValue d) ops m) ∧
      d'.dflt = d.dflt ∧ (0 < d.size → 0 < d'.size) := by
  induction ops generalizing d m with
  | nil => exact ⟨d, rfl, hd, rfl, id⟩
  | cons op ops ih =>
    obtain ⟨e, hrun, href, hdflt, hpos⟩ := op.run_refines hd
    obtain ⟨d', hruns, hrefs, hdflt', hpos'⟩ := ih href
    have hinit : initialValue e = initialValue d := by
      funext k
      unfold initialValue
      rw [hdflt]
    rw [hinit] at hrefs
    exact ⟨d', by rwa [runOps, hrun], hrefs, hdflt'.trans hdflt,
      fun h => hpos' (hpos h)⟩

/-- What it means for a dict to hold the ordered map `m`, in terms of its slots,
its list pointers and its counters. -/
structure Represents (d : Dict K V) (m : List (K × V)) : Prop where
  found : ∀ i k, (itemAt d.items i).k = .key k → spotOf d k = some (.slot i)
  unique : ∀ i j k k', (itemAt d.items i).k = .key k → (itemAt d.items j).k = .key k' →
    (k == k') → i = j
  list : ∃ order : List Nat, order.Nodup ∧ (∀ i, i ∈ order ↔ occupied d (.slot i)) ∧
    order.map (entry d) = m.map some ∧
    ∀ fuel, order.length ≤ fuel →
      chase (fun i => (itemAt d.items i).prev) fuel d.last = order.reverse ∧
      (dictFirst d).map (chase (fun i => (itemAt d.items i).next) fuel) = some order
  count : d.count = d.items.countP fun it => it.k.occupied
  tombs : d.tombs = d.items.countP fun it => it.k.isTomb

lemma Refines.represents (hd : Refines d m) : Represents d m := by
  obtain ⟨order, hd, rfl⟩ := hd
  have hmatch : ∀ i k, (itemAt d.items i).k = .key k → Matches d (hash k) k i :=
    fun i k hk => hd.matches_iff.mpr ⟨k, hk, BEq.rfl⟩
  refine ⟨?_, ?_, ⟨order, hd.nodup, hd.mem, map_entry fun i => (hd.mem i).mp, ?_⟩,
    hd.count_occupied, hd.tombs⟩
  · intro i k hk
    rcases hd.spotOf_cases k with ⟨j, hspot, -, hm⟩ | ⟨s, -, -, absent⟩
    · rw [hspot, hd.matches_unique hm (hmatch i k hk)]
    · exact absurd (hmatch i k hk) (absent i)
  · intro i j k k' hi hj hkk
    exact hd.matches_unique (hd.matches_iff.mpr ⟨k, hi, hkk⟩) (hmatch j k' hj)
  · intro fuel hfuel
    refine ⟨?_, ?_⟩
    · rw [hd.linked.last_eq]
      exact hd.linked.chase_prev (append_nil order).symm hfuel
    · rw [hd.dictFirst_eq, Option.map_some]
      exact congrArg some (hd.linked.chase_next (nil_append order).symm hfuel)

/-- Every finite run of operations on a new dict returns, and leaves a dict that
holds the ordered map which the same operations make of the empty map;
`dict_get_value` then answers as that map does. -/
theorem runOps_dictNew (ops : List (Op K V)) :
    ∃ d, runOps ops dictNew = some d ∧
      Represents d (applyOps (fun _ => default) ops []) ∧
      ∀ k, dictGetValue d k = some (d, lookup (applyOps (fun _ => default) ops []) k) := by
  have hnew : Refines (dictNew : Dict K V) [] := ⟨[], inv_dictNew, rfl⟩
  obtain ⟨d, hrun, href, hdflt, -⟩ := runOps_refines ops hnew
  refine ⟨d, hrun, href.represents, ?_⟩
  obtain ⟨order, hinv, hentries⟩ := href
  intro k
  rw [hinv.get_eq_lookup hdflt k, hentries]
  rfl

theorem runOps_dictNew_collision :
    ∃ d : Dict Nat Nat,
      runOps [.putValue 1 10, .putValue 9 20, .remove 1, .putValue 1 30] dictNew = some d ∧
      Represents d [(9, 20), (1, 30)] ∧
      ∀ k, dictGetValue d k = some (d, lookup [(9, 20), (1, 30)] k) :=
  runOps_dictNew [.putValue 1 10, .putValue 9 20, .remove 1, .putValue 1 30]

end Runs

end TyLang.Dict
