import TyLang.Lib.OrderedMap

/-!
Merging two ordered maps by putting the entries of one into the other.
-/
namespace TyLang.OrderedMap
open List

variable {K V : Type} [BEq K] {m m₁ es es₁ : List (K × V)} {k k' : K} {v : V} {e : K × V}

/-- The entries under keys that the map does not have. -/
def newEntries (m es : List (K × V)) : List (K × V) := es.filter fun e => ¬ Has m e.1

/-- The map `m'` has the keys of `m` and behind them the new ones of `es`, with the values of
`es` before those of `m`. -/
structure IsMerge (m es m' : List (K × V)) : Prop where
  keys : m'.map Prod.fst = m.map Prod.fst ++ (newEntries m es).map Prod.fst
  put : ∀ e ∈ es, lookup m' e.1 = some e.2
  kept : ∀ e ∈ m, ¬ Has es e.1 → lookup m' e.1 = some e.2

lemma has_perm (h : m₁.Perm m) : Has m₁ k ↔ Has m k := by
  unfold Has
  simp only [h.mem_iff]

lemma newEntries_perm (h : m₁.Perm m) (es : List (K × V)) : newEntries m₁ es = newEntries m es := by
  unfold newEntries
  simp only [has_perm h]

lemma newEntries_nil (es : List (K × V)) : newEntries [] es = es := by
  refine filter_eq_self.mpr fun e _ => decide_eq_true ?_
  rintro ⟨_, h, -⟩
  cases h

lemma has_cons : Has (e :: m) k ↔ (e.1 == k) ∨ Has m k := by
  simp only [Has, mem_cons, exists_eq_or_imp]

lemma keys_put (m : List (K × V)) (k : K) (v : V) :
    (put m k v).map Prod.fst = m.map Prod.fst ++ if Has m k then [] else [k] := by
  unfold put
  split
  · rw [map_map, append_nil]
    apply map_congr_left
    intro e _
    dsimp only [Function.comp_apply]
    split <;> rfl
  · rw [map_append]
    rfl

lemma has_iff_mem_keys : Has m k ↔ ∃ a ∈ m.map Prod.fst, (a == k) := by
  simp [Has]

/-- A change of the values under the keys that are already there. -/
lemma lookup_map {g : K × V → K × V} (hg : ∀ e, (g e).1 = e.1) :
    lookup (m.map g) k' = (m.find? fun e => e.1 == k').map fun e => (g e).2 := by
  unfold lookup
  rw [find?_map, Option.map_map]
  simp only [Function.comp_def, hg]

lemma put_key (k : K) (v : V) (e : K × V) : (if e.1 == k then (e.1, v) else e).1 = e.1 := by
  split <;> rfl

variable [EquivBEq K]

lemma distinct_perm (h : m₁.Perm m) : Distinct m₁ ↔ Distinct m :=
  h.pairwise_iff fun hab => by rwa [BEq.comm]

lemma lookup_of_mem (hm : Distinct m) (he : e ∈ m) : lookup m e.1 = some e.2 := by
  obtain ⟨l, r, rfl⟩ := append_of_mem he
  exact hm.lookup_eq BEq.rfl

lemma newEntries_cons (e : K × V) (m es : List (K × V)) :
    newEntries (e :: m) es = newEntries m (erase es e.1) := by
  unfold newEntries erase
  rw [filter_filter]
  refine filter_congr fun a _ => ?_
  rw [Bool.eq_iff_iff]
  simp only [has_cons, not_or, decide_eq_true_eq, Bool.and_eq_true, Bool.not_eq_true',
    Bool.decide_and]
  rw [BEq.comm, and_comm, Bool.not_eq_true]

lemma has_trans (hsub : ∀ e ∈ m, Has es e.1) (h : Has m k) : Has es k := by
  obtain ⟨e, he, hek⟩ := h
  obtain ⟨a, ha, hae⟩ := hsub e he
  exact ⟨a, ha, BEq.trans hae hek⟩

/-- A map whose keys are all in another is not larger, and if it is not smaller either then it has
all the keys of the other. -/
lemma Distinct.keys_subset (hm : Distinct m) (hes : Distinct es) (hsub : ∀ e ∈ m, Has es e.1) :
    m.length ≤ es.length ∧ (es.length ≤ m.length → ∀ e ∈ es, Has m e.1) := by
  induction m generalizing es with
  | nil =>
    refine ⟨Nat.zero_le _, fun hlen e he => ?_⟩
    rw [length_eq_zero_iff.mp (Nat.le_zero.mp hlen)] at he
    cases he
  | cons a m ih =>
    obtain ⟨hne, hm⟩ := pairwise_cons.mp hm
    obtain ⟨b, hb, hba⟩ := hsub a (.head _)
    obtain ⟨l, r, rfl⟩ := append_of_mem hb
    -- what is left of both maps without the first key
    have hrest : ∀ e ∈ m, Has (l ++ r) e.1 := by
      intro e he
      have hother := hne e he
      obtain ⟨c, hc, hce⟩ := hsub e (mem_cons_of_mem a he)
      rw [mem_append, mem_cons] at hc
      rcases hc with hc | rfl | hc
      · exact ⟨c, mem_append_left r hc, hce⟩
      · rw [BEq.trans (BEq.symm hba) hce] at hother
        cases hother
      · exact ⟨c, mem_append_right l hc, hce⟩
    have hdistinct : Distinct (l ++ r) :=
      Pairwise.sublist ((sublist_cons_self b r).append_left l) hes
    obtain ⟨hle, hback⟩ := ih hm hdistinct hrest
    have hlen : (l ++ b :: r).length = (l ++ r).length + 1 := by
      simp only [length_append, length_cons]
      omega
    rw [hlen, length_cons]
    refine ⟨Nat.succ_le_succ hle, fun hge e he => ?_⟩
    rw [has_cons]
    rw [mem_append, mem_cons] at he
    rcases he with he | rfl | he
    · exact .inr (hback (Nat.le_of_succ_le_succ hge) e (mem_append_left r he))
    · exact .inl (BEq.symm hba)
    · exact .inr (hback (Nat.le_of_succ_le_succ hge) e (mem_append_right l he))

lemma has_put : Has (put m k v) k' ↔ Has m k' ∨ (k == k') := by
  rw [has_iff_mem_keys, keys_put]
  constructor
  · rintro ⟨a, ha, hak⟩
    rcases mem_append.mp ha with hold | hnew
    · exact .inl (has_iff_mem_keys.mpr ⟨a, hold, hak⟩)
    · split at hnew
      · cases hnew
      · rw [mem_singleton.mp hnew] at hak
        exact .inr hak
  · rintro (hold | hk)
    · obtain ⟨a, ha, hak⟩ := has_iff_mem_keys.mp hold
      exact ⟨a, mem_append_left _ ha, hak⟩
    · by_cases hhas : Has m k
      · obtain ⟨a, ha, hak⟩ := has_iff_mem_keys.mp hhas
        exact ⟨a, mem_append_left _ ha, BEq.trans hak hk⟩
      · rw [if_neg hhas]
        exact ⟨k, mem_append_right _ (.head _), hk⟩

lemma lookup_put_self (h : (k == k')) : lookup (put m k v) k' = some v := by
  unfold put
  split
  · next hhas =>
    obtain ⟨e, he, hek⟩ := hhas
    rw [lookup_map (put_key k v)]
    cases hfind : m.find? fun e => e.1 == k' with
    | none => exact absurd (BEq.trans hek h) (find?_eq_none.mp hfind e he)
    | some e' =>
      have hfound := find?_some hfind
      have hk' : (e'.1 == k) := BEq.trans hfound (BEq.symm h)
      rw [Option.map_some, if_pos hk']
  · next hhas =>
    have hnone : m.find? (fun e => e.1 == k') = none :=
      find?_eq_none.mpr fun e he hek => hhas ⟨e, he, BEq.trans hek (BEq.symm h)⟩
    rw [lookup, find?_append, hnone, Option.none_or, find?_cons_of_pos (by simpa using h)]
    rfl

lemma lookup_put_of_ne (h : (k == k') = false) : lookup (put m k v) k' = lookup m k' := by
  unfold put
  split
  · rw [lookup_map (put_key k v), lookup]
    cases hfind : m.find? fun e => e.1 == k' with
    | none => rfl
    | some e =>
      have hfound := find?_some hfind
      have hne : ¬ (e.1 == k) := by
        intro hek
        rw [BEq.trans (BEq.symm hek) hfound] at h
        cases h
      rw [Option.map_some, Option.map_some, if_neg hne]
  · rw [lookup, find?_append, find?_cons_of_neg (by simp [h]), find?_nil, Option.or_none]
    rfl

lemma keys_putAll (m : List (K × V)) (hes : Distinct es) :
    (putAll m es).map Prod.fst = m.map Prod.fst ++ (newEntries m es).map Prod.fst := by
  induction es generalizing m with
  | nil => exact (append_nil _).symm
  | cons e es ih =>
    obtain ⟨hnew, htail⟩ := pairwise_cons.mp hes
    have hrest : newEntries (put m e.1 e.2) es = newEntries m es := by
      apply filter_congr
      intro e' he'
      simp only [has_put, hnew e' he', Bool.false_eq_true, or_false]
    rw [putAll_cons, ih _ htail, hrest, keys_put, append_assoc]
    unfold newEntries
    by_cases he : Has m e.1
    · rw [if_pos he, filter_cons_of_neg (by simpa using he), nil_append]
    · rw [if_neg he, filter_cons_of_pos (by simpa using he), map_cons, singleton_append]

lemma putAll_new (m : List (K × V)) (hes : Distinct es) (hnew : ∀ e ∈ es, ¬ Has m e.1) :
    putAll m es = m ++ es := by
  induction es generalizing m with
  | nil => exact (append_nil m).symm
  | cons e es ih =>
    obtain ⟨hne, htail⟩ := pairwise_cons.mp hes
    have hput : put m e.1 e.2 = m ++ [e] := if_neg (hnew e mem_cons_self)
    rw [putAll_cons, ih _ htail, hput, append_assoc, singleton_append]
    intro e' he'
    rw [has_put, hne e' he']
    simpa using hnew e' (mem_cons_of_mem e he')

lemma lookup_putAll_of_not_has (m : List (K × V)) (h : ¬ Has es k) :
    lookup (putAll m es) k = lookup m k := by
  induction es generalizing m with
  | nil => rfl
  | cons e es ih =>
    have htail : ¬ Has es k := fun ⟨e', he', hk⟩ => h ⟨e', mem_cons_of_mem e he', hk⟩
    have hne : (e.1 == k) = false := Bool.eq_false_iff.mpr fun hk => h ⟨e, (.head _), hk⟩
    rw [putAll_cons, ih _ htail, lookup_put_of_ne hne]

lemma lookup_putAll_of_mem (m : List (K × V)) (hes : Distinct es) (he : e ∈ es) :
    lookup (putAll m es) e.1 = some e.2 := by
  obtain ⟨l, r, rfl⟩ := append_of_mem he
  have hr := (hes.split (BEq.rfl (a := e.1))).2
  rw [show putAll m (l ++ e :: r) = putAll (put (putAll m l) e.1 e.2) r from foldl_append ..,
    lookup_putAll_of_not_has _ hr, lookup_put_self BEq.rfl]

/-- Putting the entries in another order merges the maps exactly if the order of the keys of
the one and of the new keys of the other comes out the same. -/
lemma isMerge_putAll_iff (hm : m₁.Perm m) (hes : es₁.Perm es) (hdm : Distinct m)
    (hdes : Distinct es) :
    IsMerge m es (putAll m₁ es₁) ↔
      m₁.map Prod.fst = m.map Prod.fst ∧
        (newEntries m es₁).map Prod.fst = (newEntries m es).map Prod.fst := by
  have hdes1 := (distinct_perm hes).mpr hdes
  have hkeys := keys_putAll m₁ hdes1
  rw [newEntries_perm hm] at hkeys
  constructor
  · intro h
    have happend := h.keys
    rw [hkeys] at happend
    exact append_inj happend (by rw [length_map, length_map, hm.length_eq])
  · rintro ⟨hold, hnew⟩
    refine ⟨by rw [hkeys, hold, hnew], fun e he => ?_, fun e he habsent => ?_⟩
    · exact lookup_putAll_of_mem m₁ hdes1 (hes.mem_iff.mpr he)
    · rw [lookup_putAll_of_not_has m₁ (fun h => habsent ((has_perm hes).mp h))]
      exact lookup_of_mem ((distinct_perm hm).mpr hdm) (hm.mem_iff.mpr he)

lemma isMerge_self (hm : Distinct m) : IsMerge m m m where
  keys := by
    have hnone : newEntries m m = [] := by
      rw [newEntries, filter_eq_nil_iff]
      intro e he
      have hhas : Has m e.1 := ⟨e, he, BEq.rfl⟩
      simpa using hhas
    rw [hnone, map_nil, append_nil]
  put _ he := lookup_of_mem hm he
  kept _ he _ := lookup_of_mem hm he

end TyLang.OrderedMap
