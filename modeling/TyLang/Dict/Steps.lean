import TyLang.Dict.Delete

/-!
What each operation does to a well-formed dict. Every operation returns; its
result is well formed again; and its effect is named in terms of the slot that
answers the search for the key, if there is one. The laws of equality and hash
are not needed for this, so a key that does not equal itself is covered too.
-/
namespace TyLang.Dict
open Cyclic

variable {K V : Type} [Inhabited V] [BEq K] [Hashable K]
variable {d : Dict K V} {order : List Nat} {k : K} {d' : Dict K V} {i : Nat}

/-- Where an operation finds its key in an initialised table: in a slot that
answers the search, or nowhere, and then in a slot that `put` can store it in. -/
lemma Inv.spotOf_spec (hd : Inv d order) (hpos : 0 < d.size) (k : K) :
    ∃ i, spotOf d k = some (.slot i) ∧ i < d.size ∧
      (Matches d (hash k) k i ∨ (¬ Occ d i ∧ (∀ j, ¬ Matches d (hash k) k j) ∧
        settles d i d.size (ideal d.size (hash k)) (hash k))) := by
  obtain ⟨i, hspot, hi, hm | ⟨free, hpath, absent⟩⟩ := hd.findSpot_spec hpos (hash k) k
  · exact ⟨i, hspot, hi, .inl hm⟩
  · exact ⟨i, hspot, hi, .inr ⟨free, absent, hd.settles_of_stretch hi hpath⟩⟩

lemma Inv.findSpot_total (hd : Inv d order) (h : UInt64) (k : K) :
    ∃ s, findSpot d.size d.items h k = some s ∧
      (occupied d s → ∃ i, s = .slot i ∧ Matches d h k i) := by
  by_cases hsize : d.size = 0
  · exact ⟨.noSuchSpot, by simp [findSpot, hsize], by simp [occupied]⟩
  · obtain ⟨i, hspot, -, hres⟩ := hd.findSpot_spec (by omega) h k
    refine ⟨.slot i, hspot, fun hocc => ⟨i, rfl, ?_⟩⟩
    rcases hres with hm | ⟨free, -, -⟩
    · exact hm
    · exact absurd hocc free

/-- The dict `d'` is `d` with the key `k` in it: the value under `k` became `v`
in the slot that already answered for `k`, or else `k` was stored at the end. -/
inductive Stored (d : Dict K V) (order : List Nat) (k : K) (v : V) (d' : Dict K V) : Prop where
  | replaced (i : Nat) (hm : Matches d (hash k) k i) (hpos : 0 < d'.size) (hinv : Inv d' order)
      (hself : entry d' i = (entry d i).map fun e => (e.1, v))
      (hother : ∀ s, s ≠ i → entry d' s = entry d s)
  | appended (absent : ∀ j, ¬ Matches d (hash k) k j) (order' : List Nat) (hpos : 0 < d'.size)
      (hinv : Inv d' order')
      (hent : entries d' order' = entries d order ++ [(k, v)])

lemma Stored.inv {v : V} (h : Stored d order k v d') : ∃ order', Inv d' order' := by
  cases h with
  | replaced i hm hpos hinv hself hother => exact ⟨order, hinv⟩
  | appended absent order' hpos hinv hent => exact ⟨order', hinv⟩

lemma Stored.size_pos {v : V} (h : Stored d order k v d') : 0 < d'.size := by
  cases h with
  | replaced i hm hpos hinv hself hother => exact hpos
  | appended absent order' hpos hinv hent => exact hpos

section
variable (hd : Inv d order)
include hd

lemma Inv.stored_setVal (hi : i < d.size)
    (hm : Matches d (hash k) k i) (v : V) : Stored d order k v (setVal d i v) := by
  have hlen : i < d.items.length := by rwa [hd.length]
  exact .replaced i hm (show 0 < d.size by omega) (hd.overwritten hi v)
    (entry_setVal_self hlen) fun s => entry_setVal hlen

lemma Inv.matches_ensureInit (h : UInt64) (k : K) (i : Nat) :
    Matches (ensureInit d) h k i ↔ Matches d h k i := by
  unfold ensureInit
  split
  next hsize =>
    have hnone : ∀ (e : Dict K V), Inv e order → e.size = 0 ∨ order = [] →
        ¬ Matches e h k i := by
      intro e he hor hm
      have hmem := (he.mem i).mpr hm.occ
      rcases hor with hz | hnil
      · rw [he.order_eq_nil hz] at hmem
        exact List.not_mem_nil hmem
      · rw [hnil] at hmem
        exact List.not_mem_nil hmem
    have hinit := hd.initialised
    rw [ensureInit, if_pos hsize] at hinit
    exact iff_of_false (hnone _ hinit (.inr (hd.order_eq_nil hsize))) (hnone _ hd (.inl hsize))
  next => exact Iff.rfl

lemma Inv.entry_ensureInit (s : Nat) : entry (ensureInit d) s = entry d s := by
  unfold ensureInit
  split
  next hsize =>
    have hitems : d.items = [] := List.length_eq_zero_iff.mp (by rw [hd.length, hsize])
    unfold entry initxd
    rw [hitems, itemAt_replicate]
    rfl
  next => rfl

lemma Inv.stored_ensureInit {v : V}
    (h : Stored (ensureInit d) order k v d') : Stored d order k v d' := by
  cases h with
  | replaced i hm hpos hinv hself hother =>
    refine .replaced i ((hd.matches_ensureInit _ k i).mp hm) hpos hinv ?_ ?_
    · rw [hself, hd.entry_ensureInit]
    · intro s hs
      rw [hother s hs, hd.entry_ensureInit]
  | appended absent order' hpos hinv hent =>
    refine .appended (fun j hm => absent j ((hd.matches_ensureInit _ k j).mpr hm)) order' hpos
      hinv ?_
    rw [hent, hd.entries_ensureInit]

lemma Inv.stored_put (hpos : 0 < d.size) (hi : i < d.size)
    (free : ¬ Occ d i) (absent : ∀ j, ¬ Matches d (hash k) k j) (v : V)
    (hsettles : settles d i d.size (ideal d.size (hash k)) (hash k)) :
    ∃ d' j, put d i (hash k) k v = some (d', j) ∧ Stored d order k v d' ∧
      entry d' j = some (k, v) ∧ d'.dflt = d.dflt := by
  obtain ⟨d', order', j, hput, hinv, hent, hnew, hpos', hdflt⟩ :=
    hd.put_spec hpos v absent (.inr ⟨hi, free, hsettles⟩)
  exact ⟨d', j, hput, .appended absent order' hpos' hinv hent, hnew, hdflt⟩

end

omit [BEq K] [Hashable K] in
lemma of_entry_eq_some {v : V} (h : entry d i = some (k, v)) :
    (itemAt d.items i).k = .key k ∧ val d i = v := by
  unfold entry at h
  split at h
  · rename_i k' hk
    simp only [Option.some.injEq, Prod.mk.injEq] at h
    exact ⟨h.1 ▸ hk, h.2⟩
  · cases h

lemma Inv.spotOf_ensureInit (hd : Inv d order) (k : K) :
    ∃ i, spotOf (ensureInit d) k = some (.slot i) ∧
      ((occupied (ensureInit d) (.slot i) ∧ Matches d (hash k) k i ∧
          ∀ v, Stored d order k v (setVal (ensureInit d) i v)) ∨
        (occupied (ensureInit d) (.slot i) = false ∧ (∀ j, ¬ Matches d (hash k) k j) ∧
          ∀ v, ∃ d' j, put (ensureInit d) i (hash k) k v = some (d', j) ∧
            Stored d order k v d' ∧ entry d' j = some (k, v) ∧ d'.dflt = d.dflt)) := by
  have hinit := hd.initialised
  have hpos := ensureInit_pos d
  obtain ⟨i, hspot, hi, hm | ⟨free, absent, hsettles⟩⟩ := hinit.spotOf_spec hpos k
  · refine ⟨i, hspot, .inl ⟨hm.occ, (hd.matches_ensureInit _ k i).mp hm, fun v => ?_⟩⟩
    exact hd.stored_ensureInit (hinit.stored_setVal hi hm v)
  · refine ⟨i, hspot, .inr ⟨by simpa [Occ, occupied] using free, ?_, fun v => ?_⟩⟩
    · exact fun j hm => absent j ((hd.matches_ensureInit _ k j).mpr hm)
    · obtain ⟨d', j, hput, hstored, hnew, hdflt⟩ := hinit.stored_put hpos hi free absent v hsettles
      exact ⟨d', j, hput, hd.stored_ensureInit hstored, hnew, by rw [hdflt, ensureInit_dflt]⟩

lemma Inv.dictPutValue_spec (hd : Inv d order) (k : K) (v : V) :
    ∃ d', dictPutValue d k v = some d' ∧ Stored d order k v d' ∧ d'.dflt = d.dflt := by
  obtain ⟨i, hspot, ⟨hocc, -, hstored⟩ | ⟨hocc, -, hput⟩⟩ := hd.spotOf_ensureInit k
  · exact ⟨setVal (ensureInit d) i v, by simp [dictPutValue, hspot, hocc], hstored v,
      ensureInit_dflt d⟩
  · obtain ⟨d', j, hrun, hstored, -, hdflt⟩ := hput v
    exact ⟨d', by simp [dictPutValue, hspot, hocc, hrun], hstored, hdflt⟩

lemma Inv.dictPutValueWith_spec (hd : Inv d order) (k : K) (v : V) (f : V → V → V) :
    ∃ d' w, dictPutValueWith d k v f = some d' ∧ Stored d order k w d' ∧ d'.dflt = d.dflt := by
  obtain ⟨i, hspot, ⟨hocc, -, hstored⟩ | ⟨hocc, -, hput⟩⟩ := hd.spotOf_ensureInit k
  · exact ⟨setVal (ensureInit d) i (f (val (ensureInit d) i) v), _,
      by simp [dictPutValueWith, hspot, hocc], hstored _, ensureInit_dflt d⟩
  · obtain ⟨d', j, hrun, hstored, -, hdflt⟩ := hput v
    exact ⟨d', v, by simp [dictPutValueWith, hspot, hocc, hrun], hstored, hdflt⟩

def initialValue (d : Dict K V) (k : K) : V :=
  match d.dflt with
  | none => default
  | some f => f k

section
variable (hd : Inv d order)
include hd

lemma Inv.dictPutKeyIfNotExists_spec (k : K) :
    ∃ d' j, dictPutKeyIfNotExists d k = some (d', j) ∧ d'.dflt = d.dflt ∧
      ((Matches d (hash k) k j ∧ d' = ensureInit d) ∨
        ((∀ i, ¬ Matches d (hash k) k i) ∧ Stored d order k (initialValue d k) d' ∧
          entry d' j = some (k, initialValue d k))) := by
  obtain ⟨i, hspot, ⟨hocc, hm, -⟩ | ⟨hocc, absent, hput⟩⟩ := hd.spotOf_ensureInit k
  · exact ⟨ensureInit d, i, by simp [dictPutKeyIfNotExists, hspot, hocc], ensureInit_dflt d,
      .inl ⟨hm, rfl⟩⟩
  obtain ⟨d', j, hrun, hstored, hnew, hdflt⟩ := hput (initialValue d k)
  refine ⟨d', j, ?_, hdflt, .inr ⟨absent, hstored, hnew⟩⟩
  unfold initialValue at hrun
  cases hf : d.dflt with
  | none => simpa [dictPutKeyIfNotExists, hspot, hocc, hf] using hrun
  | some f => simpa [dictPutKeyIfNotExists, hspot, hocc, hf] using hrun

lemma Inv.not_matches_of_size_zero (hsize : d.size = 0) (h : UInt64) (k : K)
    (i : Nat) : ¬ Matches d h k i := by
  intro hm
  have := hd.lt_size hm.occ
  omega

lemma Inv.spotOf_cases (k : K) :
    (∃ i, spotOf d k = some (.slot i) ∧ occupied d (.slot i) ∧ Matches d (hash k) k i) ∨
      (∃ s, spotOf d k = some s ∧ occupied d s = false ∧ ∀ j, ¬ Matches d (hash k) k j) := by
  by_cases hsize : d.size = 0
  · refine .inr ⟨.noSuchSpot, by simp [spotOf, findSpot, hsize], rfl, ?_⟩
    exact hd.not_matches_of_size_zero hsize _ k
  · obtain ⟨i, hspot, -, hm | ⟨free, absent, -⟩⟩ := hd.spotOf_spec (by omega) k
    · exact .inl ⟨i, hspot, hm.occ, hm⟩
    · exact .inr ⟨.slot i, hspot, by simpa [Occ, occupied] using free, absent⟩

lemma Inv.dictGetValue_spec (hdflt : d.dflt = none) (k : K) :
    (∃ i, Matches d (hash k) k i ∧ dictGetValue d k = some (d, some (val d i))) ∨
      ((∀ j, ¬ Matches d (hash k) k j) ∧ dictGetValue d k = some (d, none)) := by
  rcases hd.spotOf_cases k with ⟨i, hspot, hocc, hm⟩ | ⟨s, hspot, hocc, absent⟩
  · exact .inl ⟨i, hm, by simp [dictGetValue, hspot, hocc]⟩
  · exact .inr ⟨absent, by simp [dictGetValue, hspot, hocc, hdflt]⟩

lemma Inv.dictGetValue_dflt (k : K) {f : K → V} (hf : d.dflt = some f) :
    ∃ d' v, dictGetValue d k = some (d', some v) ∧ d'.dflt = d.dflt ∧
      ((∃ i, Matches d (hash k) k i ∧ d' = d ∧ v = val d i) ∨
        (v = f k ∧ Stored d order k (f k) d')) := by
  rcases hd.spotOf_cases k with ⟨i, hspot, hocc, hm⟩ | ⟨s, hspot, hocc, absent⟩
  · exact ⟨d, val d i, by simp [dictGetValue, hspot, hocc], rfl, .inl ⟨i, hm, rfl, rfl⟩⟩
  obtain ⟨i, hspot', ⟨-, hm, -⟩ | ⟨hocc', -, hput⟩⟩ := hd.spotOf_ensureInit k
  · exact absurd hm (absent i)
  obtain ⟨d', j, hrun, hstored, hnew, hdflt⟩ := hput (f k)
  have hval := (of_entry_eq_some hnew).2
  refine ⟨d', f k, ?_, hdflt, .inr ⟨rfl, hstored⟩⟩
  simp [dictGetValue, hspot, hocc, hf, hspot', hocc', hrun, hval]

lemma Inv.dictRemove_spec (k : K) :
    (∃ i, Matches d (hash k) k i ∧ dictRemove d k = some (delete d i, val d i)) ∨
      ((∀ j, ¬ Matches d (hash k) k j) ∧ dictRemove d k = some (d, default)) := by
  rcases hd.spotOf_cases k with ⟨i, hspot, hocc, hm⟩ | ⟨s, hspot, hocc, absent⟩
  · exact .inl ⟨i, hm, by simp [dictRemove, hspot, hocc]⟩
  · refine .inr ⟨absent, ?_⟩
    cases s with
    | noSuchSpot => simp [dictRemove, hspot]
    | slot i => simp [dictRemove, hspot, hocc]

lemma Inv.delete_occ_slot (hi : Occ d i) :
    ∃ l r, order = l ++ i :: r ∧ Inv (delete d i) (l ++ r) := by
  obtain ⟨l, r, rfl⟩ := List.append_of_mem ((hd.mem i).mpr hi)
  exact ⟨l, r, rfl, hd.deleted⟩

end

end TyLang.Dict
