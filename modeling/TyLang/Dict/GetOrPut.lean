import TyLang.Dict.Displace
import TyLang.Dict.Reachable
import TyLang.Dict.Refinement

/-!
`dict_get_or_put_with`, whose callback may run operations on the very dict that
the key is about to be stored in. The slot found before the call is used after
it unless the table was replaced or the slot was taken. This is right exactly
when the key is still missing and the walk of `robinhood` from the old slot
settles, or the table has to grow anyway.
-/
namespace TyLang.Dict
open Cyclic OrderedMap Option

variable {K V : Type} [Inhabited V] [BEq K] [Hashable K]

/-- The end of `dict_get_or_put_with`, after the callback has returned `v` and
left `d`. The `items` pointer only ever changes together with `size`, so the
test of both is the test of `size`. -/
def storeAfterCall (size i : Nat) (key : K) (d : Dict K V) (v : V) : Option (Dict K V × V) :=
  match if d.size ≠ size ∨ occupied d (.slot i) then spotOf d key else some (.slot i) with
  | some (.slot i) =>
    if occupied d (.slot i) then some (setVal d i v, v)
    else (put d i (hash key) key v).map fun r => (r.1, v)
  | _ => none

/-- `dict_get_or_put_with`; `f` is the callback, run on the dict as it is. -/
def dictGetOrPutWith (d : Dict K V) (key : K) (f : Dict K V → Option (Dict K V × V)) :
    Option (Dict K V × V) :=
  let d := ensureInit d
  match spotOf d key with
  | some (.slot i) =>
    if occupied d (.slot i) then some (d, val d i)
    else
      match f d with
      | some (d', v) => storeAfterCall d.size i key d' v
      | none => none
  | _ => none

def contents (d : Dict K V) : List (K × V) :=
  (chase (fun i => (itemAt d.items i).next) d.size ((dictFirst d).getD none)).filterMap (entry d)

section Bad
variable {d : Dict K V} {order : List Nat} {m : List (K × V)} {k : K} {i : Nat}

lemma Core.contents_eq (hd : Core d order) : contents d = entries d order := by
  unfold contents entries
  rw [hd.dictFirst_eq, getD_some,
    hd.linked.chase_next (List.nil_append order).symm hd.length_order_le]

lemma Broken.not_represents (hd : Broken d) : ¬ Represents d m := by
  intro hrep
  rcases hd with ⟨t, hlast, hfree⟩ | ⟨order, p, hcore, hocc, hreach⟩
  · obtain ⟨order, -, hmem, -, hchase⟩ := hrep.list
    have hwalk := (hchase (order.length + 1) (by omega)).1
    rw [hlast, chase] at hwalk
    have ht : t ∈ order.reverse := hwalk ▸ List.mem_cons_self
    exact hfree ((hmem t).mp (List.mem_reverse.mp ht))
  · obtain ⟨k, hk⟩ := hocc.exists_key
    have hfound := hrep.found p k hk
    rw [spotOf, ← hcore.hashed p k hk] at hfound
    exact hcore.findSpot_ne hocc hreach hfound

section Inserted
variable {d' : Dict K V} {v : V} {s : Nat} (hd : Inv d order)
  (hrun : robinhood (insertItem d i (hash k) k v) i = some (d', s))
include hd hrun

lemma Inv.robinhood_permuted (hi : i < d.size) : Permuted (insertItem d i (hash k) k v) d' := by
  have hshape : Shape (insertItem d i (hash k) k v) :=
    ⟨by simpa using hd.length, by simpa using hd.pow⟩
  have hi' : i < (insertItem d i (hash k) k v).size := by simpa using hi
  have hstart := hshape.ideal_lt (by omega) (itemAt (insertItem d i (hash k) k v).items i).h
  obtain ⟨d'', j, hloop, hperm⟩ := robinhoodLoop_permuted hshape hstart hi' (ahead_lt hstart hi')
  cases hrun.symm.trans hloop
  exact hperm

lemma Inv.robinhood_duplicate (hi : i < d.size) (free : ¬ Occ d i) {j : Nat} {k' : K}
    (hj : (itemAt d.items j).k = .key k') (hkk : (k' == k)) : ¬ Represents d' m := by
  intro hrep
  obtain ⟨σ, hσ⟩ := (hd.robinhood_permuted hrun hi).keys
  have hji : j ≠ i := fun h => free (h ▸ occ_of_key hj)
  have h1 : (itemAt d'.items (σ.symm j)).k = .key k' := by
    rw [hσ, Equiv.apply_symm_apply, (hd.insertItem_content hi j hji).1, hj]
  have h2 : (itemAt d'.items (σ.symm i)).k = .key k := by
    rw [hσ, Equiv.apply_symm_apply, hd.itemAt_insertItem_self hi]
  exact hji (σ.symm.injective (hrep.unique _ _ k' k h1 h2 hkk))

lemma Inv.robinhood_overwrite (hocc : Occ d i) : ¬ Represents d' m := by
  intro hrep
  have hi := hd.lt_size hocc
  have hperm := hd.robinhood_permuted hrun hi
  have hcount := countP_update (insertItem d i (hash k) k v).items (fun it => it.k.occupied)
    insertItem_length hocc.lt (fun s hs => by rw [(hd.insertItem_content hi s hs).1])
  have hself : (itemAt (insertItem d i (hash k) k v).items i).k.occupied := by
    rw [hd.itemAt_insertItem_self hi]
    rfl
  rw [hself, show (itemAt d.items i).k.occupied from hocc, ← hperm.occupied,
    ← hd.count_occupied, ← hrep.count, hperm.count, insertItem_count] at hcount
  omega

lemma Inv.robinhood_unsettled (hi : i < d.size) (free : ¬ Occ d i)
    (room : d.count + d.tombs + 1 < d.size) (absent : ∀ j, ¬ Matches d (hash k) k j)
    (hsettles : settles d i d.size (ideal d.size (hash k)) (hash k) = false) :
    ¬ Represents d' m := by
  have hself := hd.itemAt_insertItem_self (h := hash k) (k := k) (v := v) hi
  have hstart := hd.toShape.ideal_lt (by omega) (hash k)
  have hcore := hd.inserted (v := v) hi free room absent
  have hloop : robinhoodLoop ((insertItem d i (hash k) k v).size - 1) i d.size
      (insertItem d i (hash k) k v) (ideal d.size (hash k)) i = some (d', s) := by
    simpa [robinhood, hself, ideal] using hrun
  have hdoom : Doomed (insertItem d i (hash k) k v) (ideal d.size (hash k)) i d.size :=
    .inl (by rwa [hself, hd.settles_insertItem hi hstart])
  refine (hcore.doomed_run (by simp) (by simpa using hstart) hdoom ?_ hloop).not_represents
  intro z hz
  rw [insertItem_last, some.injEq] at hz
  exact .inl hz.symm

end Inserted

end Bad

section Stale
variable [EquivBEq K] [LawfulHashable K] {d : Dict K V} {order : List Nat} {k : K} {i : Nat}

/-- The condition under which the slot `i`, found for `k` in a table of `size`
slots before the callback ran, serves in the dict `d` that the callback left. -/
def SlotServes (d : Dict K V) (size : Nat) (k : K) (i : Nat) : Prop :=
  d.size ≠ size ∨ occupied d (.slot i) ∨
    (¬ Has (contents d) k ∧ (shouldRehash d ∨
      settles d i d.size (ideal d.size (hash k)) (hash k)))

lemma Inv.put_represents_iff (hd : Inv d order) (hi : i < d.size) (free : ¬ Occ d i) (v : V) :
    (∃ d' s, put d i (hash k) k v = some (d', s) ∧
        Represents d' (OrderedMap.put (entries d order) k v)) ↔
      ¬ Has (entries d order) k ∧ (shouldRehash d ∨
        settles d i d.size (ideal d.size (hash k)) (hash k)) := by
  have hpos : 0 < d.size := by omega
  have hinit : ensureInit d = d := if_neg (by omega)
  constructor
  · rintro ⟨d', s, hput, hrep⟩
    simp only [put, hinit] at hput
    by_cases hhas : Has (entries d order) k
    · obtain ⟨j, hm⟩ := hd.has_iff.mp hhas
      by_cases hfull : shouldRehash d
      · obtain ⟨e, order', hrehash, he, hcontents, hsize, -, -, -⟩ := hd.rehash_spec hpos
        have hpresent : ∃ j, Matches e (hash k) k j := by
          rw [he.exists_matches, hcontents, ← hd.exists_matches]
          exact ⟨j, hm⟩
        obtain ⟨r, hspot, hr, hmr | ⟨-, -, habsent⟩⟩ := he.findSpot_spec (by omega) (hash k) k
        · simp only [hfull, if_true, hrehash, hspot] at hput
          exact absurd hrep (he.robinhood_overwrite hput hmr.occ)
        · obtain ⟨j, hmj⟩ := hpresent
          exact absurd hmj (habsent j)
      · obtain ⟨k', hk', hkk⟩ := hd.matches_iff.mp hm
        rw [if_neg hfull] at hput
        exact absurd hrep (hd.robinhood_duplicate hput hi free hk' hkk)
    · refine ⟨hhas, ?_⟩
      by_contra hbad
      rw [not_or, Bool.not_eq_true, Bool.not_eq_true] at hbad
      have hroom : d.count + d.tombs + 1 < d.size := by
        have hbig := hd.toShape.eight_le hpos
        have hload := hbad.1
        simp only [shouldRehash, ge_iff_le, decide_eq_false_iff_not] at hload
        omega
      rw [if_neg (by simp [hbad.1])] at hput
      exact absurd hrep (hd.robinhood_unsettled hput hi free hroom
        (fun j hm => hhas (hd.has_iff.mpr ⟨j, hm⟩)) hbad.2)
  · rintro ⟨hhas, hslot⟩
    have habsent : ∀ j, ¬ Matches d (hash k) k j := fun j hm => hhas (hd.has_iff.mpr ⟨j, hm⟩)
    obtain ⟨d', order', s, hput, hinv, hent, -, hpos', -⟩ :=
      hd.put_spec hpos v habsent (hslot.imp_right fun h => ⟨hi, free, h⟩)
    have hstored : Stored d order k v d' := .appended habsent order' hpos' hinv hent
    exact ⟨d', s, hput, (hstored.refines hd).represents⟩

lemma Inv.storeAfterCall_represents_iff (hd : Inv d order) (hpos : 0 < d.size) {size : Nat}
    (hi : i < size) (v : V) :
    (∃ d', storeAfterCall size i k d v = some (d', v) ∧
        Represents d' (OrderedMap.put (contents d) k v)) ↔ SlotServes d size k i := by
  unfold storeAfterCall SlotServes
  rw [hd.contents_eq]
  by_cases hagain : d.size ≠ size ∨ occupied d (.slot i)
  · rw [if_pos hagain]
    refine iff_of_true ?_ (hagain.imp_right .inl)
    obtain ⟨j, hspot, hj, hm | ⟨free, absent, hsettles⟩⟩ := hd.spotOf_spec hpos k
    · have hocc : occupied d (.slot j) := hm.occ
      simp only [hspot, hocc, if_true]
      exact ⟨_, rfl, ((hd.stored_setVal hj hm v).refines hd).represents⟩
    · have hocc : ¬ occupied d (.slot j) := free
      obtain ⟨d', s, hput, hrep⟩ :=
        (hd.put_represents_iff hj free v).mpr ⟨hd.not_has absent, .inr hsettles⟩
      simp only [hspot, if_neg hocc, hput]
      exact ⟨d', rfl, hrep⟩
  · rw [if_neg hagain]
    rw [not_or, not_not] at hagain
    obtain ⟨hsize, hocc⟩ := hagain
    simp only [hsize, ne_eq, not_true_eq_false, hocc, false_or, Bool.false_eq_true, if_false]
    rw [← hsize, ← hd.put_represents_iff (by omega) hocc v]
    constructor
    · rintro ⟨d', hmap, hrep⟩
      obtain ⟨⟨e, s⟩, hput, he⟩ := map_eq_some_iff.mp hmap
      cases he
      exact ⟨e, s, hput, hrep⟩
    · rintro ⟨d', s, hput, hrep⟩
      exact ⟨d', by rw [hput]; rfl, hrep⟩

/-- For every reachable dict, every missing key and every callback that runs
operations on the dict, the result holds the callback's map with the key put
into it if and only if the slot found before the callback still serves. -/
theorem dictGetOrPutWith_represents_iff (hd : Reachable d)
    (hspot : spotOf (ensureInit d) k = some (.slot i))
    (habsent : occupied (ensureInit d) (.slot i) = false) (ops : List (Op K V)) (v : V)
    {d₁ : Dict K V} (hrun : runOps ops (ensureInit d) = some d₁) :
    (∃ d₂, dictGetOrPutWith d k (fun e => (runOps ops e).map fun e => (e, v)) = some (d₂, v) ∧
        Represents d₂ (OrderedMap.put (contents d₁) k v)) ↔
      SlotServes d₁ (ensureInit d).size k i := by
  obtain ⟨order, hinv⟩ := hd.inv
  have hpos := ensureInit_pos d
  have hi : i < (ensureInit d).size := by
    obtain ⟨j, hspot', hj, -⟩ := hinv.initialised.spotOf_spec hpos k
    cases hspot'.symm.trans hspot
    exact hj
  obtain ⟨e, hrun', ⟨order₁, hinv₁, -⟩, -, hpos₁⟩ :=
    runOps_refines ops (⟨order, hinv.initialised, rfl⟩ : Refines (ensureInit d) _)
  cases hrun'.symm.trans hrun
  rw [← hinv₁.storeAfterCall_represents_iff (hpos₁ hpos) hi v]
  simp only [dictGetOrPutWith, hspot, habsent, hrun, map_some]
  rfl

instance (d : Dict K V) (size : Nat) (k : K) (i : Nat) : Decidable (SlotServes d size k i) :=
  inferInstanceAs (Decidable (_ ∨ _ ∨ (¬ Has (contents d) k ∧ (_ ∨ _))))

end Stale

/-- A callback that removes the key 1, on whose account the key 9 was to go to
the slot 2, leaves that slot in order. -/
theorem dictGetOrPutWith_after_remove :
    ∃ d d₁ d₂ : Dict Nat Nat, dictPutValue dictNew 1 10 = some d ∧
      runOps [.remove 1] d = some d₁ ∧
      dictGetOrPutWith d 9 (fun e => (runOps [.remove 1] e).map fun e => (e, 7)) =
        some (d₂, 7) ∧
      Represents d₂ [(9, 7)] := by
  obtain ⟨d₂, hrun, hrep⟩ := (dictGetOrPutWith_represents_iff (k := 9) (i := 2)
    (.put (k := 1) (v := 10) .new rfl : Reachable (K := Nat) (V := Nat) _) rfl rfl [.remove 1] 7
    rfl).mpr (by decide)
  exact ⟨_, _, d₂, rfl, rfl, hrun, hrep⟩

/-- A callback that removes the key 1 and puts the key 9 itself: the key goes to
the slot that became free, and then a second time to the slot found before. -/
theorem dictGetOrPutWith_duplicates :
    ∃ d d₂ : Dict Nat Nat, Reachable d ∧ dictGetValue d 9 = some (d, none) ∧
      dictGetOrPutWith d 9
        (fun e => (runOps [.remove 1, .putValue 9 5] e).map fun e => (e, 7)) = some (d₂, 7) ∧
      (itemAt d₂.items 1).k = .key 9 ∧ (itemAt d₂.items 2).k = .key 9 ∧
      ∀ m, ¬ Represents d₂ m := by
  refine ⟨_, _, .put (k := 1) (v := 10) .new rfl, rfl, rfl, rfl, rfl, ?_⟩
  intro m hrep
  exact absurd (hrep.unique 1 2 9 9 rfl rfl rfl) (by decide)

end TyLang.Dict
