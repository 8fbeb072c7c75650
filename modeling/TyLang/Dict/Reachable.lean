import TyLang.Dict.Loops

/-!
The states of a dict that a program can bring about by running operations one
after the other, with any keys, equality and hash, and any other dict as the
second operand. In all of them the probe loop of `find_spot` terminates.
-/
namespace TyLang.Dict
open Cyclic

variable {K V : Type} [Inhabited V] [BEq K] [Hashable K]

/-- `u = none` in a binary operation stands for the dict itself. -/
inductive Reachable : Dict K V → Prop where
  | new : Reachable dictNew
  | setDefault {d f} : Reachable d → Reachable { d with dflt := f }
  | get {d k d' v} : Reachable d → dictGetValue d k = some (d', v) → Reachable d'
  | put {d k v d'} : Reachable d → dictPutValue d k v = some d' → Reachable d'
  | putWith {d k v f d'} : Reachable d → dictPutValueWith d k v f = some d' → Reachable d'
  | putKey {d k d' i} : Reachable d → dictPutKeyIfNotExists d k = some (d', i) → Reachable d'
  | remove {d k d' v} : Reachable d → dictRemove d k = some (d', v) → Reachable d'
  | pop {d arg d' k v} : Reachable d → dictPop d arg = some (.popped d' k v) → Reachable d'
  | clear {d} : Reachable d → Reachable (dictClear d)
  | keepMut {d f} : Reachable d → Reachable (dictKeepMut d f)
  | intersect {d u f d'} : Reachable d → (∀ o, u = some o → Reachable o) →
      dictIntersect d u f = some d' → Reachable d'
  | subtract {d u d'} : Reachable d → (∀ o, u = some o → Reachable o) →
      dictSubtract d u = some d' → Reachable d'
  | update {d u f fuel d'} : Reachable d → (∀ o, u = some o → Reachable o) →
      updateLoop u f fuel d 0 = some d' → Reachable d'

lemma Inv.setDefault {d : Dict K V} {order : List Nat} (hd : Inv d order)
    (f : Option (K → V)) : Inv { d with dflt := f } order :=
  ⟨⟨⟨⟨hd.length, hd.pow⟩, hd.nodup, hd.mem, hd.threaded, hd.clean, hd.count, hd.tombs, hd.load,
    hd.hashed, hd.distinct⟩, hd.last⟩, hd.reach⟩

lemma Reachable.inv {d : Dict K V} (h : Reachable d) : ∃ order, Inv d order := by
  induction h with
  | new => exact ⟨[], inv_dictNew⟩
  | setDefault _ ih =>
    obtain ⟨order, hd⟩ := ih
    exact ⟨order, hd.setDefault _⟩
  | @get d k d' v _ hrun ih =>
    obtain ⟨order, hd⟩ := ih
    cases hf : d.dflt with
    | none =>
      rcases hd.dictGetValue_spec hf k with ⟨i, -, hget⟩ | ⟨-, hget⟩ <;>
      · cases hget.symm.trans hrun
        exact ⟨order, hd⟩
    | some f =>
      obtain ⟨e, w, hget, -, ⟨i, -, rfl, -⟩ | ⟨-, hstored⟩⟩ := hd.dictGetValue_dflt k hf
      · cases hget.symm.trans hrun
        exact ⟨order, hd⟩
      · cases hget.symm.trans hrun
        exact hstored.inv
  | @put d k v d' _ hrun ih =>
    obtain ⟨order, hd⟩ := ih
    obtain ⟨e, hput, hstored, -⟩ := hd.dictPutValue_spec k v
    cases hput.symm.trans hrun
    exact hstored.inv
  | @putWith d k v f d' _ hrun ih =>
    obtain ⟨order, hd⟩ := ih
    obtain ⟨e, w, hput, hstored, -⟩ := hd.dictPutValueWith_spec k v f
    cases hput.symm.trans hrun
    exact hstored.inv
  | @putKey d k d' i _ hrun ih =>
    obtain ⟨order, hd⟩ := ih
    obtain ⟨e, j, hput, -, ⟨-, rfl⟩ | ⟨-, hstored, -⟩⟩ := hd.dictPutKeyIfNotExists_spec k
    · cases hput.symm.trans hrun
      exact ⟨order, hd.initialised⟩
    · cases hput.symm.trans hrun
      exact hstored.inv
  | @remove d k d' v _ hrun ih =>
    obtain ⟨order, hd⟩ := ih
    rcases hd.dictRemove_spec k with ⟨i, hm, hrem⟩ | ⟨-, hrem⟩
    · cases hrem.symm.trans hrun
      obtain ⟨l, r, -, hdel⟩ := hd.delete_occ_slot hm.occ
      exact ⟨l ++ r, hdel⟩
    · cases hrem.symm.trans hrun
      exact ⟨order, hd⟩
  | @pop d arg d' k v _ hrun ih =>
    obtain ⟨order, hd⟩ := ih
    rcases hd.dictPop_spec arg with ⟨-, msg, hpop⟩ | ⟨l, s, r, k', rfl, -, -, hpop⟩
    · cases hpop.symm.trans hrun
    · cases hpop.symm.trans hrun
      exact ⟨l ++ r, hd.deleted⟩
  | clear _ ih =>
    obtain ⟨order, hd⟩ := ih
    exact ⟨[], hd.cleared⟩
  | keepMut _ ih =>
    obtain ⟨order, hd⟩ := ih
    obtain ⟨order', hkeep, -⟩ := hd.dictKeepMut_spec _
    exact ⟨order', hkeep⟩
  | intersect _ _ hrun ih ihu =>
    obtain ⟨order, hd⟩ := ih
    obtain ⟨e, order', hint, hinv⟩ := hd.dictIntersect_spec ihu
    cases hint.symm.trans hrun
    exact ⟨order', hinv⟩
  | subtract _ _ hrun ih ihu =>
    obtain ⟨order, hd⟩ := ih
    obtain ⟨e, order', hsub, hinv⟩ := hd.dictSubtract_spec ihu
    cases hsub.symm.trans hrun
    exact ⟨order', hinv⟩
  | update _ _ hrun ih _ =>
    obtain ⟨order, hd⟩ := ih
    exact updateLoop_inv hd hrun

/-- In every reachable state an initialised table has a power of two slots, one
of them empty, and `find_spot` returns for every hash and key. -/
theorem Reachable.findSpot_returns {d : Dict K V} (h : Reachable d) :
    (0 < d.size → (∃ i, i < d.size ∧ d.items.length = d.size ∧ (itemAt d.items i).k = .empty) ∧
      ∃ n, d.size = 2 ^ n) ∧
    ∀ hash k, ∃ s, findSpot d.size d.items hash k = some s := by
  obtain ⟨order, hd⟩ := h.inv
  refine ⟨fun hpos => ⟨?_, ?_⟩, ?_⟩
  · obtain ⟨e, he, hempty⟩ := hd.exists_empty hpos
    refine ⟨e, he, hd.length, ?_⟩
    unfold NonEmpty at hempty
    cases hk : (itemAt d.items e).k with
    | empty => rfl
    | tomb | key _ => rw [hk] at hempty; exact absurd rfl hempty
  · obtain ⟨n, -, hn⟩ := hd.toShape.pow_of_pos hpos
    exact ⟨n, hn⟩
  · intro hash k
    obtain ⟨s, hs, -⟩ := hd.findSpot_total hash k
    exact ⟨s, hs⟩

theorem findSpot_returns_after_remove :
    ∃ d : Dict Nat Nat, Reachable d ∧ d.size = 8 ∧ d.tombs = 1 ∧
      ((∃ i, i < d.size ∧ d.items.length = d.size ∧ (itemAt d.items i).k = .empty) ∧
        ∃ n, d.size = 2 ^ n) ∧
      ∀ hash k, ∃ s, findSpot d.size d.items hash k = some s := by
  have hreach := Reachable.remove (k := 9) (.put (k := 9) (v := 2) .new rfl) rfl
  exact ⟨_, hreach, rfl, rfl, hreach.findSpot_returns.1 (by decide), hreach.findSpot_returns.2⟩

end TyLang.Dict
