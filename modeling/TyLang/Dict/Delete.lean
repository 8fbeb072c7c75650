import TyLang.Dict.Update

/-!
The remaining writes to a table: deleting an item, overwriting a value, clearing
all items and allocating the first table.
-/
namespace TyLang.Dict
open List Cyclic

variable {K V : Type} [Inhabited V]

section Delete
variable {d : Dict K V} {i : Nat}

@[simp] lemma delete_size : (delete d i).size = d.size := by
  simp only [delete]
  split <;> simp

@[simp] lemma delete_count : (delete d i).count = d.count - 1 := by
  simp only [delete]
  split <;> simp

@[simp] lemma delete_tombs : (delete d i).tombs = d.tombs + 1 := by
  simp only [delete]
  split <;> simp

@[simp] lemma delete_dflt : (delete d i).dflt = d.dflt := by
  simp only [delete]
  split <;> simp

@[simp] lemma delete_length : (delete d i).items.length = d.items.length := by
  simp only [delete]
  split <;> simp

lemma delete_last :
    (delete d i).last =
      if (itemAt d.items i).next = none then (itemAt d.items i).prev else d.last := by
  simp only [delete]
  cases (itemAt d.items i).next <;> simp

variable [BEq K] [Hashable K] {order : List Nat}

section
variable (hd : Core d order) (hi : i ∈ order)
include hd hi

lemma Core.itemAt_delete (s : Nat) :
    itemAt (delete d i).items s =
      if s = i then DictItem.tombstone
      else { itemAt d.items s with
        prev := if (itemAt d.items i).next = some s then (itemAt d.items i).prev
          else (itemAt d.items s).prev
        next := if (itemAt d.items i).prev = some s then (itemAt d.items i).next
          else (itemAt d.items s).next } := by
  have hi := ((hd.mem i).mp hi).lt
  have hprev : ∀ p, (itemAt d.items i).prev = some p → p < d.items.length := fun _ => hd.prev_lt
  have hnext : ∀ n, (itemAt d.items i).next = some n → n < d.items.length := fun _ => hd.next_lt
  simp only [delete]
  cases hn : (itemAt d.items i).next with
  | none =>
    rw [itemAt_write _ i s _ (by simpa using hi), itemAt_setNext _ _ (by simpa using hprev)]
    simp
  | some n =>
    simp only [ne_eq, reduceCtorEq, not_false_eq_true, if_true]
    rw [itemAt_write _ i s _ (by simpa using hi), itemAt_setNext _ _ (by simpa using hprev),
      itemAt_setPrev _ _ (by simpa [hn] using hnext)]

lemma Core.delete_content {s : Nat} (hs : s ≠ i) : content (delete d i) s = content d s := by
  rw [content, hd.itemAt_delete hi, if_neg hs]
  rfl

lemma Core.delete_occ (s : Nat) : Occ (delete d i) s ↔ s ≠ i ∧ Occ d s := by
  unfold Occ
  rw [hd.itemAt_delete hi]
  split
  next h => simp [h, DictItem.tombstone, SlotKey.occupied]
  next h => simp [h]

lemma Core.delete_nonEmpty {s : Nat} (hs : NonEmpty d s) : NonEmpty (delete d i) s := by
  unfold NonEmpty
  rw [hd.itemAt_delete hi]
  split
  · rfl
  · exact hs

end

/-- Unlinking an item keeps the others where they are; its slot becomes a
tombstone, so that no probe sequence is cut. -/
lemma Inv.deleted {l r : List Nat} (hd : Inv d (l ++ i :: r)) : Inv (delete d i) (l ++ r) := by
  have hi : i ∈ l ++ i :: r := by simp
  have hsub : (l ++ r).Sublist (l ++ i :: r) := (sublist_cons_self i r).append_left l
  have hfresh : i ∉ l ++ r := by
    have := hd.nodup
    rw [nodup_middle, nodup_cons] at this
    exact this.1
  have hne : ∀ s ∈ l ++ r, s ≠ i := fun s hs e => hfresh (e ▸ hs)
  have hcontent : ∀ s ∈ l ++ r, content (delete d i) s = content d s :=
    fun s hs => hd.delete_content hi (hne s hs)
  have hcount : d.count = (l ++ r).length + 1 := by
    rw [hd.count]
    simp
    omega
  have htombs := countP_update (delete d i).items (fun it => it.k.isTomb) delete_length
    ((hd.mem i).mp hi).lt (fun s hs => by rw [hd.itemAt_delete hi, if_neg hs])
  have hself : (itemAt (delete d i).items i).k.isTomb := by
    rw [hd.itemAt_delete hi, if_pos rfl]
    rfl
  have hold : (itemAt d.items i).k.isTomb = false := by
    obtain ⟨k, hk⟩ := ((hd.mem i).mp hi).exists_key
    rw [hk]
    rfl
  have hlinked : Linked (fun s => (itemAt (delete d i).items s).next)
      (fun s => (itemAt (delete d i).items s).prev) (delete d i).last (l ++ r) := by
    refine hd.linked.unlink hd.nodup ?_ ?_ delete_last
    · intro s hs
      rw [hd.itemAt_delete hi, if_neg (hne s hs)]
    · intro s hs
      rw [hd.itemAt_delete hi, if_neg (hne s hs)]
  refine ⟨⟨⟨⟨by simpa using hd.length, by simpa using hd.pow⟩, hd.nodup.sublist hsub, ?_,
    ?_, ?_, ?_, ?_, ?_, ?_, ?_⟩, hlinked.last_eq⟩, ?_⟩
  · intro s
    rw [hd.delete_occ hi, ← hd.mem]
    constructor
    · exact fun hs => ⟨hne s hs, hsub.subset hs⟩
    · rintro ⟨hsi, hs⟩
      simpa [hsi] using hs
  · rwa [← hlinked.last_eq]
  · intro s hs
    rw [hd.itemAt_delete hi]
    split
    next => exact ⟨rfl, rfl⟩
    next hsi =>
      have hfree : ¬ Occ d s := fun ho => hs ((hd.delete_occ hi s).mpr ⟨hsi, ho⟩)
      have hnext : (itemAt d.items i).next ≠ some s := fun h =>
        hfree ((hd.mem s).mp (hd.mem_of_next h).2)
      have hprev : (itemAt d.items i).prev ≠ some s := fun h =>
        hfree ((hd.mem s).mp (hd.mem_of_next (hd.next_eq_some.mpr h)).1)
      simp only [if_neg hnext, if_neg hprev]
      exact hd.clean s hfree
  · rw [delete_count, hcount]
    rfl
  · rw [hself, hold, ← hd.tombs] at htombs
    simpa using htombs.symm
  · intro hpos
    rw [delete_size] at hpos ⊢
    have := hd.load hpos
    rw [delete_count, delete_tombs]
    omega
  · intro s k hk
    have hs : s ≠ i ∧ Occ d s := (hd.delete_occ hi s).mp (occ_of_key hk)
    have hc := hd.delete_content hi hs.1
    simp only [content, Prod.mk.injEq] at hc
    rw [hc.1] at hk
    rw [hc.2.2]
    exact hd.hashed s k hk
  · refine (hd.distinct.sublist hsub).imp_of_mem ?_
    intro a b ha hb hab k hk hm
    have hca := hcontent a ha
    have hcb := hcontent b hb
    simp only [content, Prod.mk.injEq] at hca hcb
    rw [hcb.1] at hk
    refine hab k hk ?_
    unfold Matches at hm ⊢
    rwa [hca.1, hca.2.2, hcb.2.2] at hm
  · intro s hs
    have hs := (hd.delete_occ hi s).mp hs
    have hc := hd.delete_content hi hs.1
    simp only [content, Prod.mk.injEq] at hc
    rw [Reached, hc.2.2, delete_size]
    exact (hd.reach s hs.2).mono fun t => hd.delete_nonEmpty hi

lemma Inv.entries_delete {l r : List Nat} (hd : Inv d (l ++ i :: r)) :
    entries (delete d i) (l ++ r) = entries d (l ++ r) := by
  have hi : i ∈ l ++ i :: r := by simp
  have hfresh : i ∉ l ++ r := by
    have := hd.nodup
    rw [nodup_middle, nodup_cons] at this
    exact this.1
  refine entries_of_contents (map_congr_left ?_)
  exact fun s hs => hd.delete_content hi fun e => hfresh (e ▸ hs)

end Delete

section SetVal
variable {d : Dict K V} {i : Nat} {v : V}

section
variable (hi : i < d.items.length)
include hi

lemma itemAt_setVal (s : Nat) :
    itemAt (setVal d i v).items s =
      { itemAt d.items s with v := if s = i then v else (itemAt d.items s).v } := by
  rw [setVal, itemAt_write d i s _ hi]
  split
  next h => rw [h]
  next => rfl

lemma setVal_occ (s : Nat) : Occ (setVal d i v) s ↔ Occ d s := by
  unfold Occ
  rw [itemAt_setVal hi]

lemma entry_setVal {s : Nat} (hs : s ≠ i) : entry (setVal d i v) s = entry d s := by
  unfold entry val
  rw [itemAt_setVal hi, if_neg hs]

lemma entry_setVal_self : entry (setVal d i v) i = (entry d i).map fun e => (e.1, v) := by
  unfold entry val
  rw [itemAt_setVal hi, if_pos rfl]
  cases (itemAt d.items i).k <;> rfl

end

variable [BEq K] [Hashable K] {order : List Nat}

lemma Inv.overwritten (hd : Inv d order) (hi : i < d.size) (v : V) : Inv (setVal d i v) order := by
  have hlen : i < d.items.length := by rwa [hd.length]
  have hitem := fun s => itemAt_setVal (v := v) hlen s
  have htombs := countP_update (setVal d i v).items (fun it => it.k.isTomb)
    (write_length d i _) hlen (fun s hs => by rw [hitem])
  refine ⟨⟨⟨⟨by simpa [setVal] using hd.length, hd.pow⟩, hd.nodup, ?_, ?_, ?_, hd.count, ?_,
    hd.load, ?_, ?_⟩, hd.last⟩, ?_⟩
  · exact fun s => (hd.mem s).trans (setVal_occ hlen s).symm
  · exact hd.threaded.congr (fun s _ => by rw [hitem]) (fun s _ => by rw [hitem])
  · intro s hs
    rw [hitem]
    exact hd.clean s fun ho => hs ((setVal_occ hlen s).mpr ho)
  · rw [hitem, ← hd.tombs] at htombs
    exact (Nat.add_right_cancel htombs).symm
  · intro s k hk
    rw [hitem] at hk ⊢
    exact hd.hashed s k hk
  · refine hd.distinct.imp ?_
    intro a b hab k hk hm
    rw [hitem] at hk hm
    refine hab k hk ?_
    rwa [Matches, hitem] at hm
  · intro s hs
    rw [Reached, hitem]
    refine (hd.reach s ((setVal_occ hlen s).mp hs)).mono ?_
    intro t ht
    rwa [NonEmpty, hitem]

end SetVal

section Alloc
variable [BEq K] [Hashable K] {d : Dict K V} {order : List Nat}

lemma inv_dictNew : Inv (dictNew : Dict K V) [] := Inv.zeroed (.inl rfl) rfl rfl rfl rfl rfl

lemma Inv.cleared (hd : Inv d order) : Inv (dictClear d) [] :=
  Inv.zeroed hd.pow rfl rfl rfl rfl rfl

lemma Inv.order_eq_nil (hd : Inv d order) (hsize : d.size = 0) : order = [] := by
  have := hd.length_order_le
  exact length_eq_zero_iff.mp (by omega)

omit [BEq K] [Hashable K] in
lemma ensureInit_pos (d : Dict K V) : 0 < (ensureInit d).size := by
  unfold ensureInit
  split
  · exact Nat.zero_lt_succ 7
  · omega

omit [BEq K] [Hashable K] in
@[simp] lemma ensureInit_dflt (d : Dict K V) : (ensureInit d).dflt = d.dflt := by
  unfold ensureInit
  split <;> rfl

lemma Inv.initialised (hd : Inv d order) : Inv (ensureInit d) order := by
  unfold ensureInit
  split
  next hsize =>
    have hnil := hd.order_eq_nil hsize
    subst hnil
    have hitems : d.items = [] := length_eq_zero_iff.mp (by rw [hd.length, hsize])
    refine Inv.zeroed (n := INITIAL_SIZE) (.inr ⟨3, .refl, rfl⟩) rfl rfl ?_ ?_ ?_
    · exact hd.count
    · exact hd.tombs.trans (by rw [hitems]; rfl)
    · exact hd.last
  next => exact hd

lemma Inv.entries_ensureInit (hd : Inv d order) :
    entries (ensureInit d) order = entries d order := by
  unfold ensureInit
  split
  next hsize => rw [hd.order_eq_nil hsize]; rfl
  next => rfl

end Alloc

end TyLang.Dict
