import TyLang.Dict.RobinHood

/-!
The internal operations that change a table (`put`, `rehash`, `delete`, and the
clearing of all items) preserve the invariant. Each lemma says what becomes of
the contents, read in insertion order.
-/
namespace TyLang.Dict
open List Cyclic

variable {K V : Type} [Inhabited V]

section Insert
variable {d : Dict K V} {i : Nat} {h : UInt64} {k : K} {v : V}

@[simp] lemma insertItem_size : (insertItem d i h k v).size = d.size := by
  simp only [insertItem]
  split <;> simp

@[simp] lemma insertItem_count : (insertItem d i h k v).count = d.count + 1 := by
  simp only [insertItem]
  split <;> simp

@[simp] lemma insertItem_last : (insertItem d i h k v).last = some i := rfl

@[simp] lemma insertItem_dflt : (insertItem d i h k v).dflt = d.dflt := by
  simp only [insertItem]
  split <;> simp

@[simp] lemma insertItem_length : (insertItem d i h k v).items.length = d.items.length := by
  simp only [insertItem]
  split <;> simp

lemma insertItem_items :
    (insertItem d i h k v).items =
      (setNext d d.last (some i)).items.modify i fun _ => ⟨.key k, v, h, d.last, none⟩ := by
  simp only [insertItem]
  split <;> cases hl : d.last <;> simp [setNext, write, hl]

lemma insertItem_tombs :
    (insertItem d i h k v).tombs =
      if (itemAt d.items i).k.isTomb then d.tombs - 1 else d.tombs := by
  simp only [insertItem]
  split <;> simp

lemma itemAt_insertItem (hi : i < d.items.length)
    (hlast : ∀ l, d.last = some l → l < d.items.length) (s : Nat) :
    itemAt (insertItem d i h k v).items s =
      if s = i then ⟨.key k, v, h, d.last, none⟩
      else { itemAt d.items s with
        next := if d.last = some s then some i else (itemAt d.items s).next } := by
  simp only [insertItem]
  split
  · rw [itemAt_write _ i s _ (by simpa using hi)]
    split
    next => simp
    next => rw [itemAt_setNext _ _ (by simpa using hlast)]
  · rw [itemAt_write _ i s _ (by simpa using hi)]
    split
    next => simp
    next => rw [itemAt_setNext _ _ hlast]

variable [BEq K] [Hashable K] {order : List Nat}

lemma Core.last_lt (hd : Core d order) {l : Nat} (hl : d.last = some l) : l < d.items.length :=
  ((hd.mem l).mp (hd.linked.last_mem hl)).lt

section
variable (hi : i < d.size)
include hi

section
variable (hd : Core d order)
include hd

lemma Core.insertItem_content (s : Nat) (hs : s ≠ i) :
    (itemAt (insertItem d i h k v).items s).k = (itemAt d.items s).k ∧
      (itemAt (insertItem d i h k v).items s).v = (itemAt d.items s).v ∧
      (itemAt (insertItem d i h k v).items s).h = (itemAt d.items s).h ∧
      (itemAt (insertItem d i h k v).items s).prev = (itemAt d.items s).prev := by
  rw [itemAt_insertItem (by rwa [hd.length]) (fun l => hd.last_lt), if_neg hs]
  exact ⟨rfl, rfl, rfl, rfl⟩

lemma Core.itemAt_insertItem_self :
    itemAt (insertItem d i h k v).items i = ⟨.key k, v, h, d.last, none⟩ := by
  rw [itemAt_insertItem (by rwa [hd.length]) (fun l => hd.last_lt), if_pos rfl]

lemma Core.insertItem_occ (s : Nat) : Occ (insertItem d i h k v) s ↔ s = i ∨ Occ d s := by
  by_cases hs : s = i
  · subst hs
    exact iff_of_true (occ_of_key (by rw [hd.itemAt_insertItem_self hi])) (.inl rfl)
  · unfold Occ
    rw [(hd.insertItem_content hi s hs).1]
    simp [hs]

lemma Core.insertItem_nonEmpty {s : Nat}
    (hs : NonEmpty d s) : NonEmpty (insertItem d i h k v) s := by
  by_cases hsi : s = i
  · subst hsi
    exact ((hd.insertItem_occ hi s).mpr (.inl rfl)).nonEmpty
  · unfold NonEmpty
    rw [(hd.insertItem_content hi s hsi).1]
    exact hs

/-- A key that answers to no stored item may be stored in any free slot, as far
as the list, the counters and the distinctness of keys are concerned. -/
lemma Core.inserted (free : ¬ Occ d i)
    (room : d.count + d.tombs + 1 < d.size) (absent : ∀ j, ¬ Matches d (hash k) k j) :
    Core (insertItem d i (hash k) k v) (order ++ [i]) where
  length := by simpa using hd.length
  pow := by simpa using hd.pow
  nodup := by
    have : i ∉ order := fun h => free ((hd.mem i).mp h)
    rw [nodup_append]
    refine ⟨hd.nodup, nodup_singleton i, ?_⟩
    rintro a ha b hb rfl
    rw [mem_singleton] at hb
    exact this (hb ▸ ha)
  mem s := by
    rw [hd.insertItem_occ hi, mem_append, hd.mem, mem_singleton, or_comm]
  threaded := by
    have fresh : i ∉ order := fun h => free ((hd.mem i).mp h)
    rw [getLast?_concat]
    refine hd.linked.push fresh ?_ ?_ ?_ ?_ hd.nodup
    · intro s hs
      have hsi : s ≠ i := fun e => fresh (e ▸ hs)
      rw [itemAt_insertItem (by rwa [hd.length]) (fun l => hd.last_lt), if_neg hsi]
    · intro s hs
      have hsi : s ≠ i := fun e => fresh (e ▸ hs)
      exact (hd.insertItem_content hi s hsi).2.2.2
    · rw [hd.itemAt_insertItem_self hi]
    · rw [hd.itemAt_insertItem_self hi]
  clean s hs := by
    rw [hd.insertItem_occ hi, not_or] at hs
    have hlast : d.last ≠ some s := fun h => hs.2 ((hd.mem s).mp (hd.linked.last_mem h))
    rw [itemAt_insertItem (by rwa [hd.length]) (fun l => hd.last_lt), if_neg hs.1, if_neg hlast]
    exact hd.clean s hs.2
  last := by rw [insertItem_last, getLast?_concat]
  count := by simp [hd.count]
  tombs := by
    have hcount := countP_update (insertItem d i (hash k) k v).items (fun it => it.k.isTomb)
      insertItem_length (show i < d.items.length by rwa [hd.length])
      (fun s hs => by rw [(hd.insertItem_content hi s hs).1])
    have hself : (itemAt (insertItem d i (hash k) k v).items i).k.isTomb = false := by
      rw [hd.itemAt_insertItem_self hi]
      rfl
    rw [hself, ← hd.tombs] at hcount
    rw [insertItem_tombs]
    split at hcount <;> simp_all
    omega
  load _ := by
    rw [insertItem_count, insertItem_size, insertItem_tombs]
    split <;> omega
  hashed s k' hk := by
    by_cases hs : s = i
    · subst hs
      rw [hd.itemAt_insertItem_self hi] at hk ⊢
      cases hk
      rfl
    · rw [(hd.insertItem_content hi s hs).1] at hk
      rw [(hd.insertItem_content hi s hs).2.2.1]
      exact hd.hashed s k' hk
  distinct := by
    have fresh : ∀ s ∈ order, s ≠ i := fun s hs e => free ((hd.mem i).mp (e ▸ hs))
    rw [pairwise_append]
    refine ⟨?_, pairwise_singleton _ _, ?_⟩
    · refine hd.distinct.imp_of_mem ?_
      intro a b ha hb hab k' hk hm
      rw [(hd.insertItem_content hi b (fresh b hb)).1] at hk
      refine hab k' hk ?_
      unfold Matches at hm ⊢
      rw [(hd.insertItem_content hi a (fresh a ha)).1,
        (hd.insertItem_content hi a (fresh a ha)).2.2.1,
        (hd.insertItem_content hi b (fresh b hb)).2.2.1] at hm
      exact hm
    · intro a ha b hb k' hk hm
      rw [mem_singleton] at hb
      subst hb
      rw [hd.itemAt_insertItem_self hi] at hk
      cases hk
      refine absent a ?_
      unfold Matches at hm ⊢
      rw [(hd.insertItem_content hi a (fresh a ha)).1,
        (hd.insertItem_content hi a (fresh a ha)).2.2.1, hd.itemAt_insertItem_self hi] at hm
      exact hm

lemma Core.entries_insertItem (free : ¬ Occ d i) :
    entries (insertItem d i h k v) (order ++ [i]) = entries d order ++ [(k, v)] := by
  unfold entries
  rw [filterMap_append]
  congr 1
  · apply filterMap_congr
    intro s hs
    have hsi : s ≠ i := fun e => free ((hd.mem i).mp (e ▸ hs))
    unfold entry val
    rw [(hd.insertItem_content hi s hsi).1, (hd.insertItem_content hi s hsi).2.1]
  · simp [entry, val, hd.itemAt_insertItem_self hi]

end

lemma Inv.insertItem_reached (hd : Inv d order) {s : Nat}
    (hs : Occ (insertItem d i h k v) s) (hsi : s ≠ i) : Reached (insertItem d i h k v) s := by
  have hocc : Occ d s := ((hd.insertItem_occ hi s).mp hs).resolve_left hsi
  unfold Reached
  rw [insertItem_size, (hd.insertItem_content hi s hsi).2.2.1]
  exact (hd.reach s hocc).mono fun t => hd.insertItem_nonEmpty hi

lemma Core.settles_insertItem (hd : Core d order) {lo fuel : Nat}
    (hlo : lo < d.size) (hc : UInt64) :
    settles (insertItem d i h k v) i fuel lo hc = settles d i fuel lo hc := by
  refine settles_congr hd.toShape hi insertItem_size (fun s => ?_) hlo hc ?_
  · constructor
    · rintro (hs | hs)
      · by_cases hsi : s = i
        · exact .inr hsi
        · unfold NonEmpty at hs
          rw [(hd.insertItem_content hi s hsi).1] at hs
          exact .inl hs
      · exact .inr hs
    · exact fun hs => hs.imp_left fun hs => hd.insertItem_nonEmpty hi hs
  · refine stretch_of_forall hlo hi fun s hs hlt => ?_
    have hsi : s ≠ i := by
      rintro rfl
      omega
    refine ⟨(hd.insertItem_content hi s hsi).2.2.1, ?_⟩
    rw [hd.insertItem_occ hi]
    exact or_iff_right hsi

lemma Inv.robinhood_insertItem (hd : Inv d order) (free : ¬ Occ d i)
    (room : d.count + d.tombs + 1 < d.size) (absent : ∀ j, ¬ Matches d (hash k) k j)
    (hsettles : settles d i d.size (ideal d.size (hash k)) (hash k)) :
    ∃ d' order' j, robinhood (insertItem d i (hash k) k v) i = some (d', j) ∧ Inv d' order' ∧
      entries d' order' = entries d order ++ [(k, v)] ∧ entry d' j = some (k, v) ∧
      d'.size = d.size ∧ d'.dflt = d.dflt := by
  have hcore := hd.inserted (v := v) hi free room absent
  have hself := hd.itemAt_insertItem_self (h := hash k) (k := k) (v := v) hi
  have hstart := hd.toShape.ideal_lt (by omega) (hash k)
  obtain ⟨d', order', j, hrun, hinv, hent, hnew, hsize, hdflt⟩ :=
    robinhoodLoop_spec (i := i) hcore (by simp) (by rw [insertItem_size]; exact hstart)
      (fun s hs hsi => hd.insertItem_reached hi hs hsi)
      (by rw [hself, hd.settles_insertItem hi hstart]; exact hsettles)
      (by rwa [insertItem_size]) (.inl rfl)
  rw [insertItem_size] at hrun hsize
  refine ⟨d', order', j, ?_, hinv, ?_, ?_, hsize, ?_⟩
  · unfold robinhood
    simp only [insertItem_size, hself]
    exact hrun
  · rw [hent, hd.entries_insertItem hi free]
  · rw [hnew, entry, hself]
    simp [val, hself]
  · rw [hdflt, insertItem_dflt]

lemma Inv.settles_of_stretch (hd : Inv d order)
    (hpath : Stretch d.size (Occ d) (ideal d.size h) i) :
    settles d i d.size (ideal d.size h) h := by
  have hstart := hd.toShape.ideal_lt (by omega) h
  exact settles_of_occ hd.toShape hi (fun s hs _ => hd.reach s hs) hstart
    (ahead_lt hstart hi) hpath h
    (Stretch.refl hstart)

end

end Insert

section Rehash
variable {d : Dict K V} {order : List Nat} {items : List (DictItem K V)}

lemma firstLoop_eq {last : Option Nat}
    {next : Nat → Option Nat} (hl : Linked next (fun s => (itemAt items s).prev) last order)
    {l r : List Nat} {s fuel : Nat} (horder : order = l ++ s :: r) (hfuel : l.length < fuel) :
    firstLoop items fuel s = order.head? := by
  induction fuel generalizing l r s with
  | zero => omega
  | succ fuel ih =>
    unfold firstLoop
    have hprev : (itemAt items s).prev = l.getLast? := hl.prev_eq l s r horder
    rcases eq_nil_or_concat l with rfl | ⟨l, t, rfl⟩
    · rw [hprev, horder]
      rfl
    · simp only [concat_eq_append, getLast?_append, getLast?_singleton, Option.some_or] at hprev
      rw [hprev]
      simp only [concat_eq_append, length_append, length_singleton] at hfuel
      exact ih (l := l) (r := s :: r) (by simp [horder]) (by omega)

def content (d : Dict K V) (s : Nat) : SlotKey K × V × UInt64 :=
  ((itemAt d.items s).k, (itemAt d.items s).v, (itemAt d.items s).h)

lemma entries_of_contents {d d' : Dict K V} {order order' : List Nat}
    (h : order.map (content d) = order'.map (content d')) :
    entries d order = entries d' order' := by
  have hentry : ∀ (e : Dict K V) (l : List Nat), entries e l =
      (l.map (content e)).filterMap fun c =>
        c.1.casesOn none none fun k => some (k, c.2.1) := by
    intro e l
    rw [entries, filterMap_map]
    refine filterMap_congr fun s _ => ?_
    simp only [entry, content, Function.comp_apply]
    cases (itemAt e.items s).k <;> rfl
  rw [hentry, hentry, h]

variable [BEq K] [Hashable K] {e : Dict K V} {order' : List Nat}

lemma Core.length_order_le (hd : Core d order) : order.length ≤ d.size := by
  rw [← hd.count, hd.count_occupied, ← hd.length]
  exact countP_le_length

lemma Core.dictFirst_eq (hd : Core d order) : dictFirst d = some order.head? := by
  unfold dictFirst
  have hlast := hd.last
  rcases eq_nil_or_concat order with rfl | ⟨l, s, rfl⟩
  · rw [hlast]
    rfl
  simp only [concat_eq_append, getLast?_append, getLast?_singleton, Option.some_or] at hlast
  have hle := hd.length_order_le
  simp only [concat_eq_append, length_append, length_singleton] at hle
  rw [hlast]
  simp only
  rw [firstLoop_eq hd.linked (l := l) (r := []) (by simp) (by omega)]
  cases l <;> rfl

lemma Core.exists_matches (hd : Core d order) (h : UInt64) (k : K) :
    (∃ j, Matches d h k j) ↔ ∃ c ∈ order.map (content d), c.2.2 = h ∧ c.1.eqv k := by
  constructor
  · rintro ⟨j, hm⟩
    exact ⟨content d j, mem_map_of_mem ((hd.mem j).mpr hm.occ), hm⟩
  · rintro ⟨c, hc, hm⟩
    obtain ⟨j, -, rfl⟩ := mem_map.mp hc
    exact ⟨j, hm⟩

/-- The new table `e` while `rehash` runs: it holds copies of the items in the
slots `done` of the old table, and its other slots are still zeroed. -/
structure Copied (d : Dict K V) (done : List Nat) (e : Dict K V) (order : List Nat) : Prop where
  inv : Inv e order
  zeroed : ∀ s, ¬ Occ e s → itemAt e.items s = DictItem.zero
  tombs : e.tombs = 0
  contents : order.map (content e) = done.map (content d)

lemma Copied.absent {done rest : List Nat} {it : Nat} {k : K} (hd : Core d order)
    (horder : order = done ++ it :: rest) (hk : (itemAt d.items it).k = .key k)
    (he : Copied d done e order') (j : Nat) :
    ¬ Matches e (itemAt d.items it).h k j := by
  intro hm
  obtain ⟨c, hc, hmc⟩ := (he.inv.exists_matches _ k).mp ⟨j, hm⟩
  rw [he.contents] at hc
  obtain ⟨t, ht, rfl⟩ := mem_map.mp hc
  have hdistinct := hd.distinct
  rw [horder, pairwise_append] at hdistinct
  exact hdistinct.2.2 t ht it (by simp) k hk hmc

omit [BEq K] [Hashable K] in
lemma modify_congr {i : Nat} (f g : DictItem K V → DictItem K V)
    (h : f (itemAt items i) = g (itemAt items i)) : items.modify i f = items.modify i g := by
  by_cases hi : i < items.length
  · rw [modify_eq_set_getElem?, modify_eq_set_getElem?]
    simp only [itemAt, getD_eq_getElem?_getD, getElem?_eq_getElem hi] at h ⊢
    simpa using congrArg (items.set i) h
  · rw [modify_eq_self (by omega), modify_eq_self (by omega)]

lemma Copied.insert {done : List Nat} {it i : Nat} {k : K} (he : Copied d done e order')
    (hk : (itemAt d.items it).k = .key k) (hhash : (itemAt d.items it).h = hash k)
    (hi : i < e.size) (free : ¬ Occ e i) (room : done.length + 1 < e.size)
    (absent : ∀ j, ¬ Matches e (hash k) k j)
    (hpath : Stretch e.size (Occ e) (ideal e.size (hash k)) i) :
    Copied d (done ++ [it]) (insertItem e i (hash k) k (itemAt d.items it).v) (order' ++ [i]) := by
  have hcount : e.count = done.length := by
    rw [he.inv.count]
    simpa using congrArg length he.contents
  have hself := he.inv.itemAt_insertItem_self (h := hash k) (k := k) (v := (itemAt d.items it).v) hi
  refine ⟨⟨he.inv.inserted hi free (by rw [he.tombs]; omega) absent, ?_⟩, ?_, ?_, ?_⟩
  · intro s hs
    by_cases hsi : s = i
    · subst hsi
      rw [Reached, hself, insertItem_size]
      exact hpath.mono fun t ht => he.inv.insertItem_nonEmpty hi ht.nonEmpty
    · exact he.inv.insertItem_reached hi hs hsi
  · intro s hs
    rw [he.inv.insertItem_occ hi, not_or] at hs
    have hlast : e.last ≠ some s := fun h =>
      hs.2 ((he.inv.mem s).mp (he.inv.linked.last_mem h))
    rw [itemAt_insertItem (by rwa [he.inv.length]) (fun l => he.inv.last_lt), if_neg hs.1,
      if_neg hlast]
    exact he.zeroed s hs.2
  · rw [insertItem_tombs, he.zeroed i free, he.tombs]
    rfl
  · rw [map_append, map_append, ← he.contents]
    congr 1
    · refine map_congr_left ?_
      intro s hs
      have hsi : s ≠ i := fun h => free ((he.inv.mem i).mp (h ▸ hs))
      obtain ⟨h1, h2, h3, -⟩ := he.inv.insertItem_content (h := hash k) (k := k)
        (v := (itemAt d.items it).v) hi s hsi
      rw [content, h1, h2, h3, content]
    · simp only [map_cons, map_nil, content, hself, hk, hhash]

lemma rehashLoop_spec {done rest : List Nat} (hd : Core d order) (horder : order = done ++ rest)
    (he : Copied d done e order')
    (room : order.length < e.size) {fuel : Nat} (hfuel : rest.length ≤ fuel) :
    ∃ e' order'', rehashLoop d.items e.size fuel e.items e.last rest.head? =
        some (e'.items, e'.last) ∧
      Copied d order e' order'' ∧ e'.size = e.size ∧ e'.dflt = e.dflt := by
  induction rest generalizing done e order' fuel with
  | nil =>
    rw [append_nil] at horder
    subst horder
    refine ⟨e, order', ?_, he, rfl, rfl⟩
    cases fuel <;> rfl
  | cons it rest ih =>
    obtain ⟨fuel, rfl⟩ : ∃ n, fuel = n + 1 := ⟨fuel - 1, by simp at hfuel; omega⟩
    have hocc : Occ d it := (hd.mem it).mp (by simp [horder])
    obtain ⟨k, hk⟩ := hocc.exists_key
    have hhash := hd.hashed it k hk
    have habsent := he.absent hd horder hk
    rw [hhash] at habsent
    have hlen : order.length = done.length + (rest.length + 1) := by simp [horder]
    obtain ⟨i, hspot, hi, hm | ⟨free, hpath, -⟩⟩ := he.inv.findSpot_spec (by omega) (hash k) k
    · exact absurd hm (habsent i)
    have hstep := he.insert hk hhash hi free (by omega) habsent hpath
    obtain ⟨e', order'', hrun, hcopied, hsize, hdflt⟩ :=
      ih (show order = (done ++ [it]) ++ rest by simp [horder]) hstep (by simpa using room)
        (by simpa using hfuel)
    refine ⟨e', order'', ?_, hcopied, by simpa using hsize, by simpa using hdflt⟩
    have hnext : (itemAt d.items it).next = rest.head? := hd.linked.next_eq done it rest horder
    rw [head?_cons, rehashLoop]
    simp only [hk, hhash, hspot, hnext]
    rw [insertItem_size] at hrun
    refine Eq.trans ?_ hrun
    congr 1
    -- the two writes of the loop are those of `put` into a zeroed slot
    have hslot : (itemAt (setNext e e.last (some i)).items i).next = none := by
      rw [itemAt_setNext _ _ (fun l => he.inv.last_lt)]
      have hlast : e.last ≠ some i := fun h =>
        free ((he.inv.mem i).mp (he.inv.linked.last_mem h))
      simp only [if_neg hlast, he.zeroed i free]
      rfl
    rw [insertItem_items]
    cases hl : e.last with
    | none => exact modify_congr _ _ (by simpa [hl, setNext] using hslot)
    | some l => exact modify_congr _ _ (by simpa [hl, setNext, write] using hslot)

omit [BEq K] [Hashable K] in
lemma countP_replicate_zero (n : Nat) :
    (replicate n (DictItem.zero : DictItem K V)).countP (fun it => it.k.isTomb) = 0 := by
  rw [countP_eq_zero]
  intro it hit
  rw [eq_of_mem_replicate hit]
  exact Bool.false_ne_true

lemma Inv.zeroed {n : Nat} (hn : n = 0 ∨ ∃ m, 3 ≤ m ∧ n = 2 ^ m)
    (hitems : e.items = replicate n DictItem.zero) (hsize : e.size = n) (hcount : e.count = 0)
    (htombs : e.tombs = 0) (hlast : e.last = none) : Inv e [] := by
  have hitem : ∀ s, itemAt e.items s = DictItem.zero := fun s => by rw [hitems, itemAt_replicate]
  have hfree : ∀ s, ¬ Occ e s := fun s => by
    rw [Occ, hitem]
    exact Bool.false_ne_true
  refine ⟨⟨⟨⟨by simp [hitems, hsize], by rwa [hsize]⟩, nodup_nil, ?_, Linked.nil, ?_, hcount,
    ?_, ?_, ?_, Pairwise.nil⟩, hlast⟩, ?_⟩
  · exact fun s => iff_of_false not_mem_nil (hfree s)
  · intro s _
    rw [hitem]
    exact ⟨rfl, rfl⟩
  · rw [htombs, hitems, countP_replicate_zero]
  · intro hpos
    omega
  · intro s k hk
    exact absurd (occ_of_key hk) (hfree s)
  · exact fun s hs => absurd hs (hfree s)

/-- Growing the table keeps the contents and their order, and drops the tombstones. -/
lemma Inv.rehash_spec (hd : Inv d order) (hpos : 0 < d.size) :
    ∃ e order', rehash d (d.size * 2) = some e ∧ Inv e order' ∧
      order'.map (content e) = order.map (content d) ∧ e.size = d.size * 2 ∧ e.tombs = 0 ∧
      e.count = d.count ∧ e.dflt = d.dflt := by
  have hpow : ∃ m, 3 ≤ m ∧ d.size * 2 = 2 ^ m := by
    obtain ⟨n, hn, hsize⟩ := hd.toShape.pow_of_pos hpos
    exact ⟨n + 1, by omega, by rw [hsize, Nat.pow_succ]⟩
  let e0 : Dict K V := ⟨replicate (d.size * 2) DictItem.zero, d.size * 2, 0, 0, none, d.dflt⟩
  have hstart : Copied d [] e0 [] :=
    ⟨Inv.zeroed (.inr hpow) rfl rfl rfl rfl rfl, fun s _ => itemAt_replicate _, rfl, rfl⟩
  have hle := hd.length_order_le
  obtain ⟨e, order', hrun, he, hsize, hdflt⟩ :=
    rehashLoop_spec hd.toCore (nil_append order).symm hstart
      (show order.length < d.size * 2 by omega) (show order.length ≤ d.size from hle)
  have hcount : e.count = d.count := by
    rw [he.inv.count, hd.count]
    simpa using congrArg length he.contents
  refine ⟨e, order', ?_, he.inv, he.contents, hsize, he.tombs, hcount, hdflt⟩
  have hfirst := hd.toCore.dictFirst_eq
  unfold rehash
  rw [hfirst]
  change (rehashLoop d.items e0.size d.size e0.items e0.last order.head? >>= _) = _
  rw [hrun]
  change some _ = some e
  rw [← hcount, ← he.tombs, show d.dflt = e.dflt from hdflt.symm,
    show d.size * 2 = e.size from hsize.symm]

/-- `put` stores a new key at the end of the list, wherever `find_spot` put it
and whether or not the table had to grow. -/
lemma Inv.put_spec (hd : Inv d order) (hpos : 0 < d.size) {i : Nat} {k : K} (v : V)
    (absent : ∀ j, ¬ Matches d (hash k) k j)
    (hslot : shouldRehash d ∨ (i < d.size ∧ ¬ Occ d i ∧
      settles d i d.size (ideal d.size (hash k)) (hash k))) :
    ∃ d' order' j, put d i (hash k) k v = some (d', j) ∧ Inv d' order' ∧
      entries d' order' = entries d order ++ [(k, v)] ∧ entry d' j = some (k, v) ∧
      0 < d'.size ∧ d'.dflt = d.dflt := by
  have hinit : ensureInit d = d := if_neg (by omega)
  have hbig := hd.toShape.eight_le hpos
  simp only [put, hinit]
  by_cases hfull : shouldRehash d
  · obtain ⟨e, order', hrehash, he, hcontents, hsize, htombs, hcount, hdflt⟩ := hd.rehash_spec hpos
    have habsent : ∀ j, ¬ Matches e (hash k) k j := by
      intro j hm
      obtain ⟨c, hc, hmc⟩ := (he.exists_matches _ k).mp ⟨j, hm⟩
      rw [hcontents] at hc
      obtain ⟨t, ht⟩ := (hd.exists_matches _ k).mpr ⟨c, hc, hmc⟩
      exact absent t ht
    have hload := hd.load hpos
    obtain ⟨r, hspot, hr, hm | ⟨free, hpath, -⟩⟩ := he.findSpot_spec (by omega) (hash k) k
    · exact absurd hm (habsent r)
    obtain ⟨d', order'', j, hrun, hinv, hent, hnew, hsize', hdflt'⟩ :=
      he.robinhood_insertItem (v := v) hr free (by omega) habsent (he.settles_of_stretch hr hpath)
    refine ⟨d', order'', j, ?_, hinv, ?_, hnew, by omega, by rw [hdflt', hdflt]⟩
    · simp only [hfull, if_true, hrehash, hspot]
      exact hrun
    · rw [hent, entries_of_contents hcontents]
  · obtain h | ⟨hi, free, hsettles⟩ := hslot
    · exact absurd h hfull
    have hroom : d.count + d.tombs + 1 < d.size := by
      simp only [shouldRehash, ge_iff_le, decide_eq_true_eq] at hfull
      omega
    obtain ⟨d', order', j, hrun, hinv, hent, hnew, hsize, hdflt⟩ :=
      hd.robinhood_insertItem (v := v) hi free hroom absent hsettles
    refine ⟨d', order', j, ?_, hinv, hent, hnew, by omega, hdflt⟩
    rw [if_neg hfull]
    exact hrun

end Rehash

end TyLang.Dict
