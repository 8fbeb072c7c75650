import TyLang.Dict.Invariant

/-!
`swap` exchanges two items and repairs the list threaded through them, also when
they are neighbours: it renames the slots of the table by a transposition. Only
the `last` pointer depends on both items being in the list. The Robin Hood loop
swaps and does nothing else, so it preserves the invariant as long as it
displaces items that are in the list.
-/
namespace TyLang.Dict
open List Cyclic Equiv

variable {K V : Type} [Inhabited V]

section Linkxd
variable {d : Dict K V} {i : Nat}

@[simp] lemma linkxd_fields : (linkxd d i).size = d.size ∧ (linkxd d i).count = d.count ∧
    (linkxd d i).tombs = d.tombs ∧ (linkxd d i).dflt = d.dflt ∧
    (linkxd d i).items.length = d.items.length := by
  simp only [linkxd]
  split <;> simp

lemma linkxd_last :
    (linkxd d i).last = if (itemAt d.items i).next = none then some i else d.last := by
  unfold linkxd
  cases hn : (itemAt d.items i).next <;> simp

/-- `linkxd` makes both neighbours of an item point back to it. -/
lemma itemAt_linkxd (s : Nat) (hself : (itemAt d.items i).next ≠ some i)
    (hnext : ∀ n, (itemAt d.items i).next = some n → n < d.items.length)
    (hprev : ∀ p, (itemAt d.items i).prev = some p → p < d.items.length) :
    itemAt (linkxd d i).items s =
      { itemAt d.items s with
        prev := if (itemAt d.items i).next = some s then some i else (itemAt d.items s).prev
        next := if (itemAt d.items i).prev = some s then some i else (itemAt d.items s).next } := by
  unfold linkxd
  simp only
  split
  next hn =>
    have hi := itemAt_setPrev (j := i) (some i) hnext
    rw [if_neg hself] at hi
    rw [itemAt_setNext _ _ (by rw [hi]; simpa using hprev), itemAt_setPrev _ _ hnext, hi]
  next hn =>
    simp only [ne_eq, not_not] at hn
    rw [itemAt_setNext _ _ (by simpa using hprev)]
    simp [hn]

end Linkxd

section Swap
variable {d : Dict K V} {i j : Nat}

@[simp] lemma swap_size : (swap d i j).size = d.size := by simp [swap]
@[simp] lemma swap_count : (swap d i j).count = d.count := by simp [swap]
@[simp] lemma swap_tombs : (swap d i j).tombs = d.tombs := by simp [swap]
@[simp] lemma swap_dflt : (swap d i j).dflt = d.dflt := by simp [swap]
@[simp] lemma swap_length : (swap d i j).items.length = d.items.length := by simp [swap]

def conj (σ : Equiv.Perm Nat) (it : DictItem K V) : DictItem K V :=
  { it with prev := it.prev.map σ, next := it.next.map σ }

/-- A pointer to neither slot is not renamed. -/
lemma map_swap_of_ne {p : Option Nat} (hi : p ≠ some i) (hj : p ≠ some j) :
    p.map (Equiv.swap i j) = p := by
  cases p with
  | none => rfl
  | some x => rw [Option.map_some, swap_apply_of_ne_of_ne (by simpa using hi) (by simpa using hj)]

lemma unself_eq {p : Option Nat} (h : p ≠ some j) : unself i j p = p.map (Equiv.swap i j) := by
  unfold unself
  split
  next hp => simp [hp]
  next hp => exact (map_swap_of_ne hp h).symm

variable [BEq K] [Hashable K] {order : List Nat}

/-- The table inside `swap` before the two calls of `linkxd`. -/
def exchange (d : Dict K V) (i j : Nat) : Dict K V :=
  write (write d i fun _ => conj (Equiv.swap i j) (itemAt d.items j)) j
    fun _ => conj (Equiv.swap i j) (itemAt d.items i)

omit [BEq K] [Hashable K] in
lemma itemAt_exchange (hi : i < d.items.length) (hj : j < d.items.length) (s : Nat) :
    itemAt (exchange d i j).items s =
      if s = i ∨ s = j then conj (Equiv.swap i j) (itemAt d.items (Equiv.swap i j s))
      else itemAt d.items s := by
  unfold exchange
  rw [itemAt_write _ j s _ (by simpa using hj), itemAt_write d i s _ hi]
  by_cases hsj : s = j
  · subst hsj; simp
  · by_cases hsi : s = i
    · subst hsi; simp [hsj]
    · simp [hsi, hsj]

lemma Body.swap_eq (hd : Body d order) (i j : Nat) :
    swap d i j = linkxd (linkxd (exchange d i j) i) j := by
  simp only [swap, exchange, conj]
  rw [unself_eq (hd.next_ne_self j), unself_eq (hd.prev_ne_self j), unself_eq (hd.next_ne_self i),
    unself_eq (hd.prev_ne_self i), swap_comm j i]

omit [Inhabited V] in
lemma map_perm_eq_some {σ : Equiv.Perm Nat} {p : Option Nat} {s : Nat} :
    p.map σ = some (σ s) ↔ p = some s := by
  constructor
  · intro h
    obtain ⟨t, ht, hts⟩ := Option.map_eq_some_iff.mp h
    rw [ht, σ.injective hts]
  · rintro rfl
    rfl

/-- The conditions under which `linkxd` may be called for an item that has been
moved from `a` to `b`: its renamed neighbours are in the table and not itself. -/
lemma Body.moved_pointers (hd : Body d order) (hi : i < d.items.length)
    (hj : j < d.items.length) {a b : Nat} (hb : b = Equiv.swap i j a) (it : DictItem K V)
    (hit : it = conj (Equiv.swap i j) (itemAt d.items a)) :
    it.next ≠ some b ∧ (∀ n, it.next = some n → n < d.items.length) ∧
      ∀ p, it.prev = some p → p < d.items.length := by
  subst hit
  refine ⟨?_, ?_, ?_⟩
  · rw [hb]
    exact fun h => hd.next_ne_self a (map_perm_eq_some.mp h)
  · intro n h
    obtain ⟨t, ht, rfl⟩ := Option.map_eq_some_iff.mp h
    exact swap_lt hi hj (hd.next_lt ht)
  · intro n h
    obtain ⟨t, ht, rfl⟩ := Option.map_eq_some_iff.mp h
    exact swap_lt hi hj (hd.prev_lt ht)

omit [BEq K] [Hashable K] in
lemma itemAt_exchange_left (hi : i < d.items.length) (hj : j < d.items.length) :
    itemAt (exchange d i j).items i = conj (Equiv.swap i j) (itemAt d.items j) := by
  rw [itemAt_exchange hi hj, if_pos (.inl rfl), swap_apply_left]

section
variable (hd : Body d order)
include hd

section
variable (hi : i < d.items.length) (hj : j < d.items.length)
include hi hj

lemma Body.itemAt_linkxd_exchange (s : Nat) :
    itemAt (linkxd (exchange d i j) i).items s =
      { itemAt (exchange d i j).items s with
        prev := if (itemAt d.items j).next.map (Equiv.swap i j) = some s then some i
          else (itemAt (exchange d i j).items s).prev
        next := if (itemAt d.items j).prev.map (Equiv.swap i j) = some s then some i
          else (itemAt (exchange d i j).items s).next } := by
  have hitem := itemAt_exchange_left hi hj
  have hlen : (exchange d i j).items.length = d.items.length := by simp [exchange]
  obtain ⟨h1, h2, h3⟩ := hd.moved_pointers hi hj (swap_apply_right i j).symm _ hitem
  rw [itemAt_linkxd s h1 (by rwa [hlen]) (by rwa [hlen]), hitem, conj]

/-- The second `linkxd` finds the item it is called for as the exchange left it,
because a neighbour that was repaired by the first one was already right. -/
lemma Body.itemAt_linkxd_exchange_right :
    itemAt (linkxd (exchange d i j) i).items j = conj (Equiv.swap i j) (itemAt d.items i) := by
  have hitem : itemAt (exchange d i j).items j =
      conj (Equiv.swap i j) (itemAt d.items i) := by
    rw [itemAt_exchange hi hj, if_pos (.inr rfl), swap_apply_right]
  have hsome {p : Option Nat} (h : p.map (Equiv.swap i j) = some j) : p = some i :=
    map_perm_eq_some.mp (h.trans (congrArg some (swap_apply_left i j).symm))
  rw [hd.itemAt_linkxd_exchange hi hj, hitem]
  simp only [conj]
  congr 1
  · refine ite_eq_right_iff.mpr fun h => ?_
    rw [hd.next_eq_some.mp (hsome h)]
    simp
  · refine ite_eq_right_iff.mpr fun h => ?_
    rw [hd.next_eq_some.mpr (hsome h)]
    simp

lemma Body.itemAt_linkxd_linkxd (s : Nat) :
    itemAt (swap d i j).items s =
      { itemAt (exchange d i j).items s with
        prev := if (itemAt d.items i).next.map (Equiv.swap i j) = some s then some j
          else if (itemAt d.items j).next.map (Equiv.swap i j) = some s then some i
          else (itemAt (exchange d i j).items s).prev
        next := if (itemAt d.items i).prev.map (Equiv.swap i j) = some s then some j
          else if (itemAt d.items j).prev.map (Equiv.swap i j) = some s then some i
          else (itemAt (exchange d i j).items s).next } := by
  have hright := hd.itemAt_linkxd_exchange_right hi hj
  have hlen : (linkxd (exchange d i j) i).items.length = d.items.length := by simp [exchange]
  obtain ⟨h1, h2, h3⟩ := hd.moved_pointers hi hj (swap_apply_left i j).symm _ hright
  rw [hd.swap_eq i j, itemAt_linkxd s h1 (by rwa [hlen]) (by rwa [hlen]), hright,
    hd.itemAt_linkxd_exchange hi hj]
  rfl

/-- Exchanging two slots, free or not, renames them in the whole table. -/
lemma Body.itemAt_swap (s : Nat) :
    itemAt (swap d i j).items (Equiv.swap i j s) =
      conj (Equiv.swap i j) (itemAt d.items s) := by
  have hbase : itemAt (exchange d i j).items (Equiv.swap i j s) =
      if s = i ∨ s = j then conj (Equiv.swap i j) (itemAt d.items s) else itemAt d.items s := by
    rw [itemAt_exchange hi hj, swap_apply_self]
    by_cases hsi : s = i
    · simp [hsi]
    by_cases hsj : s = j
    · simp [hsj]
    simp [hsi, hsj, swap_apply_of_ne_of_ne hsi hsj]
  have hfield : ∀ p : Option Nat,
      (if p = some i then some j else if p = some j then some i else
        (if s = i ∨ s = j then p.map (Equiv.swap i j) else p)) = p.map (Equiv.swap i j) := by
    intro p
    split
    next h => simp [h]
    next h1 =>
      split
      next h => simp [h]
      next h2 => rw [map_swap_of_ne h1 h2, ite_self]
  rw [hd.itemAt_linkxd_linkxd hi hj, hbase]
  have hprev : ∀ a, (itemAt d.items a).next = some s ↔ (itemAt d.items s).prev = some a :=
    fun a => hd.next_eq_some
  have hnext : ∀ a, (itemAt d.items a).prev = some s ↔ (itemAt d.items s).next = some a :=
    fun a => hd.next_eq_some.symm
  simp only [map_perm_eq_some, hprev i, hprev j, hnext i, hnext j]
  by_cases hsij : s = i ∨ s = j
  all_goals
    simp only [hsij, if_true, if_false, conj] at hfield ⊢
    rw [hfield, hfield]

lemma Body.swap_last :
    (swap d i j).last = if (itemAt d.items i).next = none then some j
      else if (itemAt d.items j).next = none then some i else d.last := by
  rw [hd.swap_eq i j, linkxd_last, linkxd_last, hd.itemAt_linkxd_exchange_right hi hj,
    itemAt_exchange_left hi hj]
  simp only [conj, Option.map_eq_none_iff]
  rfl

end

end

lemma Core.swap_last (hd : Core d order) (hi : i ∈ order) (hj : j ∈ order) :
    (swap d i j).last = d.last.map (Equiv.swap i j) := by
  have hni := hd.linked.next_eq_none hd.nodup hi
  have hnj := hd.linked.next_eq_none hd.nodup hj
  rw [hd.toBody.swap_last ((hd.mem i).mp hi).lt ((hd.mem j).mp hj).lt]
  simp only [hni, hnj]
  split
  next h => simp [h]
  next h1 =>
    split
    next h => simp [h]
    next h2 => exact (map_swap_of_ne h1 h2).symm

lemma Body.swap_content (hd : Body d order) (hi : i < d.items.length) (hj : j < d.items.length)
    (t : Nat) :
    (itemAt (swap d i j).items t).k = (itemAt d.items (Equiv.swap i j t)).k ∧
      (itemAt (swap d i j).items t).v = (itemAt d.items (Equiv.swap i j t)).v ∧
      (itemAt (swap d i j).items t).h = (itemAt d.items (Equiv.swap i j t)).h := by
  have := hd.itemAt_swap hi hj (Equiv.swap i j t)
  rw [swap_apply_self] at this
  rw [this]
  exact ⟨rfl, rfl, rfl⟩

lemma Body.swap_occ (hd : Body d order) (hi : i < d.items.length) (hj : j < d.items.length)
    (t : Nat) : Occ (swap d i j) t ↔ Occ d (Equiv.swap i j t) := by
  unfold Occ
  rw [(hd.swap_content hi hj t).1]

lemma Body.swap_nonEmpty (hd : Body d order) (hi : i ∈ order) (hj : j ∈ order) (t : Nat) :
    NonEmpty (swap d i j) t ↔ NonEmpty d t := by
  have hoi := (hd.mem i).mp hi
  have hoj := (hd.mem j).mp hj
  have hswap : NonEmpty (swap d i j) t ↔ NonEmpty d (Equiv.swap i j t) := by
    unfold NonEmpty
    rw [(hd.swap_content hoi.lt hoj.lt t).1]
  rw [hswap]
  rcases swap_apply_cases i j t with h | ⟨rfl, h⟩ | ⟨rfl, h⟩ <;> rw [h]
  · exact iff_of_true hoj.nonEmpty hoi.nonEmpty
  · exact iff_of_true hoi.nonEmpty hoj.nonEmpty

lemma Body.swapped (hd : Body d order) (hi : i < d.items.length) (hj : j < d.items.length) :
    Body (swap d i j) (order.map (Equiv.swap i j)) where
  length := by simpa using hd.length
  pow := by simpa using hd.pow
  nodup := hd.nodup.map (Equiv.swap i j).injective
  mem t := by
    rw [hd.swap_occ hi hj, ← hd.mem, mem_map]
    constructor
    · rintro ⟨s, hs, rfl⟩
      rwa [swap_apply_self]
    · exact fun h => ⟨_, h, swap_apply_self i j t⟩
  threaded := by
    rw [getLast?_map]
    refine hd.threaded.rename (Equiv.swap i j) ?_ ?_ <;> intro s hs <;>
      simp only [hd.itemAt_swap hi hj s, conj]
  clean t ht := by
    rw [hd.swap_occ hi hj] at ht
    have := hd.itemAt_swap hi hj (Equiv.swap i j t)
    rw [swap_apply_self] at this
    rw [this, conj, (hd.clean _ ht).1, (hd.clean _ ht).2]
    exact ⟨rfl, rfl⟩
  count := by simpa using hd.count
  tombs := by
    rw [swap_tombs, hd.tombs]
    refine (countP_swap (swap d i j).items _ swap_length hi hj fun s => ?_).symm
    rw [(hd.swap_content hi hj s).1]
  load := by simpa using hd.load
  hashed t k hk := by
    rw [(hd.swap_content hi hj t).1] at hk
    rw [(hd.swap_content hi hj t).2.2]
    exact hd.hashed _ k hk
  distinct := by
    rw [pairwise_map]
    refine hd.distinct.imp ?_
    intro a b hab k hk hm
    rw [(hd.swap_content hi hj _).1, swap_apply_self] at hk
    refine hab k hk ?_
    unfold Matches at hm ⊢
    rwa [(hd.swap_content hi hj _).1, (hd.swap_content hi hj _).2.2,
      (hd.swap_content hi hj _).2.2, swap_apply_self, swap_apply_self] at hm

lemma Core.swapped (hd : Core d order) (hi : i ∈ order) (hj : j ∈ order) :
    Core (swap d i j) (order.map (Equiv.swap i j)) := by
  refine ⟨hd.toBody.swapped ((hd.mem i).mp hi).lt ((hd.mem j).mp hj).lt, ?_⟩
  rw [hd.swap_last hi hj, hd.last, getLast?_map]

lemma Body.reached_swap (hd : Body d order) (hi : i ∈ order) (hj : j ∈ order) (t : Nat) :
    Reached (swap d i j) t ↔
      Stretch d.size (NonEmpty d) (ideal d.size (itemAt d.items (Equiv.swap i j t)).h) t := by
  unfold Reached
  rw [swap_size, (hd.swap_content ((hd.mem i).mp hi).lt ((hd.mem j).mp hj).lt t).2.2]
  exact ⟨fun h => h.mono fun s => (hd.swap_nonEmpty hi hj s).mp,
    fun h => h.mono fun s => (hd.swap_nonEmpty hi hj s).mpr⟩

end Swap

def entry (d : Dict K V) (s : Nat) : Option (K × V) :=
  match (itemAt d.items s).k with
  | .key k => some (k, val d s)
  | _ => none

def entries (d : Dict K V) (order : List Nat) : List (K × V) := order.filterMap (entry d)

/-- The slots that do not stop a probe while the item in `hi` is being placed. -/
def Filled (d : Dict K V) (hi s : Nat) : Prop := NonEmpty d s ∨ s = hi

instance (d : Dict K V) (hi : Nat) : DecidablePred (Filled d hi) :=
  fun s => inferInstanceAs (Decidable (NonEmpty d s ∨ s = hi))

/-- Whether the walk of `robinhood` from `lo`, with an item of hash `hc` in slot
`hi`, only displaces occupied slots and leaves every item it moves where a probe
for it arrives. -/
def settles (d : Dict K V) (hi : Nat) : Nat → Nat → UInt64 → Bool
  | 0, _, _ => false
  | fuel + 1, lo, hc =>
    let mask := d.size - 1
    if lo = hi then
      decide (Stretch d.size (Filled d hi) (ideal d.size hc) hi)
    else if ((hi + d.size - (hc.toNat &&& mask)) &&& mask) >
        ((lo + d.size - ((itemAt d.items lo).h.toNat &&& mask)) &&& mask) then
      decide (Occ d lo) && decide (Stretch d.size (Filled d hi) (ideal d.size hc) lo) &&
        settles d hi fuel ((lo + 1) &&& mask) (itemAt d.items lo).h
    else
      settles d hi fuel ((lo + 1) &&& mask) hc

lemma filled_iff {d : Dict K V} {hi s : Nat} (hhi : NonEmpty d hi) :
    Filled d hi s ↔ NonEmpty d s :=
  ⟨fun h => h.elim id fun e => e ▸ hhi, .inl⟩

lemma stretch_filled_iff {d : Dict K V} {hi : Nat} (hhi : NonEmpty d hi) {n a b : Nat} :
    Stretch n (Filled d hi) a b ↔ Stretch n (NonEmpty d) a b :=
  ⟨fun h => h.mono fun _ => (filled_iff hhi).mp, fun h => h.mono fun _ => (filled_iff hhi).mpr⟩

/-- Where the item that was put is, relative to the rest of the walk. -/
def Tracked (size lo hi i : Nat) : Prop := i = hi ∨ ahead size lo hi < ahead size lo i

lemma Tracked.step {size lo hi i : Nat} (hlo : lo < size) (hhi : hi < size) (hi_lt : i < size)
    (hne : lo ≠ hi) (h : Tracked size lo hi i) : Tracked size ((lo + 1) % size) hi i := by
  rcases h with h | h
  · exact .inl h
  have hlt : lo ≠ i := by
    rintro rfl
    rw [ahead_self hlo] at h
    omega
  have h1 := ahead_succ_left hlo hhi hne
  have h2 := ahead_succ_left hlo hi_lt hlt
  exact .inr (by omega)

lemma Tracked.placed {size lo hi : Nat} (hlo : lo < size) (hhi : hi < size) (hne : lo ≠ hi) :
    Tracked size ((lo + 1) % size) hi lo := by
  have h1 := ahead_succ_left hlo hhi hne
  have h2 := ahead_succ_self hlo
  have h3 := ahead_lt hlo hhi
  exact .inr (by omega)

section Loop
variable [BEq K] [Hashable K] {d : Dict K V} {order : List Nat} {i j : Nat}

lemma Core.entry_swap (hd : Core d order) (hi : i ∈ order) (hj : j ∈ order) (s : Nat) :
    entry (swap d i j) s = entry d (Equiv.swap i j s) := by
  have hcontent := hd.swap_content ((hd.mem i).mp hi).lt ((hd.mem j).mp hj).lt s
  unfold entry val
  rw [hcontent.1, hcontent.2.1]

lemma Core.entries_swap (hd : Core d order) (hi : i ∈ order) (hj : j ∈ order) :
    entries (swap d i j) (order.map (Equiv.swap i j)) = entries d order := by
  unfold entries
  rw [filterMap_map]
  congr 1
  funext s
  rw [Function.comp_apply, hd.entry_swap hi hj, swap_apply_self]

omit [BEq K] [Hashable K] in
lemma settles_congr {d d' : Dict K V} (hd : Shape d) {hi : Nat} (hhi : hi < d.size)
    (hsize : d'.size = d.size) (hne : ∀ s, Filled d' hi s ↔ Filled d hi s) {fuel lo : Nat}
    (hlo : lo < d.size) (hc : UInt64)
    (hsame : Stretch d.size (fun s => (itemAt d'.items s).h = (itemAt d.items s).h ∧
      (Occ d' s ↔ Occ d s)) lo hi) :
    settles d' hi fuel lo hc = settles d hi fuel lo hc := by
  have hpath : ∀ a b, Stretch d.size (Filled d' hi) a b ↔ Stretch d.size (Filled d hi) a b :=
    fun a b => ⟨fun h => h.mono fun s => (hne s).mp, fun h => h.mono fun s => (hne s).mpr⟩
  have hpos : 0 < d.size := by omega
  induction fuel generalizing lo hc with
  | zero => rfl
  | succ fuel ih =>
    unfold settles
    simp only [hsize, hpath]
    split
    next => rfl
    next hend =>
      obtain ⟨hh, hocc⟩ := hsame.head hlo hhi hend
      have htail := hsame.tail hlo hhi hend
      have hlt : (lo + 1) % d.size < d.size := Nat.mod_lt _ hpos
      rw [mask_eq_mod (hd.pow_of_pos hpos) (lo + 1)]
      simp only [hh, hocc, ih hlt _ htail]

lemma Body.settles_swap {lo hi fuel : Nat} (hd : Body d order) (hloMem : lo ∈ order)
    (hhi : hi ∈ order) (hlo : lo < d.size) {hc : UInt64} :
    settles (swap d lo hi) hi fuel ((lo + 1) % d.size) hc =
      settles d hi fuel ((lo + 1) % d.size) hc := by
  have hloOcc := (hd.mem lo).mp hloMem
  have hhiOcc := (hd.mem hi).mp hhi
  have hhi_lt := hd.lt_size hhiOcc
  have hlo' : (lo + 1) % d.size < d.size := Nat.mod_lt _ (by omega)
  have hne : ∀ s, Filled (swap d lo hi) hi s ↔ Filled d hi s := fun s =>
    or_congr_left (hd.swap_nonEmpty hloMem hhi s)
  refine settles_congr hd.toShape hhi_lt swap_size hne hlo' hc ?_
  refine stretch_of_forall hlo' hhi_lt fun s hs hlt => ?_
  have hsl : s ≠ lo := by
    rintro rfl
    have h1 := ahead_succ_self hs
    have h2 := ahead_lt hlo' hhi_lt
    omega
  have hsh : s ≠ hi := by
    rintro rfl
    omega
  have hcontent := hd.swap_content hloOcc.lt hhiOcc.lt s
  rw [swap_apply_of_ne_of_ne hsl hsh] at hcontent
  refine ⟨hcontent.2.2, ?_⟩
  unfold Occ
  rw [hcontent.1]

/-- The loop takes a table in which only the item at `hi` may be out of reach to
one that satisfies the invariant, with the same contents in the same order. -/
lemma robinhoodLoop_spec {lo hi : Nat} (hd : Core d order) (hhi : hi ∈ order) (hlo : lo < d.size)
    (hreach : ∀ s, Occ d s → s ≠ hi → Reached d s) {fuel : Nat}
    (hsettles : settles d hi fuel lo (itemAt d.items hi).h)
    (hi_lt : i < d.size) (htrack : Tracked d.size lo hi i) :
    ∃ d' order' i', robinhoodLoop (d.size - 1) hi fuel d lo i = some (d', i') ∧
      Inv d' order' ∧ entries d' order' = entries d order ∧ entry d' i' = entry d i ∧
      d'.size = d.size ∧ d'.dflt = d.dflt := by
  induction fuel generalizing d order lo i with
  | zero => simp [settles] at hsettles
  | succ fuel ih =>
    have hhiOcc := (hd.mem hi).mp hhi
    have hpos := hd.size_pos hhiOcc
    have hhi_lt := hd.lt_size hhiOcc
    unfold settles at hsettles
    unfold robinhoodLoop
    by_cases hend : lo = hi
    · simp only [if_pos hend, decide_eq_true_eq] at hsettles
      refine ⟨d, order, i, by simp [hend], ⟨hd, ?_⟩, rfl, rfl, rfl, rfl⟩
      intro s hs
      by_cases hsh : s = hi
      · rw [hsh]
        exact (stretch_filled_iff hhiOcc.nonEmpty).mp hsettles
      · exact hreach s hs hsh
    · have hlo' : (lo + 1) % d.size < d.size := Nat.mod_lt _ hpos
      simp only [if_neg hend, mask_eq_mod (hd.pow_of_pos hpos) (lo + 1)] at hsettles ⊢
      split
      next hgt =>
        rw [if_pos hgt] at hsettles
        simp only [Bool.and_eq_true, decide_eq_true_eq] at hsettles
        obtain ⟨⟨hloOcc, hplace⟩, hrest⟩ := hsettles
        have hloMem := (hd.mem lo).mpr hloOcc
        have hmem : hi ∈ order.map (Equiv.swap lo hi) :=
          mem_map.mpr ⟨lo, hloMem, swap_apply_left lo hi⟩
        have hcontent := hd.swap_content hloOcc.lt hhiOcc.lt
        have hhash := (hcontent hi).2.2
        rw [swap_apply_right] at hhash
        have hreach' : ∀ s, Occ (swap d lo hi) s → s ≠ hi → Reached (swap d lo hi) s := by
          intro s hs hsh
          rw [hd.swap_occ hloOcc.lt hhiOcc.lt] at hs
          rw [hd.reached_swap hloMem hhi]
          rcases swap_apply_cases lo hi s with h | ⟨rfl, h⟩ | ⟨rfl, h⟩
          · rw [h] at hs ⊢
            exact hreach s hs hsh
          · rw [h]
            exact (stretch_filled_iff hhiOcc.nonEmpty).mp hplace
          · exact absurd rfl hsh
        have hrest' : settles (swap d lo hi) hi fuel ((lo + 1) % d.size)
            (itemAt (swap d lo hi).items hi).h := by
          rwa [hhash, hd.settles_swap hloMem hhi hlo]
        -- the item that was put moves with the first swap and with no other
        have htrack' : Tracked d.size ((lo + 1) % d.size) hi (if hi = i then lo else i) := by
          split
          next => exact Tracked.placed hlo hhi_lt hend
          next => exact htrack.step hlo hhi_lt hi_lt hend
        have hentry : entry (swap d lo hi) (if hi = i then lo else i) = entry d i := by
          rw [hd.entry_swap hloMem hhi]
          split
          next h => rw [swap_apply_left, h]
          next h =>
            have hne : i ≠ lo := by
              rintro rfl
              rcases htrack with h' | h'
              · exact hend h'
              · rw [ahead_self hlo] at h'
                omega
            rw [swap_apply_of_ne_of_ne hne (Ne.symm h)]
        have hlt' : (if hi = i then lo else i) < d.size := by split <;> assumption
        obtain ⟨d', order', i', hrun, hinv, hent, hnew, hsize, hdflt⟩ :=
          @ih (swap d lo hi) _ (if hi = i then lo else i) ((lo + 1) % d.size)
            (hd.swapped hloMem hhi) hmem (by rwa [swap_size]) hreach' hrest'
            (by rwa [swap_size]) (by rwa [swap_size])
        rw [swap_size] at hrun hsize
        refine ⟨d', order', i', hrun, hinv, ?_, ?_, hsize, ?_⟩
        · rw [hent, hd.entries_swap hloMem hhi]
        · rw [hnew, hentry]
        · rw [hdflt, swap_dflt]
      next hgt =>
        rw [if_neg hgt] at hsettles
        exact ih hd hhi hlo' hreach hsettles hi_lt (htrack.step hlo hhi_lt hi_lt hend)

omit [BEq K] [Hashable K] in
/-- Over a stretch of occupied slots the walk settles whatever it displaces: the
item in hand can be reached wherever the walk has got to. -/
lemma settles_of_occ (hd : Shape d) {hi : Nat} (hhi : hi < d.size)
    (hreach : ∀ s, Occ d s → s ≠ hi → Reached d s) {fuel lo : Nat} (hlo : lo < d.size)
    (hfuel : ahead d.size lo hi < fuel) (hseg : Stretch d.size (Occ d) lo hi) (hc : UInt64)
    (hcarry : Stretch d.size (Filled d hi) (ideal d.size hc) lo) :
    settles d hi fuel lo hc := by
  have hpos : 0 < d.size := by omega
  induction fuel generalizing lo hc with
  | zero => omega
  | succ fuel ih =>
    unfold settles
    simp only
    split
    next hend =>
      rw [hend] at hcarry
      simpa using hcarry
    next hend =>
      have hloOcc := hseg.head hlo hhi hend
      have hnext := ahead_succ_left hlo hhi hend
      have htail := hseg.tail hlo hhi hend
      have hlt : (lo + 1) % d.size < d.size := Nat.mod_lt _ hpos
      rw [mask_eq_mod (hd.pow_of_pos hpos) (lo + 1)]
      split
      next =>
        have hstep : Stretch d.size (Filled d hi) _ _ :=
          ((hreach lo hloOcc hend).mono fun _ => .inl).snoc (hd.ideal_lt hpos _) hlo
            (.inl hloOcc.nonEmpty)
        simp only [hloOcc, hcarry, decide_true, Bool.true_and]
        exact ih hlt (by omega) htail _ hstep
      next =>
        exact ih hlt (by omega) htail _
          (hcarry.snoc (hd.ideal_lt hpos _) hlo (.inl hloOcc.nonEmpty))

end Loop

end TyLang.Dict
