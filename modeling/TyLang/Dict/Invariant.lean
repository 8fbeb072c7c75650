import TyLang.Dict.Ops
import TyLang.Lib.Cyclic
import TyLang.Lib.Linked

/-!
The representation invariant of a dict, relative to the list of its occupied
slots in insertion order, and what `find_spot` returns in a table that
satisfies it. Nothing is assumed about the equality and the hash of the keys.
-/
namespace TyLang.Dict
open List Cyclic Equiv

variable {K V : Type} [Inhabited V]

section Items
variable {items : List (DictItem K V)} {i j : Nat}

lemma itemAt_modify (hi : i < items.length) (f : DictItem K V → DictItem K V) :
    itemAt (items.modify i f) j = if j = i then f (itemAt items i) else itemAt items j := by
  unfold itemAt
  simp only [getD_eq_getElem?_getD, getElem?_modify]
  split
  next h => subst h; simp [hi]
  next h => simp [h, eq_comm]

lemma itemAt_of_length_le (h : items.length ≤ i) : itemAt items i = DictItem.zero := by
  unfold itemAt
  simp [getD_eq_getElem?_getD, h]

lemma itemAt_replicate (n : Nat) :
    itemAt (replicate n (DictItem.zero : DictItem K V)) i = DictItem.zero := by
  unfold itemAt
  simp only [getD_eq_getElem?_getD, getElem?_replicate]
  split <;> rfl

lemma map_itemAt_range (items : List (DictItem K V)) :
    (List.range items.length).map (itemAt items) = items := by
  apply ext_getElem
  · simp
  · intro n h1 h2
    simp [itemAt, getD_eq_getElem?_getD, h2]

lemma countP_items (p : DictItem K V → Bool) :
    items.countP p = ((List.range items.length).filter (p ∘ itemAt items)).length := by
  conv_lhs => rw [← map_itemAt_range items]
  rw [countP_map, countP_eq_length_filter]

lemma length_eq_countP {order : List Nat} {p : DictItem K V → Bool}
    (nodup : order.Nodup) (zero : p DictItem.zero = false)
    (mem : ∀ i, i ∈ order ↔ p (itemAt items i)) :
    order.length = items.countP p := by
  rw [countP_items]
  apply Perm.length_eq
  rw [perm_ext_iff_of_nodup nodup (Nodup.filter _ nodup_range)]
  intro i
  rw [mem, mem_filter, mem_range]
  constructor
  · intro h
    refine ⟨?_, h⟩
    by_contra hlen
    rw [itemAt_of_length_le (by omega), zero] at h
    exact Bool.false_ne_true h
  · exact fun h => h.2

lemma countP_modify (p : DictItem K V → Bool) (hi : i < items.length)
    (f : DictItem K V → DictItem K V) :
    (items.modify i f).countP p + (if p (itemAt items i) then 1 else 0) =
      items.countP p + (if p (f (itemAt items i)) then 1 else 0) := by
  induction items generalizing i with
  | nil => simp at hi
  | cons x xs ih =>
    cases i with
    | zero =>
      rw [modify_zero_cons, countP_cons, countP_cons]
      change _ + (if p x then 1 else 0) = _ + (if p (f x) then 1 else 0)
      omega
    | succ i =>
      have hlen : i < xs.length := by simpa using hi
      have hxs := ih hlen
      rw [modify_succ_cons, countP_cons, countP_cons]
      change _ + (if p (itemAt xs i) then 1 else 0) = _ + (if p (f (itemAt xs i)) then 1 else 0)
      omega

lemma countP_update (items' : List (DictItem K V)) (p : DictItem K V → Bool)
    (hlen : items'.length = items.length) (hi : i < items.length)
    (hsame : ∀ s, s ≠ i → p (itemAt items' s) = p (itemAt items s)) :
    items'.countP p + (if p (itemAt items i) then 1 else 0) =
      items.countP p + (if p (itemAt items' i) then 1 else 0) := by
  have hmod := countP_modify p hi fun _ => itemAt items' i
  have heq : items'.countP p = (items.modify i fun _ => itemAt items' i).countP p := by
    rw [countP_items, countP_items, length_modify, hlen]
    congr 1
    apply filter_congr
    intro s _
    rw [Function.comp_apply, Function.comp_apply, itemAt_modify hi]
    split
    next h => rw [h]
    next h => rw [hsame s h]
  rwa [heq]

lemma swap_apply_cases (i j t : Nat) :
    Equiv.swap i j t = t ∨ (t = i ∧ Equiv.swap i j t = j) ∨ (t = j ∧ Equiv.swap i j t = i) := by
  by_cases hti : t = i
  · exact .inr (.inl ⟨hti, by rw [hti, swap_apply_left]⟩)
  by_cases htj : t = j
  · exact .inr (.inr ⟨htj, by rw [htj, swap_apply_right]⟩)
  exact .inl (swap_apply_of_ne_of_ne hti htj)

lemma swap_lt {n s : Nat} (hi : i < n) (hj : j < n) (hs : s < n) : Equiv.swap i j s < n := by
  rcases swap_apply_cases i j s with h | ⟨-, h⟩ | ⟨-, h⟩ <;> rwa [h]

lemma countP_swap (items' : List (DictItem K V)) (p : DictItem K V → Bool)
    (hlen : items'.length = items.length) (hi : i < items.length) (hj : j < items.length)
    (hsame : ∀ s, p (itemAt items' s) = p (itemAt items (Equiv.swap i j s))) :
    items'.countP p = items.countP p := by
  rw [countP_items, countP_items, hlen]
  have hperm : ((range items.length).filter (p ∘ itemAt items')).Perm
      (((range items.length).filter (p ∘ itemAt items)).map (Equiv.swap i j)) := by
    rw [perm_ext_iff_of_nodup (Nodup.filter _ nodup_range)
      ((Nodup.filter _ nodup_range).map (Equiv.swap i j).injective)]
    intro t
    simp only [mem_map, mem_filter, mem_range, Function.comp_apply, hsame]
    constructor
    · rintro ⟨ht, hp⟩
      exact ⟨_, ⟨swap_lt hi hj ht, hp⟩, swap_apply_self i j t⟩
    · rintro ⟨s, ⟨hs, hp⟩, rfl⟩
      exact ⟨swap_lt hi hj hs, by rwa [swap_apply_self]⟩
  rw [hperm.length_eq, length_map]

end Items

section Fields
omit [Inhabited V]
variable (d : Dict K V) (i j : Nat) (f : DictItem K V → DictItem K V)

@[simp] lemma write_size : (write d i f).size = d.size := rfl
@[simp] lemma write_count : (write d i f).count = d.count := rfl
@[simp] lemma write_tombs : (write d i f).tombs = d.tombs := rfl
@[simp] lemma write_last : (write d i f).last = d.last := rfl
@[simp] lemma write_dflt : (write d i f).dflt = d.dflt := rfl
@[simp] lemma write_length : (write d i f).items.length = d.items.length := by simp [write]

lemma itemAt_write [Inhabited V] (hi : i < d.items.length) :
    itemAt (write d i f).items j = if j = i then f (itemAt d.items i) else itemAt d.items j :=
  itemAt_modify hi f

variable (p x : Option Nat)

@[simp] lemma setNext_size : (setNext d p x).size = d.size := by cases p <;> rfl
@[simp] lemma setNext_count : (setNext d p x).count = d.count := by cases p <;> rfl
@[simp] lemma setNext_tombs : (setNext d p x).tombs = d.tombs := by cases p <;> rfl
@[simp] lemma setNext_last : (setNext d p x).last = d.last := by cases p <;> rfl
@[simp] lemma setNext_dflt : (setNext d p x).dflt = d.dflt := by cases p <;> rfl
@[simp] lemma setNext_length : (setNext d p x).items.length = d.items.length := by
  cases p <;> simp [setNext]

@[simp] lemma setPrev_size : (setPrev d p x).size = d.size := by cases p <;> rfl
@[simp] lemma setPrev_count : (setPrev d p x).count = d.count := by cases p <;> rfl
@[simp] lemma setPrev_tombs : (setPrev d p x).tombs = d.tombs := by cases p <;> rfl
@[simp] lemma setPrev_last : (setPrev d p x).last = d.last := by cases p <;> rfl
@[simp] lemma setPrev_dflt : (setPrev d p x).dflt = d.dflt := by cases p <;> rfl
@[simp] lemma setPrev_length : (setPrev d p x).items.length = d.items.length := by
  cases p <;> simp [setPrev]

variable {d p}

lemma itemAt_setNext [Inhabited V] (hp : ∀ n, p = some n → n < d.items.length) :
    itemAt (setNext d p x).items j =
      { itemAt d.items j with next := if p = some j then x else (itemAt d.items j).next } := by
  cases p with
  | none => simp [setNext]
  | some n =>
    rw [setNext, itemAt_write d n j _ (hp n rfl)]
    by_cases hj : j = n
    · subst hj; simp
    · simp [hj, Ne.symm hj]

lemma itemAt_setPrev [Inhabited V] (hp : ∀ n, p = some n → n < d.items.length) :
    itemAt (setPrev d p x).items j =
      { itemAt d.items j with prev := if p = some j then x else (itemAt d.items j).prev } := by
  cases p with
  | none => simp [setPrev]
  | some n =>
    rw [setPrev, itemAt_write d n j _ (hp n rfl)]
    by_cases hj : j = n
    · subst hj; simp
    · simp [hj, Ne.symm hj]

end Fields

def Occ (d : Dict K V) (i : Nat) : Prop := (itemAt d.items i).k.occupied

def NonEmpty (d : Dict K V) (i : Nat) : Prop := (itemAt d.items i).k.isEmpty = false

instance (d : Dict K V) : DecidablePred (Occ d) :=
  fun i => inferInstanceAs (Decidable ((itemAt d.items i).k.occupied))

instance (d : Dict K V) : DecidablePred (NonEmpty d) :=
  fun i => inferInstanceAs (Decidable ((itemAt d.items i).k.isEmpty = false))

section
variable {d : Dict K V} {i : Nat}

lemma Occ.nonEmpty (h : Occ d i) : NonEmpty d i := by
  unfold Occ at h
  unfold NonEmpty
  cases hk : (itemAt d.items i).k <;> simp_all [SlotKey.occupied, SlotKey.isEmpty]

lemma Occ.exists_key (h : Occ d i) : ∃ k, (itemAt d.items i).k = .key k := by
  unfold Occ at h
  cases hk : (itemAt d.items i).k with
  | key k => exact ⟨k, rfl⟩
  | empty | tomb => rw [hk] at h; cases h

lemma occ_of_key {k : K} (h : (itemAt d.items i).k = .key k) : Occ d i := by
  unfold Occ
  rw [h]
  rfl

lemma Occ.lt (h : Occ d i) : i < d.items.length := by
  by_contra hlen
  unfold Occ at h
  rw [itemAt_of_length_le (by omega)] at h
  cases h

end

def ideal (size : Nat) (h : UInt64) : Nat := h.toNat &&& (size - 1)

/-- The item at `i` answers a search for `k` under the hash `h`. -/
def Matches [BEq K] (d : Dict K V) (h : UInt64) (k : K) (i : Nat) : Prop :=
  (itemAt d.items i).h = h ∧ (itemAt d.items i).k.eqv k

lemma Matches.occ [BEq K] {d : Dict K V} {h : UInt64} {k : K} {i : Nat}
    (hm : Matches d h k i) : Occ d i := by
  unfold Occ
  have := hm.2
  cases hk : (itemAt d.items i).k <;> simp_all [SlotKey.eqv, SlotKey.occupied]

structure Shape (d : Dict K V) : Prop where
  length : d.items.length = d.size
  pow : d.size = 0 ∨ ∃ n, 3 ≤ n ∧ d.size = 2 ^ n

/-- The invariant up to the `last` pointer and to where a key may be stored.
`order` lists the occupied slots from the oldest key to the newest. -/
structure Body [BEq K] [Hashable K] (d : Dict K V) (order : List Nat) : Prop extends Shape d where
  nodup : order.Nodup
  mem : ∀ i, i ∈ order ↔ Occ d i
  threaded : Linked (fun s => (itemAt d.items s).next) (fun s => (itemAt d.items s).prev)
    order.getLast? order
  clean : ∀ i, ¬ Occ d i → (itemAt d.items i).next = none ∧ (itemAt d.items i).prev = none
  count : d.count = order.length
  tombs : d.tombs = d.items.countP fun it => it.k.isTomb
  load : 0 < d.size → d.count + d.tombs < d.size
  hashed : ∀ i k, (itemAt d.items i).k = .key k → (itemAt d.items i).h = hash k
  distinct : order.Pairwise fun i j =>
    ∀ k, (itemAt d.items j).k = .key k → ¬ Matches d (itemAt d.items j).h k i

structure Core [BEq K] [Hashable K] (d : Dict K V) (order : List Nat) : Prop
    extends Body d order where
  last : d.last = order.getLast?

/-- A probe for the key in slot `i` meets no empty slot before it gets there. -/
def Reached (d : Dict K V) (i : Nat) : Prop :=
  Stretch d.size (NonEmpty d) (ideal d.size (itemAt d.items i).h) i

structure Inv [BEq K] [Hashable K] (d : Dict K V) (order : List Nat) : Prop
    extends Core d order where
  reach : ∀ i, Occ d i → Reached d i

lemma mask_eq_mod {size : Nat} (hpow : ∃ n, 3 ≤ n ∧ size = 2 ^ n) (x : Nat) :
    x &&& (size - 1) = x % size := by
  obtain ⟨n, -, rfl⟩ := hpow
  exact Nat.and_two_pow_sub_one_eq_mod x n

section Shape
omit [Inhabited V]

section
variable {d : Dict K V} (hd : Shape d) (hpos : 0 < d.size)
include hd hpos

lemma Shape.pow_of_pos : ∃ n, 3 ≤ n ∧ d.size = 2 ^ n := by
  rcases hd.pow with h | h
  · omega
  · exact h

lemma Shape.eight_le : 8 ≤ d.size := by
  obtain ⟨n, hn, hsize⟩ := hd.pow_of_pos hpos
  rw [hsize]
  calc 8 = 2 ^ 3 := rfl
    _ ≤ 2 ^ n := Nat.pow_le_pow_right (by omega) hn

lemma Shape.ideal_lt (h : UInt64) : ideal d.size h < d.size := by
  unfold ideal
  rw [mask_eq_mod (hd.pow_of_pos hpos)]
  exact Nat.mod_lt _ hpos

end

end Shape

section Core
variable [BEq K] [Hashable K] {d : Dict K V} {order : List Nat}

lemma Core.linked (hd : Core d order) :
    Linked (fun s => (itemAt d.items s).next) (fun s => (itemAt d.items s).prev) d.last order := by
  rw [hd.last]
  exact hd.threaded

section
variable (hd : Body d order) {s t : Nat}
include hd

lemma Body.lt_size {i : Nat} (hi : Occ d i) : i < d.size := by
  rw [← hd.length]
  exact hi.lt

lemma Body.size_pos {i : Nat} (hi : Occ d i) : 0 < d.size := by
  have := hd.lt_size hi
  omega

lemma Body.count_occupied : d.count = d.items.countP fun it => it.k.occupied := by
  rw [hd.count]
  exact length_eq_countP hd.nodup rfl hd.mem

lemma Body.exists_empty (hpos : 0 < d.size) : ∃ e, e < d.size ∧ ¬ NonEmpty d e := by
  by_contra hall
  push Not at hall
  have hload := hd.load hpos
  have hsum : ∀ items : List (DictItem K V),
      items.countP (fun it => it.k.occupied) + items.countP (fun it => it.k.isTomb) =
        items.countP fun it => !it.k.isEmpty := by
    intro items
    induction items with
    | nil => rfl
    | cons x xs ih =>
      have hx : (if x.k.occupied then 1 else 0) + (if x.k.isTomb then 1 else 0) =
          if !x.k.isEmpty then 1 else 0 := by
        cases x.k <;> rfl
      simp only [countP_cons]
      omega
  have hfull : d.items.countP (fun it => !it.k.isEmpty) = d.items.length := by
    rw [countP_eq_length]
    intro it hit
    obtain ⟨e, he, rfl⟩ := getElem_of_mem hit
    have := hall e (by rwa [← hd.length])
    unfold NonEmpty itemAt at this
    rw [getD_eq_getElem?_getD, getElem?_eq_getElem he] at this
    simpa using this
  have := hd.count_occupied
  have := hd.tombs
  have := hsum d.items
  have := hd.length
  omega

lemma Body.mem_of_pointer
    (h : (itemAt d.items s).next = some t ∨ (itemAt d.items s).prev = some t) : s ∈ order := by
  by_contra hs
  obtain ⟨hnext, hprev⟩ := hd.clean s fun ho => hs ((hd.mem s).mpr ho)
  simp [hnext, hprev] at h

lemma Body.next_eq_some :
    (itemAt d.items s).next = some t ↔ (itemAt d.items t).prev = some s :=
  ⟨fun h => (hd.threaded.prev_of_next (hd.mem_of_pointer (.inl h)) h).2,
    fun h => (hd.threaded.next_of_prev (hd.mem_of_pointer (.inr h)) h).2⟩

lemma Body.mem_of_next (h : (itemAt d.items s).next = some t) : s ∈ order ∧ t ∈ order :=
  ⟨hd.mem_of_pointer (.inl h), hd.mem_of_pointer (.inr (hd.next_eq_some.mp h))⟩

lemma Body.next_lt (h : (itemAt d.items s).next = some t) : t < d.items.length :=
  ((hd.mem t).mp (hd.mem_of_next h).2).lt

lemma Body.prev_lt (h : (itemAt d.items s).prev = some t) : t < d.items.length :=
  ((hd.mem t).mp (hd.mem_of_next (hd.next_eq_some.mpr h)).1).lt

lemma Body.next_ne_self (s : Nat) : (itemAt d.items s).next ≠ some s :=
  fun h => hd.threaded.next_ne_self hd.nodup (hd.mem_of_next h).1 h

lemma Body.prev_ne_self (s : Nat) : (itemAt d.items s).prev ≠ some s :=
  fun h => hd.next_ne_self s (hd.next_eq_some.mpr h)

end

end Core

section FindSpot
variable [BEq K] {d : Dict K V} {h : UInt64} {k : K}

/-- What the loop remembers of the slots between the ideal slot `p` and `i`:
the first tombstone, if there was one. -/
def Remembers (d : Dict K V) (p i : Nat) : Option Nat → Prop
  | none => Stretch d.size (Occ d) p i
  | some t => t < d.size ∧ ¬ Occ d t ∧ Stretch d.size (Occ d) p t

omit [BEq K] in
lemma Remembers.step {p i : Nat} (hp : p < d.size) (hi : i < d.size)
    (hne : NonEmpty d i) {tomb : Option Nat} (hr : Remembers d p i tomb) :
    Remembers d p ((i + 1) % d.size)
      (if tomb.isNone && (itemAt d.items i).k.isTomb then some i else tomb) := by
  cases tomb with
  | some t => simpa [Remembers] using hr
  | none =>
    cases hk : (itemAt d.items i).k with
    | empty => rw [NonEmpty, hk] at hne; cases hne
    | tomb =>
      have hocc : ¬ Occ d i := by
        unfold Occ
        rw [hk]
        exact Bool.false_ne_true
      simpa [SlotKey.isTomb, Remembers] using ⟨hi, hocc, hr⟩
    | key k' => simpa [SlotKey.isTomb, Remembers] using Stretch.snoc hp hi hr (occ_of_key hk)

variable (d h k) in
/-- The search stops at a match in front of the empty slot `e`, or else it has passed over every
slot in front of some empty one, and returns the first slot on its way that is free. -/
def StopsAt (p e r : Nat) : Prop :=
  r < d.size ∧ ((Matches d h k r ∧ ahead d.size p r ≤ ahead d.size p e) ∨
    (¬ Occ d r ∧ Stretch d.size (Occ d) p r ∧ ∃ e', e' < d.size ∧ ¬ NonEmpty d e' ∧
      Stretch d.size (fun j => NonEmpty d j ∧ ¬ Matches d h k j) p e'))

lemma findSpotLoop_spec (hd : Shape d) (hpos : 0 < d.size) {p e : Nat} (hp : p < d.size)
    (he : e < d.size) (hempty : ¬ NonEmpty d e) (fuel i : Nat) (tomb : Option Nat)
    (hi : i < d.size) (hle : ahead d.size p i ≤ ahead d.size p e)
    (hfuel : ahead d.size p e - ahead d.size p i < fuel)
    (hpath : Stretch d.size (fun j => NonEmpty d j ∧ ¬ Matches d h k j) p i)
    (hr : Remembers d p i tomb) :
    ∃ r, findSpotLoop d.items (d.size - 1) h k fuel i tomb = some r ∧ StopsAt d h k p e r := by
  induction fuel generalizing i tomb with
  | zero => omega
  | succ fuel ih =>
    unfold findSpotLoop
    by_cases hemp : (itemAt d.items i).k.isEmpty
    · have hnot : ¬ NonEmpty d i := by simp [NonEmpty, hemp]
      have hocc : ¬ Occ d i := fun ho => hnot ho.nonEmpty
      refine ⟨tomb.getD i, by simp [hemp], ?_⟩
      cases tomb with
      | none => exact ⟨hi, .inr ⟨hocc, hr, i, hi, hnot, hpath⟩⟩
      | some t => exact ⟨hr.1, .inr ⟨hr.2.1, hr.2.2, i, hi, hnot, hpath⟩⟩
    · have hne : NonEmpty d i := by simpa [NonEmpty] using hemp
      by_cases hm : ((itemAt d.items i).h == h && (itemAt d.items i).k.eqv k)
      · refine ⟨i, by simp [hemp, hm], hi, .inl ?_⟩
        exact ⟨by simpa [Matches] using hm, hle⟩
      have hnm : ¬ Matches d h k i := by
        intro hm'
        exact hm (by simp [hm'.1, hm'.2])
      have hie : i ≠ e := fun heq => hempty (heq ▸ hne)
      have hdist : ahead d.size p i ≠ ahead d.size p e := fun heq => hie (ahead_inj hp hi he heq)
      have hlt := ahead_lt hp he
      have hsucc := ahead_succ hp hi
      rw [if_neg (by omega)] at hsucc
      rw [if_neg hemp, if_neg hm, mask_eq_mod (hd.pow_of_pos hpos)]
      refine ih ((i + 1) % d.size) _ (Nat.mod_lt _ hpos) ?_ ?_ ?_ ?_
      · omega
      · omega
      · exact Stretch.snoc hp hi hpath ⟨hne, hnm⟩
      · exact hr.step hp hi hne

lemma findSpot_stops (hd : Shape d) (hpos : 0 < d.size) {e : Nat} (he : e < d.size)
    (hempty : ¬ NonEmpty d e) (h : UInt64) (k : K) :
    ∃ r, findSpot d.size d.items h k = some (.slot r) ∧ StopsAt d h k (ideal d.size h) e r := by
  have hp := hd.ideal_lt hpos h
  have hdist := ahead_lt hp he
  have hzero := ahead_self hp
  obtain ⟨r, hr, hstop⟩ := findSpotLoop_spec (h := h) (k := k) hd hpos hp he hempty
    d.size (ideal d.size h) none hp (by omega) (by omega) (Stretch.refl hp) (Stretch.refl hp)
  refine ⟨r, ?_, hstop⟩
  simp only [findSpot, if_neg (show ¬ d.size = 0 by omega)]
  change (findSpotLoop _ _ h k _ (ideal d.size h) none).map Spot.slot = _
  rw [hr]
  rfl

variable [Hashable K] {order : List Nat}

/-- `find_spot` terminates in every well-formed table. It returns a slot that
answers the search, or the first free slot of the probe sequence when none does. -/
lemma Inv.findSpot_spec (hd : Inv d order) (hpos : 0 < d.size) (h : UInt64) (k : K) :
    ∃ r, findSpot d.size d.items h k = some (.slot r) ∧ r < d.size ∧
      (Matches d h k r ∨ (¬ Occ d r ∧ Stretch d.size (Occ d) (ideal d.size h) r ∧
        ∀ j, ¬ Matches d h k j)) := by
  obtain ⟨e, he, hempty⟩ := hd.exists_empty hpos
  have hp := hd.toShape.ideal_lt hpos h
  obtain ⟨r, hr, hlt, hres⟩ := findSpot_stops hd.toShape hpos he hempty h k
  refine ⟨r, hr, hlt, ?_⟩
  rcases hres with ⟨hm, -⟩ | ⟨hocc, hpath, e', he', hempty', hpath'⟩
  · exact .inl hm
  refine .inr ⟨hocc, hpath, fun j hm => ?_⟩
  -- a match would lie in front of the empty slot, where the loop has been
  have hj := hd.lt_size hm.occ
  have hreach := hd.reach j hm.occ
  rw [Reached, hm.1] at hreach
  rcases Nat.lt_trichotomy (ahead d.size (ideal d.size h) j) (ahead d.size (ideal d.size h) e')
    with hlt | heq | hgt
  · exact (hpath'.at hp hj hlt).2 hm
  · exact hempty' (ahead_inj hp hj he' heq ▸ hm.occ.nonEmpty)
  · exact hempty' (hreach.at hp he' hgt)

lemma Body.findSpot_ne (hd : Body d order) {p : Nat} (hp : Occ d p) (hreach : ¬ Reached d p) :
    findSpot d.size d.items (itemAt d.items p).h k ≠ some (.slot p) := by
  have hpos := hd.size_pos hp
  have hstart := hd.toShape.ideal_lt hpos (itemAt d.items p).h
  unfold Reached Stretch at hreach
  push Not at hreach
  obtain ⟨s, hs, hempty⟩ := hreach
  have hlt := ahead_lt hstart (hd.lt_size hp)
  have hdist := ahead_add hstart (show s < d.size by omega)
  obtain ⟨r, hspot, -, hres⟩ :=
    findSpot_stops hd.toShape hpos (Nat.mod_lt _ hpos) hempty (itemAt d.items p).h k
  rw [hspot]
  intro heq
  cases heq
  rcases hres with ⟨-, hle⟩ | ⟨hocc, -⟩
  · omega
  · exact hocc hp

end FindSpot

end TyLang.Dict
