import TyLang.Dict.Update

/-!
The Robin Hood loop started on a slot that `find_spot` would not have chosen. It
still ends and still only permutes the keys. But when the walk displaces a free
slot, the `last` pointer is left on a free slot for good, and when it does not
but drops an item behind an empty slot, that item is lost to every search.
-/
namespace TyLang.Dict
open Cyclic Equiv

variable {K V : Type} [Inhabited V] {d : Dict K V}

section Keys

lemma modify_key {items : List (DictItem K V)} (f : DictItem K V → DictItem K V)
    (hf : ∀ it, (f it).k = it.k) (n s : Nat) :
    (itemAt (items.modify n f) s).k = (itemAt items s).k := by
  by_cases hn : n < items.length
  · rw [itemAt_modify hn]
    split
    next h => rw [hf, h]
    next => rfl
  · rw [List.modify_eq_self (by omega)]

lemma linkxd_key (i s : Nat) : (itemAt (linkxd d i).items s).k = (itemAt d.items s).k := by
  have hnext : ∀ (e : Dict K V) p x,
      (itemAt (setNext e p x).items s).k = (itemAt e.items s).k := by
    intro e p x
    cases p with
    | none => rfl
    | some n => exact modify_key (fun it => { it with next := x }) (fun _ => rfl) n s
  have hprev : ∀ (e : Dict K V) p x,
      (itemAt (setPrev e p x).items s).k = (itemAt e.items s).k := by
    intro e p x
    cases p with
    | none => rfl
    | some n => exact modify_key (fun it => { it with prev := x }) (fun _ => rfl) n s
  unfold linkxd
  rw [hnext]
  split
  · rw [hprev]
  · rfl

lemma swap_key {i j : Nat} (hi : i < d.items.length) (hj : j < d.items.length) (s : Nat) :
    (itemAt (swap d i j).items s).k = (itemAt d.items (Equiv.swap i j s)).k := by
  unfold swap
  rw [linkxd_key, linkxd_key, itemAt_write _ j s _ (by simpa using hj), itemAt_write d i s _ hi]
  by_cases hsj : s = j
  · subst hsj; simp
  · by_cases hsi : s = i
    · subst hsi; simp [hsj]
    · simp [hsi, hsj, swap_apply_of_ne_of_ne hsi hsj]

/-- What the loop keeps in any table: the keys, up to a permutation of the
slots, and the counters. -/
structure Permuted (d d' : Dict K V) : Prop where
  size : d'.size = d.size
  length : d'.items.length = d.items.length
  count : d'.count = d.count
  keys : ∃ σ : Equiv.Perm Nat, ∀ s, (itemAt d'.items s).k = (itemAt d.items (σ s)).k
  occupied : d'.items.countP (fun it => it.k.occupied) = d.items.countP fun it => it.k.occupied

lemma Permuted.refl (d : Dict K V) : Permuted d d :=
  ⟨rfl, rfl, rfl, ⟨Equiv.refl Nat, fun _ => rfl⟩, rfl⟩

lemma Permuted.trans {d1 d2 d3 : Dict K V} (h : Permuted d1 d2) (h' : Permuted d2 d3) :
    Permuted d1 d3 := by
  obtain ⟨σ, hσ⟩ := h.keys
  obtain ⟨τ, hτ⟩ := h'.keys
  refine ⟨h'.size.trans h.size, h'.length.trans h.length, h'.count.trans h.count,
    ⟨τ.trans σ, fun s => ?_⟩, h'.occupied.trans h.occupied⟩
  rw [hτ, hσ]
  rfl

lemma permuted_swap {i j : Nat} (hi : i < d.items.length) (hj : j < d.items.length) :
    Permuted d (swap d i j) :=
  ⟨swap_size, swap_length, swap_count, ⟨Equiv.swap i j, swap_key hi hj⟩,
    countP_swap _ _ swap_length hi hj fun s => by rw [swap_key hi hj]⟩

lemma robinhoodLoop_permuted {lo hi fuel i : Nat} (hd : Shape d) (hlo : lo < d.size)
    (hhi : hi < d.size) (hfuel : ahead d.size lo hi < fuel) :
    ∃ d' i', robinhoodLoop (d.size - 1) hi fuel d lo i = some (d', i') ∧ Permuted d d' := by
  induction fuel generalizing d lo i with
  | zero => omega
  | succ fuel ih =>
    unfold robinhoodLoop
    by_cases hend : lo = hi
    · exact ⟨d, i, by simp [hend], Permuted.refl d⟩
    have hpos : 0 < d.size := by omega
    have hlt : (lo + 1) % d.size < d.size := Nat.mod_lt _ hpos
    have hnext := ahead_succ_left hlo hhi hend
    simp only [if_neg hend, mask_eq_mod (hd.pow_of_pos hpos) (lo + 1)]
    split
    next =>
      have hstep := permuted_swap (d := d) (i := lo) (j := hi)
        (by rwa [hd.length]) (by rwa [hd.length])
      have hshape : Shape (swap d lo hi) := ⟨by simpa using hd.length, by simpa using hd.pow⟩
      obtain ⟨d', i', hrun, hperm⟩ :=
        @ih (swap d lo hi) ((lo + 1) % d.size) (if hi = i then lo else i) hshape
          (by rwa [swap_size]) (by rwa [swap_size]) (by rw [swap_size]; omega)
      rw [swap_size] at hrun
      exact ⟨d', i', hrun, hstep.trans hperm⟩
    next => exact ih hd hlt hhi (by omega)

end Keys

variable [BEq K] [Hashable K] {order : List Nat}

/-- The state after the walk has displaced a free slot: `last` points to a free
slot that is `hi` or behind the walk, and so is the true end of the list. -/
structure Stray (d : Dict K V) (order : List Nat) (lo hi : Nat) : Prop where
  body : Body d order
  last : ∃ t, d.last = some t ∧ t < d.size ∧ ¬ Occ d t ∧ Tracked d.size lo hi t
  tail : ∀ z, order.getLast? = some z → ahead d.size lo hi < ahead d.size lo z

section Stray
variable {lo hi : Nat}

lemma Stray.next_eq_none (hd : Stray d order lo hi) (hlo : lo < d.size) {s : Nat}
    (hs : s = lo ∨ s = hi) : (itemAt d.items s).next = none ↔ ¬ Occ d s := by
  constructor
  · intro hnone hocc
    have hlast := (hd.body.threaded.next_eq_none hd.body.nodup ((hd.body.mem s).mpr hocc)).mp hnone
    have hlt := hd.tail s hlast
    rcases hs with rfl | rfl
    · rw [ahead_self hlo] at hlt
      omega
    · omega
  · exact fun hfree => (hd.body.clean s hfree).1

lemma Body.tail_step (hd : Body d order) (hlo : lo < d.size) (hhi : hi < d.size)
    (hne : lo ≠ hi) {z : Nat} (hz : order.getLast? = some z)
    (htail : ahead d.size lo hi < ahead d.size lo z) :
    z ≠ lo ∧ z ≠ hi ∧ ahead d.size ((lo + 1) % d.size) hi < ahead d.size ((lo + 1) % d.size) z := by
  have hzlo : z ≠ lo := by
    rintro rfl
    rw [ahead_self hlo] at htail
    omega
  have hzhi : z ≠ hi := by
    rintro rfl
    omega
  have hzlt := hd.lt_size ((hd.mem z).mp (List.mem_of_getLast? hz))
  rcases Tracked.step hlo hhi hzlt hne (.inr htail) with h | h
  · exact absurd h hzhi
  · exact ⟨hzlo, hzhi, h⟩

lemma Stray.skip (hd : Stray d order lo hi) (hlo : lo < d.size) (hhi : hi < d.size)
    (hne : lo ≠ hi) : Stray d order ((lo + 1) % d.size) hi := by
  obtain ⟨t, hlast, htlt, htfree, htrack⟩ := hd.last
  exact ⟨hd.body, ⟨t, hlast, htlt, htfree, htrack.step hlo hhi htlt hne⟩,
    fun z hz => (hd.body.tail_step hlo hhi hne hz (hd.tail z hz)).2.2⟩

lemma Body.tail_swap (hd : Body d order) (hlo : lo < d.size) (hhi : hi < d.size)
    (hne : lo ≠ hi) (htail : ∀ z, order.getLast? = some z → ahead d.size lo hi < ahead d.size lo z)
    {z : Nat} (hz : (order.map (Equiv.swap lo hi)).getLast? = some z) :
    ahead d.size ((lo + 1) % d.size) hi < ahead d.size ((lo + 1) % d.size) z := by
  rw [List.getLast?_map, Option.map_eq_some_iff] at hz
  obtain ⟨y, hy, rfl⟩ := hz
  obtain ⟨hylo, hyhi, hstep⟩ := hd.tail_step hlo hhi hne hy (htail y hy)
  rwa [swap_apply_of_ne_of_ne hylo hyhi]

lemma Stray.swapped (hd : Stray d order lo hi) (hlo : lo < d.size) (hhi : hi < d.size)
    (hne : lo ≠ hi) :
    Stray (swap d lo hi) (order.map (Equiv.swap lo hi)) ((lo + 1) % d.size) hi := by
  have hloLen : lo < d.items.length := by rwa [hd.body.length]
  have hhiLen : hi < d.items.length := by rwa [hd.body.length]
  refine ⟨hd.body.swapped hloLen hhiLen, ?_, ?_⟩
  · simp only [hd.body.swap_last hloLen hhiLen, hd.next_eq_none hlo (.inl rfl),
      hd.next_eq_none hlo (.inr rfl), swap_size, hd.body.swap_occ hloLen hhiLen]
    obtain ⟨t, hlast, htlt, htfree, htrack⟩ := hd.last
    by_cases hloOcc : Occ d lo
    · rw [if_neg (not_not.mpr hloOcc)]
      by_cases hhiOcc : Occ d hi
      · rw [if_neg (not_not.mpr hhiOcc)]
        have htlo : t ≠ lo := fun h => htfree (h ▸ hloOcc)
        have hthi : t ≠ hi := fun h => htfree (h ▸ hhiOcc)
        refine ⟨t, hlast, htlt, ?_, htrack.step hlo hhi htlt hne⟩
        rwa [swap_apply_of_ne_of_ne htlo hthi]
      · rw [if_pos hhiOcc]
        refine ⟨lo, rfl, hlo, ?_, Tracked.placed hlo hhi hne⟩
        rwa [swap_apply_left]
    · rw [if_pos hloOcc]
      refine ⟨hi, rfl, hhi, ?_, .inl rfl⟩
      rwa [swap_apply_right]
  · rw [swap_size]
    exact fun z => hd.body.tail_swap hlo hhi hne hd.tail

lemma Stray.run {fuel i : Nat} {d' : Dict K V} {i' : Nat} (hd : Stray d order lo hi)
    (hlo : lo < d.size) (hhi : hi < d.size)
    (hrun : robinhoodLoop (d.size - 1) hi fuel d lo i = some (d', i')) :
    ∃ t, d'.last = some t ∧ ¬ Occ d' t := by
  induction fuel generalizing d order lo i with
  | zero => cases hrun
  | succ fuel ih =>
    have hpos : 0 < d.size := by omega
    have hlt : (lo + 1) % d.size < d.size := Nat.mod_lt _ hpos
    unfold robinhoodLoop at hrun
    by_cases hend : lo = hi
    · rw [if_pos hend] at hrun
      cases hrun
      obtain ⟨t, hlast, -, hfree, -⟩ := hd.last
      exact ⟨t, hlast, hfree⟩
    · simp only [if_neg hend, mask_eq_mod (hd.body.pow_of_pos hpos) (lo + 1)] at hrun
      split at hrun
      next =>
        rw [← swap_size (d := d) (i := lo) (j := hi)] at hlt
        exact ih (hd.swapped hlo hhi hend) (by rwa [swap_size] at hlt ⊢) (by rwa [swap_size])
          (by rwa [swap_size])
      next => exact ih (hd.skip hlo hhi hend) hlt hhi hrun

end Stray

/-- A table that no search and no walk along the list can make sense of: the
list starts at a free slot, or an item cannot be found. -/
def Broken (d : Dict K V) : Prop :=
  (∃ t, d.last = some t ∧ ¬ Occ d t) ∨ ∃ order p, Core d order ∧ Occ d p ∧ ¬ Reached d p

section Unsettled
variable {lo hi : Nat}

/-- The swap of a free slot with the item in hand strands the `last` pointer. -/
lemma Core.stray_swap (hd : Core d order) (hhi : hi ∈ order) (hlo : lo < d.size)
    (hfree : ¬ Occ d lo) (htrack : ∀ z, d.last = some z → Tracked d.size lo hi z) :
    Stray (swap d lo hi) (order.map (Equiv.swap lo hi)) ((lo + 1) % d.size) hi := by
  have hhiOcc := (hd.mem hi).mp hhi
  have hhi_lt := hd.lt_size hhiOcc
  have hloLen : lo < d.items.length := by rwa [hd.length]
  have hne : lo ≠ hi := fun h => hfree (h ▸ hhiOcc)
  refine ⟨hd.toBody.swapped hloLen hhiOcc.lt, ⟨hi, ?_, ?_, ?_, .inl rfl⟩, ?_⟩
  · rw [hd.toBody.swap_last hloLen hhiOcc.lt, if_pos (hd.clean lo hfree).1]
  · rwa [swap_size]
  · rwa [hd.swap_occ hloLen hhiOcc.lt, swap_apply_right]
  · intro z hz
    rw [List.getLast?_map, Option.map_eq_some_iff, ← hd.last] at hz
    obtain ⟨y, hy, rfl⟩ := hz
    rw [swap_size]
    rcases htrack y hy with rfl | hbehind
    · rw [swap_apply_right]
      rcases Tracked.placed hlo hhi_lt hne with h | h
      · exact absurd h hne
      · exact h
    · rw [hd.last] at hy
      obtain ⟨hylo, hyhi, hstep⟩ := hd.tail_step hlo hhi_lt hne hy hbehind
      rwa [swap_apply_of_ne_of_ne hylo hyhi]

/-- What is wrong, or will go wrong, in a walk that does not settle: the rest of
the walk, or an item the walk has already left behind. -/
def Doomed (d : Dict K V) (lo hi fuel : Nat) : Prop :=
  settles d hi fuel lo (itemAt d.items hi).h = false ∨
    ∃ p, p < d.size ∧ Occ d p ∧ ¬ Reached d p ∧ ahead d.size lo hi < ahead d.size lo p

lemma behind_ne {size p : Nat} (hlo : lo < size) (h : ahead size lo hi < ahead size lo p) :
    p ≠ lo ∧ p ≠ hi := by
  constructor
  · rintro rfl
    rw [ahead_self hlo] at h
    omega
  · rintro rfl
    omega

lemma behind_step {size p : Nat} (hlo : lo < size) (hhi : hi < size) (hp : p < size)
    (hne : lo ≠ hi) (h : ahead size lo hi < ahead size lo p) :
    ahead size ((lo + 1) % size) hi < ahead size ((lo + 1) % size) p := by
  rcases Tracked.step hlo hhi hp hne (.inr h) with heq | hlt
  · exact absurd heq (behind_ne hlo h).2
  · exact hlt

lemma Body.doomed_swap {fuel : Nat} (hd : Body d order) (hloMem : lo ∈ order)
    (hhi : hi ∈ order) (hne : lo ≠ hi)
    (hdoom : (Stretch d.size (NonEmpty d) (ideal d.size (itemAt d.items hi).h) lo →
        settles d hi fuel ((lo + 1) % d.size) (itemAt d.items lo).h = false) ∨
      ∃ p, p < d.size ∧ Occ d p ∧ ¬ Reached d p ∧ ahead d.size lo hi < ahead d.size lo p) :
    Doomed (swap d lo hi) ((lo + 1) % d.size) hi fuel := by
  have hloOcc := (hd.mem lo).mp hloMem
  have hhiOcc := (hd.mem hi).mp hhi
  have hlo := hd.lt_size hloOcc
  have hhi_lt := hd.lt_size hhiOcc
  rcases hdoom with hrest | ⟨p, hp, hocc, hreach, hbehind⟩
  · by_cases hplace : Stretch d.size (NonEmpty d) (ideal d.size (itemAt d.items hi).h) lo
    · left
      have hhash := (hd.swap_content hloOcc.lt hhiOcc.lt hi).2.2
      rw [swap_apply_right] at hhash
      rw [hhash, hd.settles_swap hloMem hhi hlo]
      exact hrest hplace
    · refine .inr ⟨lo, by rwa [swap_size], ?_, ?_, ?_⟩
      · rwa [hd.swap_occ hloOcc.lt hhiOcc.lt, swap_apply_left]
      · rwa [hd.reached_swap hloMem hhi, swap_apply_left]
      · rw [swap_size]
        exact (Tracked.placed hlo hhi_lt hne).resolve_left hne
  · obtain ⟨hplo, hphi⟩ := behind_ne hlo hbehind
    refine .inr ⟨p, by rwa [swap_size], ?_, ?_, ?_⟩
    · rwa [hd.swap_occ hloOcc.lt hhiOcc.lt, swap_apply_of_ne_of_ne hplo hphi]
    · rwa [hd.reached_swap hloMem hhi, swap_apply_of_ne_of_ne hplo hphi]
    · rw [swap_size]
      exact behind_step hlo hhi_lt hp hne hbehind

/-- A walk that does not settle leaves a broken table. -/
lemma Core.doomed_run {fuel i : Nat} {d' : Dict K V} {i' : Nat} (hd : Core d order)
    (hhi : hi ∈ order) (hlo : lo < d.size) (hdoom : Doomed d lo hi fuel)
    (htrack : ∀ z, d.last = some z → Tracked d.size lo hi z)
    (hrun : robinhoodLoop (d.size - 1) hi fuel d lo i = some (d', i')) : Broken d' := by
  induction fuel generalizing d order lo i with
  | zero => cases hrun
  | succ fuel ih =>
    have hhiOcc := (hd.mem hi).mp hhi
    have hhi_lt := hd.lt_size hhiOcc
    have hpos : 0 < d.size := by omega
    have hlt : (lo + 1) % d.size < d.size := Nat.mod_lt _ hpos
    unfold robinhoodLoop at hrun
    by_cases hend : lo = hi
    · -- the walk is over: the item that cannot be reached is the last one or an earlier one
      rw [if_pos hend] at hrun
      cases hrun
      refine .inr ⟨order, ?_⟩
      rcases hdoom with hfalse | ⟨p, -, hocc, hreach, -⟩
      · refine ⟨hi, hd, hhiOcc, fun hreach => ?_⟩
        rw [settles, if_pos hend, decide_eq_false_iff_not, stretch_filled_iff hhiOcc.nonEmpty]
          at hfalse
        exact hfalse hreach
      · exact ⟨p, hd, hocc, hreach⟩
    · have htrack' : ∀ z, d.last = some z → Tracked d.size ((lo + 1) % d.size) hi z :=
        fun z hz => (htrack z hz).step hlo hhi_lt
          (hd.lt_size ((hd.mem z).mp (hd.linked.last_mem hz))) hend
      simp only [if_neg hend, mask_eq_mod (hd.pow_of_pos hpos) (lo + 1)] at hrun
      split at hrun
      next hgt =>
        by_cases hloOcc : Occ d lo
        · have hloMem := (hd.mem lo).mpr hloOcc
          have hmem : hi ∈ order.map (Equiv.swap lo hi) :=
            List.mem_map.mpr ⟨lo, hloMem, swap_apply_left lo hi⟩
          refine @ih (swap d lo hi) _ ((lo + 1) % d.size) _ (hd.swapped hloMem hhi) hmem
            (by rwa [swap_size]) (hd.doomed_swap hloMem hhi hend ?_) ?_ (by rwa [swap_size])
          · refine hdoom.imp_left fun hfalse hplace => ?_
            rw [settles] at hfalse
            simp only [if_neg hend, mask_eq_mod (hd.pow_of_pos hpos) (lo + 1)] at hfalse
            rw [if_pos hgt] at hfalse
            simpa [hloOcc, (stretch_filled_iff hhiOcc.nonEmpty).mpr hplace] using hfalse
          · intro z hz
            rw [hd.swap_last hloMem hhi, Option.map_eq_some_iff] at hz
            obtain ⟨y, hy, rfl⟩ := hz
            rw [swap_size]
            rcases htrack y hy with rfl | hbehind
            · rw [swap_apply_right]
              exact Tracked.placed hlo hhi_lt hend
            · obtain ⟨hylo, hyhi⟩ := behind_ne hlo hbehind
              rw [swap_apply_of_ne_of_ne hylo hyhi]
              exact htrack' y hy
        · have hstray := hd.stray_swap hhi hlo hloOcc htrack
          rw [← swap_size (d := d) (i := lo) (j := hi)] at hlt hhi_lt hrun
          exact .inl (hstray.run (by rwa [swap_size] at hlt ⊢) hhi_lt
            (by rwa [swap_size] at hrun ⊢))
      next hgt =>
        refine ih hd hhi hlt ?_ htrack' hrun
        rcases hdoom with hfalse | ⟨p, hp, hocc, hreach, hbehind⟩
        · left
          rw [settles] at hfalse
          simp only [if_neg hend, mask_eq_mod (hd.pow_of_pos hpos) (lo + 1)] at hfalse
          rwa [if_neg hgt] at hfalse
        · exact .inr ⟨p, hp, hocc, hreach, behind_step hlo hhi_lt hp hend hbehind⟩

end Unsettled

end TyLang.Dict
