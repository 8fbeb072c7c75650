import TyLang.Dict.Steps

/-!
The operations that walk over a dict: `pop` along the list, and `keep!`,
`intersect`, `subtract` and `update` over the slots. Deleting an item moves no
other item, which is what makes the slot loops safe.
-/
namespace TyLang.Dict
open List Cyclic

variable {K V : Type} [Inhabited V]

section Walk
variable {next prev : Nat → Option Nat} {last : Option Nat} {order : List Nat}

lemma walk_next (hl : Linked next prev last order) {l r : List Nat} {s : Nat} (n : Nat)
    (horder : order = l ++ s :: r) : walk next n s = (s :: r)[n]? := by
  induction n generalizing l r s with
  | zero => rfl
  | succ n ih =>
    rw [walk, hl.next_eq l s r horder, getElem?_cons_succ]
    cases r with
    | nil => rfl
    | cons t r => exact ih (l := l ++ [s]) (by simp [horder])

lemma walk_prev (hl : Linked next prev last order) {l r : List Nat} {s : Nat} (n : Nat)
    (horder : order = l ++ s :: r) : walk prev n s = (s :: l.reverse)[n]? := by
  induction n generalizing l r s with
  | zero => rfl
  | succ n ih =>
    rw [walk, hl.prev_eq l s r horder, getElem?_cons_succ]
    rcases eq_nil_or_concat l with rfl | ⟨l, t, rfl⟩
    · rfl
    · simp only [concat_eq_append, getLast?_append, getLast?_singleton,
        Option.some_or, Option.bind_some, reverse_append, reverse_singleton,
        singleton_append]
      exact ih (l := l) (r := s :: r) (by simp [horder])

end Walk

variable [BEq K] [Hashable K] {d : Dict K V} {order : List Nat}

lemma Core.popItem_eq (hd : Core d order) {i : Nat} (hi : i < order.length) :
    popItem d i = order[i]? := by
  unfold popItem
  split
  · obtain ⟨a, m, rfl⟩ := exists_cons_of_length_pos (by omega : 0 < order.length)
    rw [hd.dictFirst_eq]
    exact walk_next hd.linked (l := []) i rfl
  obtain ⟨m, z, rfl⟩ : ∃ m z, order = m ++ [z] := by
    rcases eq_nil_or_concat order with rfl | ⟨m, z, h⟩
    · simp at hi
    · exact ⟨m, z, by simpa using h⟩
  have hlast : d.last = some z := by rw [hd.last]; simp
  have hlen : d.count = (m ++ [z]).length := hd.count
  have hrev : z :: m.reverse = (m ++ [z]).reverse := by simp
  rw [hlast]
  simp only
  rw [walk_prev hd.linked (d.count - i - 1) rfl, hrev, getElem?_reverse (by omega), hlen]
  congr 1
  omega

/-- `dict_pop` takes the item at the index, counted along the list, or raises
an error when there is none. -/
lemma Inv.dictPop_spec (hd : Inv d order) (arg : Option Int) :
    ((popIndex d arg < 0 ∨ popIndex d arg ≥ d.count) ∧ ∃ msg, dictPop d arg = some (.raised msg)) ∨
      ∃ l s r k, order = l ++ s :: r ∧ popIndex d arg = l.length ∧
        (itemAt d.items s).k = .key k ∧
        dictPop d arg = some (.popped (delete d s) k (val d s)) := by
  by_cases hrange : popIndex d arg < 0 ∨ popIndex d arg ≥ d.count
  · exact .inl ⟨hrange, _, by simp only [dictPop]; exact if_pos hrange⟩
  right
  obtain ⟨n, hn⟩ : ∃ n : Nat, popIndex d arg = n := ⟨(popIndex d arg).toNat, by omega⟩
  have hcount := hd.count
  have hlt : n < order.length := by omega
  have hitem := hd.popItem_eq hlt
  obtain ⟨l, s, r, rfl, rfl⟩ : ∃ l s r, order = l ++ s :: r ∧ l.length = n :=
    ⟨order.take n, order[n], order.drop (n + 1), by simp, by simp; omega⟩
  obtain ⟨k, hk⟩ := ((hd.mem s).mp (by simp)).exists_key
  refine ⟨l, s, r, k, rfl, hn, hk, ?_⟩
  simp only [getElem?_append_right (Nat.le_refl l.length), Nat.sub_self,
    getElem?_cons_zero] at hitem
  simp only [dictPop]
  rw [if_neg hrange, hn, Int.toNat_natCast, hitem]
  simp only [hk]

def keeps (f : K → V → Bool) (d : Dict K V) (s : Nat) : Bool :=
  match (itemAt d.items s).k with
  | .key k => f k (val d s)
  | _ => true

omit [BEq K] [Hashable K] in
lemma keeps_of_content {f : K → V → Bool} {d d' : Dict K V} {s : Nat}
    (h : content d' s = content d s) : keeps f d' s = keeps f d s := by
  simp only [content, Prod.mk.injEq] at h
  unfold keeps val
  rw [h.1, h.2.1]

section
variable (f : K → V → Bool)
include f

lemma Inv.keepStep_spec (hd : Inv d order) (i : Nat) :
    Inv (keepStep f d i) (order.filter fun s => s ≠ i || keeps f d s) ∧
      ∀ s ∈ order.filter (fun s => s ≠ i || keeps f d s),
        content (keepStep f d i) s = content d s := by
  have hsame : keeps f d i → order.filter (fun s => s ≠ i || keeps f d s) = order := by
    intro hkeep
    rw [filter_eq_self]
    intro s _
    by_cases hs : s = i
    · simp [hs, hkeep]
    · simp [hs]
  cases hk : (itemAt d.items i).k with
  | empty | tomb =>
    have hkeep : keeps f d i := by simp [keeps, hk]
    have hstep : keepStep f d i = d := by simp only [keepStep, hk]
    rw [hsame hkeep, hstep]
    exact ⟨hd, fun _ _ => rfl⟩
  | key k =>
    have hkeep : keeps f d i = f k (val d i) := by simp [keeps, hk]
    by_cases hf : f k (val d i)
    · have hstep : keepStep f d i = d := by simp only [keepStep, hk, if_pos hf]
      rw [hsame (hkeep.trans hf), hstep]
      exact ⟨hd, fun _ _ => rfl⟩
    have hi := (hd.mem i).mpr (occ_of_key hk)
    simp only [keepStep, hk, if_neg hf]
    obtain ⟨l, r, rfl⟩ := append_of_mem hi
    have hfresh : i ∉ l ++ r := by
      have := hd.nodup
      rw [nodup_middle, nodup_cons] at this
      exact this.1
    rw [mem_append, not_or] at hfresh
    have hdrop : (l ++ i :: r).filter (fun s => s ≠ i || keeps f d s) = l ++ r := by
      rw [filter_append, filter_cons_of_neg (by simp [hkeep, hf]),
        filter_eq_self.mpr, filter_eq_self.mpr]
      · intro s hs
        have : s ≠ i := fun e => hfresh.2 (e ▸ hs)
        simp [this]
      · intro s hs
        have : s ≠ i := fun e => hfresh.1 (e ▸ hs)
        simp [this]
    rw [hdrop]
    refine ⟨hd.deleted, fun s hs => hd.delete_content hi ?_⟩
    rintro rfl
    rcases mem_append.mp hs with h | h
    · exact hfresh.1 h
    · exact hfresh.2 h

/-- The loop of `keep!` over any list of slots, by induction on the list. -/
lemma Inv.keep_run (hd : Inv d order) (slots : List Nat) :
    Inv (slots.foldl (keepStep f) d) (order.filter fun s => s ∉ slots || keeps f d s) ∧
      ∀ s ∈ order.filter (fun s => s ∉ slots || keeps f d s),
        content (slots.foldl (keepStep f) d) s = content d s := by
  induction slots generalizing d order with
  | nil => simpa using hd
  | cons i slots ih =>
    obtain ⟨hstep, hcontent⟩ := hd.keepStep_spec f i
    obtain ⟨hrun, hsame⟩ := ih hstep
    have hfilter : (order.filter fun s => s ≠ i || keeps f d s).filter
        (fun s => s ∉ slots || keeps f (keepStep f d i) s) =
        order.filter fun s => s ∉ i :: slots || keeps f d s := by
      rw [filter_congr fun s hs => by rw [keeps_of_content (hcontent s hs)], filter_filter]
      refine filter_congr fun s _ => ?_
      by_cases hs : s = i <;> by_cases hslots : s ∈ slots <;> cases keeps f d s <;>
        simp [hs, hslots]
    have hsub : ∀ s ∈ order.filter (fun s => s ∉ i :: slots || keeps f d s),
        s ∈ order.filter fun s => s ≠ i || keeps f d s := by
      rw [← hfilter]
      exact fun s hs => (mem_filter.mp hs).1
    rw [hfilter] at hrun hsame
    exact ⟨hrun, fun s hs => (hsame s hs).trans (hcontent s (hsub s hs))⟩

omit [BEq K] [Hashable K] in
lemma filter_entries (d : Dict K V) (order : List Nat) :
    entries d (order.filter (keeps f d)) = (entries d order).filter fun e => f e.1 e.2 := by
  unfold entries
  induction order with
  | nil => rfl
  | cons s order ih =>
    have hentry : keeps f d s = ((entry d s).map fun e => f e.1 e.2).getD true := by
      unfold keeps entry
      cases (itemAt d.items s).k <;> rfl
    cases he : entry d s with
    | none =>
      rw [he] at hentry
      rw [filter_cons_of_pos (by simpa using hentry), filterMap_cons_none he,
        filterMap_cons_none he, ih]
    | some e =>
      rw [he] at hentry
      cases hf : f e.1 e.2 with
      | true =>
        rw [filter_cons_of_pos (by simpa [hf] using hentry),
          filterMap_cons_some he, filterMap_cons_some he,
          filter_cons_of_pos (by simpa using hf), ih]
      | false =>
        rw [filter_cons_of_neg (by simp [hentry, hf]), filterMap_cons_some he,
          filter_cons_of_neg (by simp [hf]), ih]

omit [BEq K] [Hashable K] in
lemma keepStep_fields (d : Dict K V) (i : Nat) :
    (keepStep f d i).dflt = d.dflt ∧ (keepStep f d i).size = d.size := by
  unfold keepStep
  split
  · split <;> simp
  · exact ⟨rfl, rfl⟩

omit [BEq K] [Hashable K] in
lemma foldl_keepStep_fields (slots : List Nat) (d : Dict K V) :
    (slots.foldl (keepStep f) d).dflt = d.dflt ∧ (slots.foldl (keepStep f) d).size = d.size := by
  induction slots generalizing d with
  | nil => exact ⟨rfl, rfl⟩
  | cons i slots ih =>
    rw [foldl_cons, (ih _).1, (ih _).2]
    exact keepStep_fields f d i

lemma Inv.dictKeepMut_spec (hd : Inv d order) :
    ∃ order', Inv (dictKeepMut d f) order' ∧
      entries (dictKeepMut d f) order' = (entries d order).filter fun e => f e.1 e.2 := by
  obtain ⟨hinv, hcontent⟩ := hd.keep_run f (range d.size)
  refine ⟨_, hinv, ?_⟩
  have hall : order.filter (fun s => s ∉ range d.size || keeps f d s) =
      order.filter (keeps f d) := by
    refine filter_congr fun s hs => ?_
    have hlt := hd.lt_size ((hd.mem s).mp hs)
    simp [hlt]
  unfold dictKeepMut
  rw [entries_of_contents (map_congr_left hcontent), hall, filter_entries]

end

section Binary
variable {u : Option (Dict K V)} {f : Option (V → V → V)} {fuel i : Nat}

/-- The dict a loop reads from is well formed: it is another one, or the dict
that the loop changes. -/
def Readable (u : Option (Dict K V)) : Prop := ∀ o, u = some o → ∃ order, Inv o order

lemma Readable.inv (hu : Readable u) (hd : Inv d order) : ∃ order', Inv (u.getD d) order' := by
  cases u with
  | none => exact ⟨order, hd⟩
  | some o => exact hu o rfl

/-- Every round moves on to the next slot or deletes an item, so the loop ends
although a deleted slot is looked at twice. -/
lemma intersectLoop_spec (hu : Readable u) (hd : Inv d order)
    (hfuel : d.size - i + d.count < fuel) :
    ∃ d' order', intersectLoop u f fuel d i = some d' ∧ Inv d' order' := by
  induction fuel generalizing d order i with
  | zero => omega
  | succ fuel ih =>
    unfold intersectLoop
    by_cases hi : i < d.size
    · rw [if_pos hi]
      cases hk : (itemAt d.items i).k with
      | empty | tomb => exact ih hd (by omega)
      | key k =>
        obtain ⟨uorder, huinv⟩ := hu.inv hd
        obtain ⟨j, hspot, -⟩ := huinv.findSpot_total (itemAt d.items i).h k
        have hdelete : ∃ d' order', intersectLoop u f fuel (delete d i) i = some d' ∧
            Inv d' order' := by
          obtain ⟨l, r, horder, hdel⟩ := hd.delete_occ_slot (occ_of_key hk)
          have hcount : d.count = (l ++ r).length + 1 := by
            rw [hd.count, horder]
            simp
            omega
          exact ih hdel (by rw [delete_size, delete_count]; omega)
        simp only [hspot]
        cases hocc : occupied (u.getD d) j with
        | false => exact hdelete
        | true =>
          cases j with
          | noSuchSpot => cases hocc
          | slot j =>
            cases f with
            | none => exact ih hd (by omega)
            | some g =>
              refine ih (hd.overwritten hi _) ?_
              change d.size - (i + 1) + d.count < fuel
              omega
    · rw [if_neg hi]
      exact ⟨d, order, rfl, hd⟩

lemma Inv.dictIntersect_spec (hd : Inv d order) (hu : Readable u) :
    ∃ d' order', dictIntersect d u f = some d' ∧ Inv d' order' := by
  have hle := hd.length_order_le
  have hcount := hd.count
  exact intersectLoop_spec hu hd (by omega)

lemma subtractLoop_spec (hu : Readable u) (hd : Inv d order)
    (hfuel : (u.getD d).size - i < fuel) :
    ∃ d' order', subtractLoop u fuel d i = some d' ∧ Inv d' order' := by
  induction fuel generalizing d order i with
  | zero => omega
  | succ fuel ih =>
    unfold subtractLoop
    by_cases hi : i < (u.getD d).size
    · simp only [if_pos hi]
      cases hk : (itemAt (u.getD d).items i).k with
      | empty | tomb => exact ih hd (by omega)
      | key k =>
        obtain ⟨j, hspot, hres⟩ := hd.findSpot_total (itemAt (u.getD d).items i).h k
        simp only [hspot]
        cases hocc : occupied d j with
        | false => exact ih hd (by omega)
        | true =>
          obtain ⟨j, rfl, hm⟩ := hres hocc
          obtain ⟨l, r, -, hdel⟩ := hd.delete_occ_slot hm.occ
          have hsize : (u.getD (delete d j)).size = (u.getD d).size := by
            cases u <;> simp
          exact ih hdel (by rw [hsize]; omega)
    · simp only [if_neg hi]
      exact ⟨d, order, rfl, hd⟩

lemma Inv.dictSubtract_spec (hd : Inv d order) (hu : Readable u) :
    ∃ d' order', dictSubtract d u = some d' ∧ Inv d' order' :=
  subtractLoop_spec hu hd (by omega)

/-- Each round of `update` is a `put`, so whatever it returns is well formed. -/
lemma updateLoop_inv (hd : Inv d order) {d' : Dict K V}
    (hrun : updateLoop u f fuel d i = some d') : ∃ order', Inv d' order' := by
  induction fuel generalizing d order i with
  | zero => cases hrun
  | succ fuel ih =>
    unfold updateLoop at hrun
    by_cases hi : i < (u.getD d).size
    · simp only [if_pos hi] at hrun
      cases hk : (itemAt (u.getD d).items i).k with
      | empty | tomb =>
        rw [hk] at hrun
        exact ih hd hrun
      | key k =>
        rw [hk] at hrun
        cases f with
        | none =>
          obtain ⟨e, hput, hstored, -⟩ := hd.dictPutValue_spec k (val (u.getD d) i)
          obtain ⟨eorder, he⟩ := hstored.inv
          simp only [hput] at hrun
          exact ih he hrun
        | some g =>
          obtain ⟨e, w, hput, hstored, -⟩ := hd.dictPutValueWith_spec k (val (u.getD d) i) g
          obtain ⟨eorder, he⟩ := hstored.inv
          simp only [hput] at hrun
          exact ih he hrun
    · simp only [if_neg hi] at hrun
      cases hrun
      exact ⟨order, hd⟩

end Binary

end TyLang.Dict
