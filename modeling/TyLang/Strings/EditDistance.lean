import TyLang.Lib.Edits

/-!
`editDistance` of two strings (`lib/prelude.ty`), as lists of their characters. A table has the
distance of every two prefixes. A cell is found from the cells above, to the left and before these.
-/
namespace TyLang.Strings
open List Edits Option

variable {α : Type} [DecidableEq α]

/-- `min` of `m` and further arguments. -/
def builtinMin (m : Nat) (vs : List Nat) : Nat := vs.foldl (fun m v => if v < m then v else m) m

def cell (D : List (List Nat)) (i j : Nat) : Option Nat := D[i]?.bind (·[j]?)

def setCell (D : List (List Nat)) (i j v : Nat) : Option (List (List Nat)) :=
  (cell D i j).map fun _ => D.modify i (·.set j v)

/-- The body of the inner loop. -/
def fillCell (a b : List α) (i : Nat) (D : List (List Nat)) (j : Nat) :
    Option (List (List Nat)) := do
  let x ← a[i]?
  let y ← b[j]?
  let cost := if x = y then 0 else 1
  let above ← cell D i (j + 1)
  let left ← cell D (i + 1) j
  let before ← cell D i j
  let D ← setCell D (i + 1) (j + 1) (builtinMin (above + 1) [left + 1, before + cost])
  if 0 < i ∧ 0 < j ∧ b[j - 1]? = some x ∧ a[i - 1]? = some y then
    let here ← cell D (i + 1) (j + 1)
    let before ← cell D (i - 1) (j - 1)
    setCell D (i + 1) (j + 1) (builtinMin here [before + 1])
  else return D

def editDistance (a b : List α) : Option Nat := do
  let D := replicate (a.length + 1) (replicate (b.length + 1) 0)
  let D ← (List.range (a.length + 1)).foldlM (fun D i => setCell D i 0 i) D
  let D ← (List.range (b.length + 1)).foldlM (fun D j => setCell D 0 j j) D
  let D ← (List.range a.length).foldlM
    (fun D i => (List.range b.length).foldlM (fillCell a b i) D) D
  cell D a.length b.length

/-! ### Loops and cells -/

lemma builtinMin_le (m : Nat) (vs : List Nat) : ∀ v ∈ m :: vs, builtinMin m vs ≤ v := by
  induction vs generalizing m with
  | nil => simp [builtinMin]
  | cons w vs ih =>
    have hle := ih (if w < m then w else m) _ (.head _)
    simp only [forall_mem_cons] at ih ⊢
    refine ⟨?_, ?_, (ih _).2⟩
    · exact Nat.le_trans hle (by split <;> omega)
    · exact Nat.le_trans hle (by split <;> omega)

lemma builtinMin_mem (m : Nat) (vs : List Nat) : builtinMin m vs ∈ m :: vs := by
  induction vs generalizing m with
  | nil => simp [builtinMin]
  | cons w vs ih =>
    have hmem := ih (if w < m then w else m)
    rw [mem_cons] at hmem ⊢
    rcases hmem with heq | hmem
    · rw [builtinMin, foldl_cons, ← builtinMin, heq]
      split <;> simp
    · exact .inr (mem_cons_of_mem w hmem)

/-- What every round of a loop keeps holds after it. -/
lemma foldlM_range {σ : Type} {f : σ → Nat → Option σ} {P : Nat → σ → Prop} {s : σ} {n : Nat}
    (h0 : P 0 s) (hstep : ∀ k s, k < n → P k s → ∃ s', f s k = some s' ∧ P (k + 1) s') :
    ∃ s', (List.range n).foldlM f s = some s' ∧ P n s' := by
  induction n with
  | zero => exact ⟨s, rfl, h0⟩
  | succ n ih =>
    obtain ⟨s', hs', hP⟩ := ih fun k s hk => hstep k s (Nat.lt_succ_of_lt hk)
    obtain ⟨s'', hs'', hP'⟩ := hstep n s' (Nat.lt_succ_self n) hP
    refine ⟨s'', ?_, hP'⟩
    rw [range_succ, foldlM_append, hs']
    simp [hs'']

variable {D D' : List (List Nat)} {i j v n : Nat}

lemma setCell_eq (h : cell D i j = some n) : ∃ D', setCell D i j v = some D' ∧
    ∀ i' j', cell D' i' j' = if i' = i ∧ j' = j then some v else cell D i' j' := by
  refine ⟨_, by rw [setCell, h, map_some], fun i' j' => ?_⟩
  obtain ⟨row, hrow, hn⟩ := bind_eq_some_iff.mp h
  rw [cell, getElem?_modify]
  by_cases hi : i' = i
  · subst hi
    obtain ⟨hj, -⟩ := List.getElem?_eq_some_iff.mp hn
    by_cases hj' : j' = j
    · subst hj'
      simp [hrow, hj]
    · simp [cell, hrow, hj', Ne.symm hj']
  · simp [cell, hi, Ne.symm hi]

/-- Every cell is there, and those that are done have the distance of their prefixes. -/
def Table (a b : List α) (Done : Nat → Nat → Prop) (D : List (List Nat)) : Prop :=
  ∀ i j, i ≤ a.length → j ≤ b.length →
    ∃ n, cell D i j = some n ∧ (Done i j → IsDistance (a.take i) (b.take j) n)

variable {a b : List α} {Done Done' : Nat → Nat → Prop}

omit [DecidableEq α] in
lemma Table.set (h : Table a b Done D) (Done' : Nat → Nat → Prop) (hi : i ≤ a.length)
    (hj : j ≤ b.length)
    (hv : Done' i j → IsDistance (a.take i) (b.take j) v)
    (hdone : ∀ i' j', ¬ (i' = i ∧ j' = j) → Done' i' j' → Done i' j') :
    ∃ D', setCell D i j v = some D' ∧ cell D' i j = some v ∧ Table a b Done' D' := by
  obtain ⟨n, hn, -⟩ := h i j hi hj
  obtain ⟨D', hset, hcell⟩ := setCell_eq hn
  refine ⟨D', hset, by rw [hcell, if_pos ⟨rfl, rfl⟩], fun i' j' hi' hj' => ?_⟩
  rw [hcell]
  split
  next heq =>
    obtain ⟨rfl, rfl⟩ := heq
    exact ⟨v, rfl, hv⟩
  next hne =>
    obtain ⟨m, hm, hdist⟩ := h i' j' hi' hj'
    exact ⟨m, hm, fun hd => hdist (hdone i' j' hne hd)⟩

omit [DecidableEq α] in
lemma take_eq_append_iff {l l' : List α} {y : α} (hi : i ≤ l.length) :
    l.take i = l' ++ [y] ↔ 0 < i ∧ l[i - 1]? = some y ∧ l' = l.take (i - 1) := by
  cases i with
  | zero => simp
  | succ i =>
    have hlast := getElem?_eq_getElem hi
    rw [take_add_one, hlast, toList_some, Nat.add_sub_cancel, hlast, some.injEq]
    constructor
    · intro h
      obtain ⟨rfl, hy⟩ := append_inj' h rfl
      exact ⟨Nat.succ_pos i, singleton_inj.mp hy, rfl⟩
    · rintro ⟨-, rfl, rfl⟩
      rfl

/-! ### The loops -/

/-- The cells that are done when the inner loop is at `i` and `j`. -/
def Before (i j i' j' : Nat) : Prop := i' ≤ i ∨ j' = 0 ∨ i' = i + 1 ∧ j' ≤ j

lemma fillCell_spec (hi : i < a.length) (hj : j < b.length) (h : Table a b (Before i j) D) :
    ∃ D', fillCell a b i D j = some D' ∧ Table a b (Before i (j + 1)) D' := by
  obtain ⟨n1, h1, d1⟩ := h i (j + 1) (by omega) hj
  obtain ⟨n2, h2, d2⟩ := h (i + 1) j hi (by omega)
  obtain ⟨n3, h3, d3⟩ := h i j (by omega) (by omega)
  obtain ⟨x, hx⟩ : ∃ x, a[i]? = some x := ⟨_, getElem?_eq_getElem hi⟩
  obtain ⟨y, hy⟩ : ∃ y, b[j]? = some y := ⟨_, getElem?_eq_getElem hj⟩
  have ha : a.take (i + 1) = a.take i ++ [x] := by rw [take_add_one, hx, toList_some]
  have hb : b.take (j + 1) = b.take j ++ [y] := by rw [take_add_one, hy, toList_some]
  have e1 := d1 (.inl .refl)
  have e2 := d2 (.inr (.inr ⟨rfl, .refl⟩))
  have e3 := d3 (.inl .refl)
  rw [hb] at e1
  rw [ha] at e2
  simp only [fillCell, hx, hy, h1, h2, h3, bind_eq_bind, bind_some]
  generalize hmin : builtinMin (n1 + 1) [n2 + 1, n3 + if x = y then 0 else 1] = n
  have hle := builtinMin_le (n1 + 1) [n2 + 1, n3 + if x = y then 0 else 1]
  have hmem := builtinMin_mem (n1 + 1) [n2 + 1, n3 + if x = y then 0 else 1]
  rw [hmin] at hle hmem
  obtain ⟨hle1, hle2, hle3, -⟩ := by simpa only [forall_mem_cons] using hle
  have hnext : ∀ i' j', ¬ (i' = i + 1 ∧ j' = j + 1) → Before i (j + 1) i' j' →
      Before i j i' j' := by
    unfold Before
    omega
  by_cases hcond : 0 < i ∧ 0 < j ∧ b[j - 1]? = some x ∧ a[i - 1]? = some y
  · obtain ⟨hi0, hj0, hbx, hay⟩ := hcond
    obtain ⟨D1, hset, hcell, htable⟩ : ∃ D1, setCell D (i + 1) (j + 1) n = some D1 ∧
        cell D1 (i + 1) (j + 1) = some n ∧ Table a b (Before i j) D1 :=
      h.set (Before i j) hi hj (fun hd => by unfold Before at hd; omega) fun _ _ _ hd => hd
    obtain ⟨n4, h4, d4⟩ := htable (i - 1) (j - 1) (by omega) (by omega)
    have e4 := d4 (.inl (Nat.sub_le i 1))
    have hle4 := builtinMin_le n [n4 + 1]
    have hmem4 := builtinMin_mem n [n4 + 1]
    simp only [mem_cons, not_mem_nil, or_false, forall_eq_or_imp, forall_eq] at hle4 hmem4
    have hai := (take_eq_append_iff (Nat.le_of_lt hi)).mpr ⟨hi0, hay, rfl⟩
    have hbj := (take_eq_append_iff (Nat.le_of_lt hj)).mpr ⟨hj0, hbx, rfl⟩
    obtain ⟨D2, hset2, -, htable2⟩ := htable.set (Before i (j + 1)) hi hj
      (v := builtinMin n [n4 + 1])
      (fun _ => by
        rw [ha, hb]
        refine isDistance_of_last e1 e2 e3 (by omega) (by omega) (by omega) ?_ ?_
        · intro a' b' m ha' hb' hm
          obtain ⟨rfl, -⟩ := append_inj' (hai.symm.trans ha') rfl
          obtain ⟨rfl, -⟩ := append_inj' (hbj.symm.trans hb') rfl
          exact Nat.le_trans hle4.2 (Nat.succ_le_succ (e4.least m hm))
        · rcases hmem4 with heq | heq
          · exact .inl (by rwa [heq])
          · exact .inr ⟨_, _, n4, hai, hbj, e4.reached, heq⟩) hnext
    exact ⟨D2, by simp [hset, hi0, hj0, hbx, hay, hcell, h4, hset2], htable2⟩
  · obtain ⟨D1, hset, -, htable⟩ := h.set (Before i (j + 1)) hi hj (v := n) (fun _ => by
      rw [ha, hb]
      refine isDistance_of_last e1 e2 e3 hle1 hle2 hle3 ?_ (.inl hmem)
      intro a' b' m ha' hb' _
      obtain ⟨hi0, hay, -⟩ := (take_eq_append_iff (Nat.le_of_lt hi)).mp ha'
      obtain ⟨hj0, hbx, -⟩ := (take_eq_append_iff (Nat.le_of_lt hj)).mp hb'
      exact absurd ⟨hi0, hj0, hbx, hay⟩ hcond) hnext
    exact ⟨D1, by simp [hset, hcond], htable⟩

omit [DecidableEq α] in
lemma Table.firstColumn (h : Table a b (fun i' j' => j' = 0 ∧ i' < i) D) (hi : i ≤ a.length) :
    ∃ D', setCell D i 0 i = some D' ∧ Table a b (fun i' j' => j' = 0 ∧ i' < i + 1) D' := by
  have hdist := (isDistance_nil_left (a.take i)).flip
  rw [length_take, Nat.min_eq_left hi] at hdist
  obtain ⟨D', hset, -, hD'⟩ := h.set (fun i' j' => j' = 0 ∧ i' < i + 1) hi (Nat.zero_le _)
    (fun _ => hdist) (by omega)
  exact ⟨D', hset, hD'⟩

omit [DecidableEq α] in
lemma Table.firstRow (h : Table a b (fun i' j' => j' = 0 ∨ i' = 0 ∧ j' < j) D)
    (hj : j ≤ b.length) : ∃ D', setCell D 0 j j = some D' ∧
      Table a b (fun i' j' => j' = 0 ∨ i' = 0 ∧ j' < j + 1) D' := by
  have hdist := isDistance_nil_left (b.take j)
  rw [length_take, Nat.min_eq_left hj] at hdist
  obtain ⟨D', hset, -, hD'⟩ := h.set (fun i' j' => j' = 0 ∨ i' = 0 ∧ j' < j + 1) (Nat.zero_le _) hj
    (fun _ => hdist) (by omega)
  exact ⟨D', hset, hD'⟩

omit [DecidableEq α] in
lemma Table.mono (h : Table a b Done D)
    (hdone : ∀ i j, i ≤ a.length → j ≤ b.length → Done' i j → Done i j) : Table a b Done' D :=
  fun i j hi hj => (h i j hi hj).imp fun _ hn => ⟨hn.1, fun hd => hn.2 (hdone i j hi hj hd)⟩

lemma editDistance_spec (a b : List α) : ∃ n, editDistance a b = some n ∧ IsDistance a b n := by
  have hstart : Table a b (fun i j => j = 0 ∧ i < 0)
      (replicate (a.length + 1) (replicate (b.length + 1) 0)) := fun i j hi hj =>
    ⟨0, by simp [cell, Nat.lt_succ_of_le hi, Nat.lt_succ_of_le hj], by simp⟩
  obtain ⟨D1, hD1, hcolumn⟩ := foldlM_range
    (P := fun i D => Table a b (fun i' j' => j' = 0 ∧ i' < i) D) hstart fun i D hi h =>
      h.firstColumn (Nat.le_of_lt_succ hi)
  obtain ⟨D2, hD2, hrow⟩ := foldlM_range
    (P := fun j D => Table a b (fun i' j' => j' = 0 ∨ i' = 0 ∧ j' < j) D)
    (hcolumn.mono (by omega)) fun j D hj h => h.firstRow (Nat.le_of_lt_succ hj)
  obtain ⟨D3, hD3, hall⟩ := foldlM_range (n := a.length) (P := fun i D => Table a b (Before i 0) D)
    (f := fun D i => (range b.length).foldlM (fillCell a b i) D)
    (hrow.mono (by unfold Before; omega)) fun i D hi h => by
      obtain ⟨D', hD', hdone⟩ := foldlM_range (P := fun j D => Table a b (Before i j) D) h
        fun j D hj h => fillCell_spec hi hj h
      exact ⟨D', hD', hdone.mono (by unfold Before; omega)⟩
  obtain ⟨n, hn, hdist⟩ := hall a.length b.length .refl .refl
  have h := hdist (.inl .refl)
  rw [take_length, take_length] at h
  exact ⟨n, by simp [editDistance, hD1, hD2, hD3, hn], h⟩

theorem editDistance_optimal (a b : List α) : ∃ n, editDistance a b = some n ∧ IsDistance a b n ∧
    editDistance b a = some n ∧ (n = 0 ↔ a = b) ∧ a.length - b.length ≤ n ∧
    b.length - a.length ≤ n ∧ n ≤ max a.length b.length := by
  obtain ⟨n, hn, h⟩ := editDistance_spec a b
  obtain ⟨m, hm, h'⟩ := editDistance_spec b a
  have hlen := h.reached.length_le
  have hlen' := h.flip.reached.length_le
  exact ⟨n, hn, h, h.flip.unique h' ▸ hm, h.eq_zero_iff, by omega, by omega, h.le_max⟩

example : editDistance ['c', 'a'] ['a', 'b', 'c'] = some 3 := by decide

end TyLang.Strings
