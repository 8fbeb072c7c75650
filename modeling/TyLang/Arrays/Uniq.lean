import TyLang.Dict.Refinement
import TyLang.Lib.Overwriting

/-!
`uniq` of an array (`src/array.c`) and of an iterator (`lib/prelude.ty`). The array version
keeps an item if the cell of its key in a dict is nil, and stores the item in that cell. An item
that is nil leaves the cell as it was. A key need not equal itself.
-/
namespace TyLang.Arrays
open List Dict Overwriting

lemma exists_mem_concat {α : Type} {ps : List α} {x : α} {P : α → Prop} :
    (∃ p ∈ ps ++ [x], P p) ↔ (∃ p ∈ ps, P p) ∨ P x := by
  simp only [mem_append, mem_singleton, or_and_right, exists_or, exists_eq_left]

variable {K V : Type} [Inhabited V] [DecidableEq V] [BEq K] [Hashable K] (f : V → K)

/-- The loop of `array_uniq`, for the items from `i` on. The two counters are of type `int` in
the source; here they do not wrap around, so the array has fewer than `2 ^ 31` items. -/
def uniqLoop : Nat → List V → Nat → Nat → Dict K V → Option (List V × Nat)
  | 0, items, n, _, _ => some (items, n)
  | left + 1, items, n, i, d =>
    match items[i]? with
    | none => none
    | some e =>
      match dictPutKeyIfNotExists d (f e) with
      | none => none
      | some (d, j) =>
        if val d j = default then uniqLoop left (items.set n e) (n + 1) (i + 1) (setVal d j e)
        else uniqLoop left items n (i + 1) d

def arrayUniq (xs : List V) : Option (List V) :=
  (uniqLoop f xs.length xs 0 0 dictNew).map fun (items, n) => items.take n

/-- `Iter.uniq`, drained, with the dict `seen`. -/
def iterUniq : List V → Dict K V → Option (List V)
  | [], _ => some []
  | x :: xs, seen =>
    match spotOf seen (f x) with
    | none => none
    | some spot =>
      if occupied seen spot then iterUniq xs seen
      else
        match dictPutKeyIfNotExists seen (f x) with
        | none => none
        | some (seen, _) => (iterUniq xs seen).map (x :: ·)

/-! ### What is kept -/

/-- The items that a test keeps, which sees the items before each one. -/
def kept (keep : List V → V → Bool) : List V → List V → List V
  | _, [] => []
  | before, x :: xs =>
    if keep before x then x :: kept keep (before ++ [x]) xs else kept keep (before ++ [x]) xs

def isFirst (before : List V) (x : V) : Bool := !before.any fun p => f p == f x

/-- All items before with an equal key are nil. -/
def onlyNil (before : List V) (x : V) : Bool := before.all fun p => !(f p == f x) || p == default

variable {f} {p q : List V → V → Bool}

omit [Inhabited V] [DecidableEq V] in
lemma length_kept_le (hpq : ∀ b x, p b x → q b x)
    (before xs : List V) : (kept p before xs).length ≤ (kept q before xs).length := by
  induction xs generalizing before with
  | nil => exact .refl
  | cons x xs ih =>
    have hrest := ih (before ++ [x])
    rw [kept, kept]
    by_cases hp : p before x
    · rw [if_pos hp, if_pos (hpq before x hp), length_cons, length_cons]
      omega
    · rw [if_neg hp]
      split
      · rw [length_cons]
        omega
      · exact hrest

omit [Inhabited V] [DecidableEq V] in
/-- A weaker test keeps the same items only if it never differs. -/
lemma kept_eq_iff (hpq : ∀ b x, p b x → q b x)
    (before xs : List V) : kept q before xs = kept p before xs ↔
      ∀ b x a, xs = b ++ x :: a → q (before ++ b) x → p (before ++ b) x := by
  induction xs generalizing before with
  | nil => simp [kept]
  | cons x xs ih =>
    have hsplit : (∀ b y a, x :: xs = b ++ y :: a → q (before ++ b) y →
        p (before ++ b) y) ↔ (q before x → p before x) ∧
        ∀ b y a, xs = b ++ y :: a → q (before ++ [x] ++ b) y →
          p (before ++ [x] ++ b) y := by
      constructor
      · intro h
        refine ⟨by simpa using h [] x xs rfl, fun b y a heq => ?_⟩
        simpa using h (x :: b) y a (by rw [heq, cons_append])
      rintro ⟨hx, hrest⟩ b y a heq
      cases b with
      | nil =>
        cases heq
        simpa using hx
      | cons z b =>
        rw [cons_append, cons.injEq] at heq
        obtain ⟨rfl, heq⟩ := heq
        simpa using hrest b y a heq
    rw [hsplit, ← ih, kept, kept]
    by_cases hq : q before x
    · by_cases hp : p before x
      · simp [hp, hq]
      · -- one item more is kept
        have hlen := length_kept_le hpq (before ++ [x]) xs
        rw [if_pos hq, if_neg hp]
        refine iff_of_false (fun heq => ?_) (fun h => hp (h.1 hq))
        have := congrArg length heq
        rw [length_cons] at this
        omega
    · have hp : p before x ≠ true := fun hp => hq (hpq before x hp)
      simp [hp, hq]

omit [Inhabited V] [DecidableEq V] [Hashable K] in
lemma isFirst_iff {before : List V} {x : V} :
    isFirst f before x ↔ ¬ ∃ p ∈ before, (f p == f x) := by
  simp [isFirst]

omit [Hashable K] in
lemma onlyNil_iff {before : List V} {x : V} :
    onlyNil f before x ↔ ¬ ∃ p ∈ before, (f p == f x) ∧ p ≠ default := by
  simp [onlyNil, or_iff_not_imp_left]

omit [Inhabited V] [DecidableEq V] [Hashable K] in
lemma pairwise_kept_isFirst (before xs : List V) :
    (kept (isFirst f) before xs).Pairwise (fun x y => (f x == f y) = false) ∧
      ∀ x ∈ kept (isFirst f) before xs, ∀ p ∈ before, (f p == f x) = false := by
  induction xs generalizing before with
  | nil => simp [kept]
  | cons x xs ih =>
    obtain ⟨hpair, hbefore⟩ := ih (before ++ [x])
    simp only [forall_mem_append, forall_mem_singleton] at hbefore
    rw [kept]
    split
    next hx =>
      rw [pairwise_cons, forall_mem_cons]
      refine ⟨⟨fun y hy => (hbefore y hy).2, hpair⟩, ?_, fun y hy => (hbefore y hy).1⟩
      simpa [isFirst] using hx
    next => exact ⟨hpair, fun y hy => (hbefore y hy).1⟩

/-! ### The dict of keys -/

/-- The keys of a dict are those of the items `ps`. -/
structure Seen (f : V → K) (ps : List V) (d : Dict K V) : Prop where
  inv : ∃ order, Inv d order
  dflt : d.dflt = none
  has : ∀ k, (∃ i, Matches d (hash k) k i) ↔ ∃ p ∈ ps, (f p == k)

variable [LawfulHashable K] {d : Dict K V} {ps : List V} {x : V} {j : Nat}

omit [DecidableEq V] [LawfulHashable K] in
lemma seen_start : Seen f [] (dictNew : Dict K V) where
  inv := ⟨[], inv_dictNew⟩
  dflt := rfl
  has k := by
    refine iff_of_false (fun ⟨i, hm⟩ => ?_) (by simp)
    exact inv_dictNew.not_matches_of_size_zero rfl _ k i hm

omit [DecidableEq V] [Hashable K] [LawfulHashable K] in
lemma matches_setVal (hj : j < d.items.length) {h : UInt64} {k : K} {i : Nat} :
    Matches (setVal d j x) h k i ↔ Matches d h k i := by
  rw [Matches, Matches, itemAt_setVal hj]

omit [DecidableEq V] [LawfulHashable K] in
lemma Seen.setVal (h : Seen f ps d) (hj : j < d.size) : Seen f ps (Dict.setVal d j x) := by
  obtain ⟨order, hinv⟩ := h.inv
  refine ⟨⟨order, hinv.overwritten hj x⟩, h.dflt, fun k => ?_⟩
  simp only [matches_setVal (hinv.length.symm ▸ hj), h.has]

/-- The slot `j` is the one of the key of `x`: its cell was there before, or is new. -/
structure Spot (f : V → K) (x : V) (d d' : Dict K V) (j : Nat) : Prop where
  lt : j < d'.size
  key : ∀ k, Matches d' (hash k) k j ↔ (f x == k)
  cell : (∃ i, Matches d (hash (f x)) (f x) i ∧ val d i = val d' j) ∨
    (¬ ∃ i, Matches d (hash (f x)) (f x) i) ∧ val d' j = default
  other : ∀ k i, Matches d' (hash k) k i → i ≠ j → ∃ i', Matches d (hash k) k i' ∧
    val d i' = val d' i

omit [DecidableEq V] in
lemma Seen.put [PartialEquivBEq K] (h : Seen f ps d) (x : V) :
    ∃ d' j, dictPutKeyIfNotExists d (f x) = some (d', j) ∧ Seen f (ps ++ [x]) d' ∧
      Spot f x d d' j := by
  obtain ⟨order, hinv⟩ := h.inv
  obtain ⟨d', j, hput, hdflt, ⟨hm, rfl⟩ | ⟨absent, hstored, hnew⟩⟩ :=
    hinv.dictPutKeyIfNotExists_spec (f x)
  · have hiff := fun k i => hinv.matches_ensureInit (hash k) k i
    have hval : ∀ k i, Matches (ensureInit d) (hash k) k i → val d i = val (ensureInit d) i := by
      intro k i hmi
      obtain ⟨ki, hki⟩ := hmi.occ.exists_key
      have hentry := hinv.entry_ensureInit i
      rw [entry_of_key hki] at hentry
      exact (of_entry_eq_some hentry.symm).2
    obtain ⟨kj, hkj, hkx⟩ := hinv.matches_iff.mp hm
    have hkey : ∀ k, Matches d (hash k) k j ↔ (f x == k) := by
      intro k
      rw [hinv.matches_iff]
      constructor
      · rintro ⟨k', hk', hkk⟩
        rw [hkj] at hk'
        cases hk'
        exact BEq.trans (BEq.symm hkx) hkk
      · exact fun hxk => ⟨kj, hkj, BEq.trans hkx hxk⟩
    have hm' := (hiff _ _).mpr hm
    refine ⟨_, j, hput, ⟨⟨order, hinv.initialised⟩, hdflt.trans h.dflt, fun k => ?_⟩,
      hinv.initialised.lt_size hm'.occ, fun k => (hiff k j).trans (hkey k),
      .inl ⟨j, hm, hval _ j hm'⟩, fun k i hmi _ => ⟨i, (hiff k i).mp hmi, hval k i hmi⟩⟩
    simp only [hiff, h.has]
    rw [exists_mem_concat]
    refine ⟨Or.inl, fun hk => hk.elim id fun hxk => (h.has k).mp ⟨j, (hkey k).mpr hxk⟩⟩
  · have hinit : initialValue d (f x) = default := by rw [initialValue, h.dflt]
    rw [hinit] at hstored hnew
    obtain ⟨hkj, hvj⟩ := of_entry_eq_some hnew
    cases hstored with
    | replaced i hm => exact absurd hm (absent i)
    | appended _ order' hpos hinv' hent =>
      have hkey : ∀ k, Matches d' (hash k) k j ↔ (f x == k) := by
        intro k
        simp [hinv'.matches_iff, hkj]
      refine ⟨d', j, hput, ⟨⟨order', hinv'⟩, hdflt.trans h.dflt, fun k => ?_⟩,
        hinv'.lt_size (occ_of_key hkj), hkey, .inr ⟨fun ⟨i, hm⟩ => absent i hm, hvj⟩,
        fun k i hmi hij => ?_⟩
      · rw [exists_mem_concat, ← h.has, ← hinv'.has_iff, ← hinv.has_iff]
        rw [OrderedMap.Has, hent, exists_mem_concat, OrderedMap.Has]
      obtain ⟨ki, hki, hkk⟩ := hinv'.matches_iff.mp hmi
      have hentry : (ki, val d' i) ∈ entries d' order' := hinv'.mem_entries.mpr ⟨i, hki, rfl⟩
      rw [hent, mem_append, mem_singleton] at hentry
      rcases hentry with hold | hfresh
      · obtain ⟨i', hki', hvi'⟩ := hinv.mem_entries.mp hold
        exact ⟨i', hinv.matches_iff.mpr ⟨ki, hki', hkk⟩, hvi'⟩
      · -- there is one slot only for the new key
        rw [(Prod.mk.inj hfresh).1] at hkk
        exact absurd (hinv'.matches_unique hmi ((hkey k).mpr hkk)) hij

/-! ### The loops -/

/-- The cell of a key is nil exactly if all items with that key are. -/
def NilCells (f : V → K) (ps : List V) (d : Dict K V) : Prop :=
  ∀ k i, Matches d (hash k) k i → (val d i = default ↔ ¬ ∃ p ∈ ps, (f p == k) ∧ p ≠ default)

omit [LawfulHashable K] in
lemma Spot.val_iff {d' : Dict K V} (h : Seen f ps d) (hcells : NilCells f ps d)
    (hspot : Spot f x d d' j) : val d' j = default ↔ onlyNil f ps x := by
  rw [onlyNil_iff]
  rcases hspot.cell with ⟨i, hm, hval⟩ | ⟨absent, hval⟩
  · rw [← hval]
    exact hcells _ i hm
  · refine iff_of_true hval fun ⟨p, hp, hpx, _⟩ => absent ((h.has _).mpr ⟨p, hp, hpx⟩)

/-- The cells after the next item, if that of its key is as it should be. -/
lemma Spot.nilCells [PartialEquivBEq K] {d' d'' : Dict K V} (hcells : NilCells f ps d)
    (hseen : Seen f (ps ++ [x]) d') (hspot : Spot f x d d' j)
    (hmatches : ∀ k i, Matches d'' (hash k) k i ↔ Matches d' (hash k) k i)
    (hval : ∀ i, i ≠ j → val d'' i = val d' i)
    (hj : val d'' j = default ↔ onlyNil f ps x ∧ x = default) : NilCells f (ps ++ [x]) d'' := by
  obtain ⟨order, hinv⟩ := hseen.inv
  intro k i hm
  rw [hmatches] at hm
  rw [exists_mem_concat]
  by_cases hij : i = j
  · subst hij
    have hxk := (hspot.key k).mp hm
    have hiff : ∀ p, (f p == k) ↔ (f p == f x) := fun p =>
      ⟨fun hp => BEq.trans hp (BEq.symm hxk), fun hp => BEq.trans hp hxk⟩
    rw [hj, onlyNil_iff]
    simp only [hiff, (hiff x).mp hxk, true_and, not_or, not_not]
  · obtain ⟨i', hm', hvi'⟩ := hspot.other k i hm hij
    have hxk : ¬ (f x == k) := fun hxk => hij (hinv.matches_unique hm ((hspot.key k).mpr hxk))
    rw [hval i hij, ← hvi', hcells k i' hm']
    simp [hxk]

lemma uniqLoop_eq [PartialEquivBEq K] {xs items out rest : List V} {i : Nat} (hxs : xs = ps ++ rest)
    (hi : i = ps.length) (h : Seen f ps d) (hcells : NilCells f ps d)
    (hw : Writing xs items i out) :
    ∃ items', uniqLoop f rest.length items out.length i d =
      some (items', (out ++ kept (onlyNil f) ps rest).length) ∧
      items'.take (out ++ kept (onlyNil f) ps rest).length = out ++ kept (onlyNil f) ps rest := by
  induction rest generalizing ps items out i d with
  | nil => exact ⟨items, by simp [uniqLoop, kept], by simpa [kept] using hw.written⟩
  | cons x rest ih =>
    have hx : items[i]? = some x := by
      rw [hw.getElem?, hxs, hi]
      simp
    have hlt : i < xs.length := by
      rw [hxs, hi]
      simp
    obtain ⟨d', j, hput, hseen, hspot⟩ := h.put x
    have hval := hspot.val_iff h hcells
    have hnext : xs = ps ++ [x] ++ rest := by rw [hxs, append_assoc, singleton_append]
    have hlen : i + 1 = (ps ++ [x]).length := by rw [hi, length_append, length_singleton]
    rw [length_cons, uniqLoop, hx]
    simp only [hput, kept, hval]
    by_cases hkeep : onlyNil f ps x
    · have hj : j < d'.items.length := by
        obtain ⟨order, hinv⟩ := hseen.inv
        rw [hinv.length]
        exact hspot.lt
      have hcell : ∀ i, val (setVal d' j x) i = if i = j then x else val d' i := fun i => by
        rw [val, itemAt_setVal hj]
        rfl
      have hcells' : NilCells f (ps ++ [x]) (setVal d' j x) :=
        hspot.nilCells hcells hseen (fun k i => matches_setVal hj)
          (fun i hij => by rw [hcell, if_neg hij]) (by rw [hcell, if_pos rfl, and_iff_right hkeep])
      obtain ⟨items', hrun, htake⟩ := ih hnext hlen (hseen.setVal hspot.lt) hcells'
        (hw.set x hlt (Nat.lt_succ_self i))
      rw [if_pos hkeep, if_pos hkeep]
      rw [append_assoc, singleton_append] at hrun htake
      rw [length_append, length_singleton] at hrun
      exact ⟨items', hrun, htake⟩
    · have hcells' := hspot.nilCells hcells hseen (fun _ _ => .rfl) (fun _ _ => rfl)
        (by simp [hval, hkeep])
      rw [if_neg hkeep, if_neg hkeep]
      exact ih hnext hlen hseen hcells' (hw.skip (Nat.le_succ i))

lemma arrayUniq_eq [PartialEquivBEq K] (f : V → K) (xs : List V) :
    arrayUniq f xs = some (kept (onlyNil f) [] xs) := by
  have hcells : NilCells f [] (dictNew : Dict K V) := by
    intro k i hm
    exact absurd hm (inv_dictNew.not_matches_of_size_zero rfl _ k i)
  obtain ⟨items, hrun, htake⟩ := uniqLoop_eq rfl rfl seen_start hcells (writing_start xs)
  rw [nil_append, length_nil] at hrun
  rw [arrayUniq, hrun, Option.map_some]
  exact congrArg some htake

omit [DecidableEq V] in
lemma iterUniq_eq [PartialEquivBEq K] (h : Seen f ps d) (xs : List V) :
    iterUniq f xs d = some (kept (isFirst f) ps xs) := by
  induction xs generalizing ps d with
  | nil => rfl
  | cons x xs ih =>
    obtain ⟨order, hinv⟩ := h.inv
    obtain ⟨d', j, hput, hseen, -⟩ := h.put x
    rw [iterUniq, kept]
    have hfirst : isFirst f ps x ↔ ¬ ∃ i, Matches d (hash (f x)) (f x) i := by
      rw [h.has, isFirst_iff]
    rcases hinv.spotOf_cases (f x) with ⟨i, hspot, hocc, hm⟩ | ⟨s, hspot, hocc, absent⟩
    · rw [if_neg (fun hkeep => hfirst.mp hkeep ⟨i, hm⟩)]
      simp only [hspot, hocc, if_true]
      refine ih ⟨h.inv, h.dflt, fun k => ?_⟩
      rw [h.has, exists_mem_concat, iff_self_or]
      obtain ⟨p, hp, hpx⟩ := (h.has (f x)).mp ⟨i, hm⟩
      exact fun hxk => ⟨p, hp, BEq.trans hpx hxk⟩
    · rw [if_pos (hfirst.mpr fun ⟨i, hm⟩ => absent i hm)]
      simp only [hspot, hocc, hput, ih hseen, Bool.false_eq_true, if_false, Option.map_some]

/-! ### The two versions -/

/-- `Iter.uniq` keeps the first item of each key. So does `array_uniq` exactly if each item with
an equal key before it has one before it that is not nil. -/
theorem uniq_keeps_firsts_iff [PartialEquivBEq K] (f : V → K) (xs : List V) :
    iterUniq f xs dictNew = some (kept (isFirst f) [] xs) ∧
      (kept (isFirst f) [] xs).Pairwise (fun x y => (f x == f y) = false) ∧
      (arrayUniq f xs = some (kept (isFirst f) [] xs) ↔
        ∀ before x after, xs = before ++ x :: after → (∃ p ∈ before, (f p == f x)) →
          ∃ p ∈ before, (f p == f x) ∧ p ≠ default) := by
  refine ⟨iterUniq_eq seen_start xs, (pairwise_kept_isFirst [] xs).1, ?_⟩
  have himp : ∀ b x, isFirst f b x → onlyNil f b x := by
    intro b x hfirst
    exact onlyNil_iff.mpr fun ⟨p, hp, hpx, _⟩ => isFirst_iff.mp hfirst ⟨p, hp, hpx⟩
  rw [arrayUniq_eq, Option.some.injEq, kept_eq_iff himp]
  refine forall₄_congr fun b x a _ => ?_
  rw [nil_append, onlyNil_iff, isFirst_iff, not_imp_not]

theorem uniq_keeps_firsts_two : ∃ xs : List (Option Nat), xs = [some 2, some 1, some 2] ∧
    arrayUniq id xs = some [some 2, some 1] ∧ iterUniq id xs dictNew = some [some 2, some 1] := by
  obtain ⟨hiter, -, hiff⟩ := uniq_keeps_firsts_iff id [some 2, some 1, some 2]
  refine ⟨_, rfl, hiff.mpr fun before x after heq ⟨p, hp, hpx⟩ => ⟨p, hp, hpx, ?_⟩, hiter⟩
  have hmem : p ∈ [some 2, some 1, some 2] := heq ▸ mem_append_left _ hp
  rintro rfl
  simp at hmem

/-- Two nil items are both kept. -/
theorem uniq_keeps_nils : arrayUniq id [none, (none : Option Nat)] = some [none, none] ∧
    iterUniq id [none, (none : Option Nat)] dictNew = some [none] := by
  decide

end TyLang.Arrays
