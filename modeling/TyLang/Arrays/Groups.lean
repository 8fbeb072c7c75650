import TyLang.Arrays.Flat
import TyLang.Lib.Overwriting

/-!
Groups of an array (`src/array.c`), and of an iterator (`lib/prelude.ty`). The methods of an
array write the groups into the array that they read, and keep their indices in variables of
type `int`. The iterator `groupsOf` takes from a source.
-/
namespace TyLang.Arrays
open List Overwriting Function CInt

variable {α : Type} {xs items out : List (Value α)} {x : Value α}

section Items

/-- The item at an index; `none` is a read outside of the array. -/
def itemAt (items : List (Value α)) (i : Int) : Option (Value α) :=
  if 0 ≤ i then items[i.toNat]? else none

/-- So many items from an index on. -/
def itemsFrom (items : List (Value α)) (i : Int) (size : Nat) : Option (List (Value α)) :=
  if 0 ≤ i ∧ i + size ≤ items.length then some ((items.drop i.toNat).take size) else none

/-- A write to the item at an index. -/
def setItem (items : List (Value α)) (i : Int) (v : Value α) : Option (List (Value α)) :=
  if 0 ≤ i ∧ i < items.length then some (items.set i.toNat v) else none

/-- The array with a count of type `int`. A negative one is a count beyond all items. -/
def withCount (items : List (Value α)) (n : Int) : Option (List (Value α)) :=
  if 0 ≤ n then some (items.take n.toNat) else none

lemma itemsFrom_eq {i size : Nat} (h : i + size ≤ items.length) :
    itemsFrom items i size = some ((items.drop i).take size) := by
  rw [itemsFrom, if_pos (by omega), Int.toNat_natCast]

lemma setItem_eq {i : Nat} (h : i < items.length) (v : Value α) :
    setItem items i v = some (items.set i v) := by
  rw [setItem, if_pos (by omega), Int.toNat_natCast]

lemma withCount_eq (items : List (Value α)) (n : Nat) :
    withCount items n = some (items.take n) := by
  rw [withCount, if_pos (by omega), Int.toNat_natCast]

lemma toInt_natCast {k : Nat} (h : k < 2 ^ 31) : toInt k = k :=
  toInt_of_isInt (by constructor <;> omega)

lemma lt_of_toInt_nonneg {k : Nat} (h : k ≤ 2 ^ 31) (hk : 0 ≤ toInt k) : k < 2 ^ 31 := by
  by_contra hlong
  rw [show k = 2 ^ 31 by omega] at hk
  exact absurd hk (by decide)

end Items

section GroupsOf

variable {β : Type} {n : Nat}

/-- The loop of `array_groups_of`, for a number of rounds. The end of a group is compared with
the count as an unsigned number. -/
def groupsLoop (size count : Nat) : Nat → List (Value α) → Int → Int →
    Option (List (Value α) × Int × Int)
  | 0, _, _, _ => none
  | rounds + 1, items, n, i =>
    if 0 ≤ i + size ∧ i + size ≤ count then do
      let group ← itemsFrom items i size
      let items ← setItem items n (.array group)
      groupsLoop size count rounds items (toInt (n + 1)) (toInt (i + size))
    else some (items, n, i)

/-- `groupsOf`, for a size that is positive. A round writes an item, so that there are no more
rounds than items. -/
def arrayGroupsOf (size : Nat) (keepShort : Bool) (xs : List (Value α)) :
    Option (List (Value α)) := do
  let (items, n, i) ← groupsLoop size xs.length (xs.length + 1) xs 0 0
  if keepShort && i != xs.length then
    let last ← itemsFrom items i (xs.length - i).toNat
    let items ← setItem items n (.array last)
    withCount items (toInt (n + 1))
  else withCount items n

/-- `Iter.take` and `list`: the items taken, and what is left of the source. -/
def iterTake : Nat → List β → List β × List β
  | 0, rest => ([], rest)
  | _ + 1, [] => ([], [])
  | n + 1, x :: rest => (x :: (iterTake n rest).1, (iterTake n rest).2)

/-- `Iter.groupsOf`, for a number of rounds. -/
def iterGroupsOf (n : Nat) (keepShort : Bool) : Nat → List β → Option (List (List β))
  | 0, _ => none
  | rounds + 1, rest =>
    let xs := (iterTake n rest).1
    if 0 < xs.length then
      (iterGroupsOf n keepShort rounds (iterTake n rest).2).map fun out =>
        if xs.length == n || keepShort then xs :: out else out
    else some []

lemma iterTake_eq (n : Nat) (xs : List β) : iterTake n xs = (xs.take n, xs.drop n) := by
  induction n generalizing xs with
  | zero => rfl
  | succ n ih =>
    cases xs with
    | nil => rfl
    | cons x xs => rw [iterTake, ih, take_succ_cons, drop_succ_cons]

/-- The groups of `n` items, and a last one with those that are left. -/
def chunks (n : Nat) : List β → List (List β)
  | [] => []
  | x :: xs => (x :: xs.take (n - 1)) :: chunks n (xs.drop (n - 1))
termination_by xs => xs.length
decreasing_by
  rw [length_drop, length_cons]
  omega

lemma chunks_nil (n : Nat) : chunks n ([] : List β) = [] := by
  rw [chunks]

lemma chunks_of_ne_nil (hn : 1 ≤ n) {xs : List β} (hxs : xs ≠ []) :
    chunks n xs = xs.take n :: chunks n (xs.drop n) := by
  obtain ⟨x, xs, rfl⟩ := exists_cons_of_ne_nil hxs
  obtain ⟨m, rfl⟩ := Nat.exists_eq_add_of_le' hn
  rw [chunks, take_succ_cons, drop_succ_cons, Nat.add_sub_cancel]

lemma flatten_chunks (n : Nat) (xs : List β) : (chunks n xs).flatten = xs := by
  induction xs using chunks.induct n with
  | case1 => rw [chunks_nil, flatten_nil]
  | case2 x xs ih => rw [chunks, flatten_cons, ih, cons_append, take_append_drop]

lemma length_of_mem_chunks (hn : 1 ≤ n) (xs : List β) :
    (∀ g ∈ (chunks n xs).dropLast, g.length = n) ∧
      ∀ g ∈ chunks n xs, g ≠ [] ∧ g.length ≤ n := by
  induction xs using chunks.induct n with
  | case1 => simp [chunks_nil]
  | case2 x xs ih =>
    rw [chunks]
    have htake : (x :: xs.take (n - 1)).length ≤ n := by
      rw [length_cons, length_take]
      omega
    refine ⟨fun g hg => ?_, forall_mem_cons.mpr ⟨⟨cons_ne_nil x _, htake⟩, ih.2⟩⟩
    by_cases hrest : xs.drop (n - 1) = []
    · simp [hrest, chunks_nil] at hg
    have hlong := length_pos_iff.mpr hrest
    rw [length_drop] at hlong
    rw [dropLast_cons_of_ne_nil (by rw [chunks_of_ne_nil hn hrest]; simp)] at hg
    rcases mem_cons.mp hg with rfl | hg
    · rw [length_cons, length_take]
      omega
    · exact ih.1 g hg

lemma iterGroupsOf_eq (hn : 1 ≤ n) (keepShort : Bool) {rounds : Nat} {xs : List β}
    (h : xs.length < rounds) : iterGroupsOf n keepShort rounds xs =
      some ((chunks n xs).filter fun g => g.length == n || keepShort) := by
  induction rounds generalizing xs with
  | zero => omega
  | succ rounds ih =>
    simp only [iterGroupsOf, iterTake_eq]
    by_cases hxs : xs = []
    · simp [hxs, chunks_nil]
    · have hpos := length_pos_iff.mpr hxs
      rw [if_pos (by rw [length_take]; omega), ih (by rw [length_drop]; omega),
        chunks_of_ne_nil hn hxs, filter_cons, Option.map_some]

lemma groupsLoop_step {size count rounds n i : Nat} (hcount : items.length = count)
    (hend : i + size ≤ count) (hn : n < count) :
    groupsLoop size count (rounds + 1) items n i =
      groupsLoop size count rounds (items.set n (.array ((items.drop i).take size)))
        (toInt (n + 1 : Nat)) (toInt (i + size : Nat)) := by
  rw [groupsLoop, if_pos (by omega), itemsFrom_eq (by omega), Option.bind_eq_bind,
    Option.bind_some, setItem_eq (by omega), Option.bind_some, Int.natCast_succ, Int.natCast_add]

lemma groupsLoop_eq {size rounds i : Nat} (hsize : 1 ≤ size) (hdvd : size ∣ i)
    (hint : size * (xs.length / size) < 2 ^ 31)
    (h : Writing xs items i out) (hi : i ≤ xs.length) (hrounds : xs.length < i + rounds) :
    ∃ (items' : List (Value α)) (gs : List (List (Value α))) (i' : Nat),
      groupsLoop size xs.length rounds items out.length i =
        some (items', ((out ++ gs.map Value.array).length : Int), (i' : Int)) ∧
      Writing xs items' i' (out ++ gs.map .array) ∧ i' ≤ xs.length ∧ xs.length < i' + size ∧
      (∀ g ∈ gs, g.length = size) ∧ i' = i + gs.length * size ∧
      chunks size (xs.drop i) = gs ++ chunks size (xs.drop i') := by
  induction rounds generalizing items out i with
  | zero => omega
  | succ rounds ih =>
    by_cases hend : i + size ≤ xs.length
    · have hmul : i + size ≤ size * (xs.length / size) := by
        obtain ⟨k, hk⟩ := hdvd.add (Nat.dvd_refl size)
        rw [hk]
        refine Nat.mul_le_mul_left size ((Nat.le_div_iff_mul_le hsize).mpr ?_)
        rwa [Nat.mul_comm, ← hk]
      have hbehind := h.behind
      have hlen := h.length
      have hgroup : (items.drop i).take size = (xs.drop i).take size := by rw [h.unread]
      have hne : xs.drop i ≠ [] := by
        rw [← length_pos_iff, length_drop]
        omega
      obtain ⟨items', gs, i', heq, hw, hle, hlt, hall, hplace, hchunks⟩ :=
        ih (hdvd.add (Nat.dvd_refl size))
          (h.set (.array ((xs.drop i).take size)) (by omega) (by omega)) hend (by omega)
      rw [length_append, length_singleton] at heq
      refine ⟨items', (xs.drop i).take size :: gs, i', ?_, ?_, hle, hlt, ?_, ?_, ?_⟩
      · rw [groupsLoop_step hlen hend (by omega), hgroup, toInt_natCast (by omega),
          toInt_natCast (by omega), heq]
        simp
      · simpa using hw
      · refine forall_mem_cons.mpr ⟨?_, hall⟩
        rw [length_take, length_drop]
        omega
      · rw [hplace, length_cons, Nat.succ_mul]
        omega
      · rw [chunks_of_ne_nil hsize hne, drop_drop, hchunks, cons_append]
    · rw [groupsLoop, if_neg (by omega)]
      exact ⟨items, [], i, by simp, by simpa using h, hi, by omega, by simp, by simp, by simp⟩

lemma arrayGroupsOf_eq (hn : 1 ≤ n) (keepShort : Bool) (xs : List (Value α))
    (hint : n * (xs.length / n) < 2 ^ 31) :
    arrayGroupsOf n keepShort xs =
      some (((chunks n xs).filter fun g => g.length == n || keepShort).map .array) := by
  obtain ⟨items, gs, i, heq, hw, hle, hlt, hall, hplace, hchunks⟩ :=
    groupsLoop_eq hn (Nat.dvd_zero n) hint (writing_start xs) (Nat.zero_le _)
      (show xs.length < 0 + (xs.length + 1) by omega)
  rw [nil_append, length_nil] at heq
  rw [nil_append] at hw
  rw [drop_zero] at hchunks
  have hfull : gs.filter (fun g => g.length == n || keepShort) = gs :=
    filter_eq_self.mpr fun g hg => by simp [hall g hg]
  rw [arrayGroupsOf, show (0 : Int) = (0 : Nat) from rfl, heq, Option.bind_eq_bind,
    Option.bind_some, hchunks, filter_append, hfull]
  dsimp only
  by_cases hlast : i = xs.length
  · rw [if_neg (by simp [hlast]), withCount_eq, hw.written, hlast, drop_length, chunks_nil]
    simp
  have hshort : (xs.drop i).length < n := by rw [length_drop]; omega
  have hne : xs.drop i ≠ [] := by
    rw [← length_pos_iff, length_drop]
    omega
  rw [chunks_of_ne_nil hn hne, take_of_length_le hshort.le, drop_eq_nil_of_le hshort.le,
    chunks_nil]
  cases keepShort with
  | false =>
    rw [if_neg (by simp), withCount_eq, hw.written]
    have hlen : xs.length - i ≠ n := by omega
    simp [hlen]
  | true =>
    have hset := hw.set (.array (xs.drop i)) (by omega) (Nat.lt_succ_self i)
    have hlen := hw.length
    have htake : (items.drop i).take (xs.length - i) = xs.drop i := by
      rw [hw.unread, take_of_length_le (by rw [length_drop])]
    -- a group is left over, so that the groups have at least two items
    have hcount : gs.length + 1 < 2 ^ 31 := by
      have htwo : gs.length * 2 ≤ gs.length * n := Nat.mul_le_mul_left _ (by omega)
      have hdvd : i ≤ n * (xs.length / n) := by
        rw [hplace, Nat.zero_add, Nat.mul_comm]
        exact Nat.mul_le_mul_left n ((Nat.le_div_iff_mul_le hn).mpr (by omega))
      omega
    rw [if_pos (by simp; omega), show ((xs.length : Int) - i).toNat = xs.length - i by omega,
      itemsFrom_eq (by omega), htake, Option.bind_eq_bind, Option.bind_some,
      setItem_eq (by have := hw.behind; omega), Option.bind_some,
      ← Int.natCast_succ, length_map, toInt_natCast hcount, withCount_eq]
    have hwritten := hset.written
    rw [length_append, length_singleton, length_map] at hwritten
    rw [hwritten]
    simp

/-! An index that wraps around: the groups have more items together than the array. -/

/-- A group is read at an index, and written behind those that have been written. -/
lemma write_some {size : Nat} {i m : Int} {next : List (Value α) → Option β} {r : β}
    (h : ((itemsFrom items i size).bind fun group =>
      (setItem items m (.array group)).bind next) = some r)
    {gs : List (List (Value α))} (hgs : gs.length ≤ 2 ^ 31)
    (hwritten : items.take gs.length = gs.map .array) (hm : m = toInt gs.length) :
    gs.length < 2 ^ 31 ∧ m = gs.length ∧ 0 ≤ i ∧ ∃ group items', group.length = size ∧
      items'.take (gs.length + 1) = (gs ++ [group]).map .array ∧ next items' = some r := by
  obtain ⟨group, hgroup, h⟩ := Option.bind_eq_some_iff.mp h
  obtain ⟨items', hset, h⟩ := Option.bind_eq_some_iff.mp h
  rw [itemsFrom, Option.ite_none_right_eq_some, Option.some_inj] at hgroup
  rw [setItem, Option.ite_none_right_eq_some, Option.some_inj] at hset
  obtain ⟨⟨hpos, hlt⟩, rfl⟩ := hset
  obtain ⟨⟨hfrom, hto⟩, hgroup⟩ := hgroup
  have hshort := lt_of_toInt_nonneg hgs (hm ▸ hpos)
  rw [toInt_natCast hshort] at hm
  subst hm
  refine ⟨hshort, rfl, hfrom, group, _, ?_, ?_, h⟩
  · rw [← hgroup, length_take, length_drop]
    omega
  · rw [Int.toNat_natCast, take_succ_eq_append_getElem (by rw [length_set]; omega),
      take_set_of_le .refl, hwritten]
    simp

/-- The groups that are written when the loop ends, wherever the index has been. -/
lemma groupsLoop_some {size count rounds : Nat} {items' : List (Value α)} {m i m' i' : Int}
    (h : groupsLoop size count rounds items m i = some (items', m', i'))
    (gs : List (List (Value α))) (hgs : gs.length ≤ 2 ^ 31) (hall : ∀ g ∈ gs, g.length = size)
    (hwritten : items.take gs.length = gs.map .array) (hm : m = toInt gs.length)
    (hi : i = toInt (gs.length * size : Nat)) (hle : i ≤ count) :
    ∃ gs' : List (List (Value α)), gs'.length ≤ 2 ^ 31 ∧ (∀ g ∈ gs', g.length = size) ∧
      items'.take gs'.length = gs'.map .array ∧ m' = toInt gs'.length ∧
      i' = toInt (gs'.length * size : Nat) ∧ i' ≤ count ∧
      ¬ (0 ≤ i' + size ∧ i' + size ≤ count) := by
  induction rounds generalizing items m i gs with
  | zero => cases h
  | succ rounds ih =>
    rw [groupsLoop] at h
    split at h
    · rename_i hin
      obtain ⟨hshort, rfl, -, group, items1, hsize, htake, h⟩ := write_some h hgs hwritten hm
      refine ih h (gs ++ [group]) (by simpa using hshort)
        (forall_mem_append.mpr ⟨hall, forall_mem_singleton.mpr hsize⟩) (by simpa using htake)
        (by rw [length_append, length_singleton, Int.natCast_succ]) ?_
        ((toInt_le hin.1).trans hin.2)
      rw [hi, length_append, length_singleton, Nat.succ_mul, Int.natCast_add, toInt_toInt_add]
    · rename_i hend
      obtain ⟨rfl, rfl, rfl⟩ : items = items' ∧ m = m' ∧ i = i' := by simpa using h
      exact ⟨gs, hgs, hall, hwritten, hm, hi, hle, hend⟩

/-- Groups that make up the array have been read at the right places. -/
lemma lt_of_arrayGroupsOf {gs : List (List (Value α))} (hn : 1 ≤ n)
    (h : arrayGroupsOf n true xs = some (gs.map .array)) (hxs : gs.flatten = xs) :
    n * (xs.length / n) < 2 ^ 31 := by
  obtain ⟨⟨items, n', i⟩, hloop, h⟩ := Option.bind_eq_some_iff.mp h
  have hzero : 0 = toInt (0 : Nat) := (toInt_natCast (by decide)).symm
  obtain ⟨gs', hgs, hall, hwritten, hn', hi, hle, hend⟩ :=
    groupsLoop_some hloop [] (Nat.zero_le _) (by simp) rfl hzero
      (by rwa [length_nil, Nat.zero_mul]) (Int.natCast_nonneg _)
  have hlen : gs'.flatten.length = gs'.length * n := by
    rw [length_flatten, map_congr_left hall, map_const', sum_replicate, smul_eq_mul]
  have hint := (isInt_toInt (gs'.length * n : Nat)).2
  rw [← hi] at hint
  have hmul := Nat.mul_div_le xs.length n
  have hinj : Injective (map (Value.array (α := α))) :=
    map_injective_iff.mpr fun _ _ => Value.array.inj
  have hdiv : ∀ k, n * k ≤ xs.length → xs.length < n * k + n → xs.length / n = k := fun k hle hlt =>
    (Nat.div_eq_iff (by omega)).mpr (by rw [Nat.mul_comm k]; omega)
  dsimp only at h
  split at h
  · obtain ⟨hshort, rfl, hfrom, last, items1, hlast, htake, h⟩ := write_some h hgs hwritten hn'
    rw [withCount, Option.ite_none_right_eq_some, Option.some_inj, ← Int.natCast_succ] at h
    obtain ⟨hcount, heq⟩ := h
    rw [toInt_natCast (lt_of_toInt_nonneg hshort hcount), Int.toNat_natCast, htake] at heq
    have htotal := congrArg length hxs
    rw [← hinj heq, flatten_append, length_append, hlen, flatten_singleton, hlast] at htotal
    have hplace : gs'.length * n = i.toNat := by omega
    rw [hdiv gs'.length (by rw [Nat.mul_comm]; omega) (by rw [Nat.mul_comm]; omega), Nat.mul_comm]
    omega
  · rename_i hkeep
    rw [withCount, Option.ite_none_right_eq_some, Option.some_inj] at h
    have hcount : i = xs.length := by simpa using hkeep
    omega

end GroupsOf

section Group

variable (eql : Value α → Value α → Bool)

/-- The inner loop of `array_group`: the group, and the index of its last item. The index after
it is compared with the count as an unsigned number. -/
def runLoop (items : List (Value α)) : Nat → Int → List (Value α) → List (Value α) × Int
  | 0, i, group => (group, i)
  | rounds + 1, i, group =>
    match itemAt items i, itemAt items (toInt (i + 1)) with
    | some x, some y =>
      if eql x y then runLoop items rounds (toInt (i + 1)) (group ++ [y]) else (group, i)
    | _, _ => (group, i)

def groupLoop : Nat → List (Value α) → Int → Int → Option (List (Value α) × Int)
  | 0, _, _, _ => none
  | rounds + 1, items, len, i =>
    match itemAt items i with
    | none => some (items, len)
    | some x => do
      let (group, i) := runLoop eql items items.length i [x]
      let items ← setItem items len (.array group)
      groupLoop rounds items (toInt (len + 1)) (toInt (i + 1))

/-- `group`, without an argument. -/
def arrayGroup (xs : List (Value α)) : Option (List (Value α)) := do
  let (items, len) ← groupLoop eql (xs.length + 1) xs 0 0
  withCount items len

/-- An index that goes up sees the items that an `int` can number. -/
lemma itemAt_toInt {i : Nat} (hi : i ≤ 2 ^ 31) (items : List (Value α)) :
    itemAt items (toInt i) = (items.take (2 ^ 31))[i]? := by
  rcases hi.lt_or_eq with hi | rfl
  · rw [toInt_natCast hi, itemAt, if_pos (by omega), Int.toNat_natCast, getElem?_take_of_lt hi]
  · rw [itemAt, if_neg (by decide), getElem?_eq_none (length_take_le _ _)]

/-- A group goes on as long as neighbours are equal. -/
lemma runLoop_eq {items rest : List (Value α)} {rounds i : Nat}
    (hdrop : (items.take (2 ^ 31)).drop i = x :: rest) (hrounds : rest.length ≤ rounds)
    (group : List (Value α)) :
    ∃ g rest', rest = g ++ rest' ∧ (x :: g).IsChain (eql · ·) ∧
      (∀ y ∈ rest'.head?, eql ((x :: g).getLast (cons_ne_nil x g)) y = false) ∧
      runLoop eql items rounds (toInt i) group = (group ++ g, toInt (i + g.length : Nat)) := by
  have hlen := congrArg length hdrop
  rw [length_drop, length_take, length_cons] at hlen
  have hx : itemAt items (toInt i) = some x := by
    rw [itemAt_toInt (by omega), ← head?_drop, hdrop, head?_cons]
  have hnext : (items.take (2 ^ 31)).drop (i + 1) = rest := by
    rw [← tail_drop, hdrop, tail_cons]
  have hplace : toInt (toInt i + 1) = toInt (i + 1 : Nat) := toInt_toInt_add i 1
  have hy : itemAt items (toInt (i + 1 : Nat)) = rest.head? := by
    rw [itemAt_toInt (by omega), ← head?_drop, hnext]
  induction rest generalizing x rounds i group with
  | nil =>
    refine ⟨[], [], rfl, .singleton x, by simp, ?_⟩
    cases rounds with
    | zero => simp [runLoop]
    | succ rounds =>
      rw [runLoop, hx, hplace, hy]
      simp
  | cons y rest ih =>
    obtain ⟨rounds, rfl⟩ := Nat.exists_eq_add_of_le' (Nat.le_trans (Nat.le_add_left 1 _) hrounds)
    rw [runLoop, hx, hplace, hy]
    dsimp only [head?_cons]
    split
    · rename_i hxy
      have hnext' : (items.take (2 ^ 31)).drop (i + 1 + 1) = rest := by
        rw [← tail_drop, hnext, tail_cons]
      rw [length_cons] at hlen
      obtain ⟨g, rest', rfl, hchain, hlast, heq⟩ := ih hnext (by simpa using hrounds)
        (group ++ [y]) (by omega) hy hnext' (toInt_toInt_add _ 1)
        (by rw [itemAt_toInt (by omega), ← head?_drop, hnext'])
      refine ⟨y :: g, rest', rfl, .cons_cons hxy hchain, hlast, ?_⟩
      rw [heq, length_cons, append_assoc, singleton_append, Nat.add_assoc, Nat.add_comm 1]
    · rename_i hxy
      refine ⟨[], y :: rest, rfl, .singleton x, fun z hz => ?_, by simp⟩
      cases hz
      simpa using hxy

lemma groupLoop_eq {rounds i : Nat} (h : Writing xs items i out)
    (hi : i ≤ (xs.take (2 ^ 31)).length) (hrounds : xs.length < i + rounds) :
    ∃ items', groupLoop eql rounds items (toInt out.length) (toInt i) =
      some (items', toInt (out ++ (((xs.take (2 ^ 31)).drop i).splitBy eql).map
        Value.array).length) ∧
      items'.take (out ++ (((xs.take (2 ^ 31)).drop i).splitBy eql).map Value.array).length =
        out ++ (((xs.take (2 ^ 31)).drop i).splitBy eql).map Value.array := by
  have hmin := length_take (i := 2 ^ 31) (l := xs)
  induction rounds generalizing items out i with
  | zero => omega
  | succ rounds ih =>
    have hunread : (items.take (2 ^ 31)).drop i = (xs.take (2 ^ 31)).drop i := by
      rw [drop_take, drop_take, h.unread]
    rw [groupLoop, itemAt_toInt (by omega), ← head?_drop, hunread]
    cases hdrop : (xs.take (2 ^ 31)).drop i with
    | nil => exact ⟨items, by simp, by simpa using h.written⟩
    | cons x rest =>
      have hbehind := h.behind
      have hlen := congrArg length hdrop
      rw [length_drop, length_cons] at hlen
      obtain ⟨g, rest', rfl, hchain, hlast, heq⟩ := runLoop_eq eql (hunread.trans hdrop)
        (show rest.length ≤ items.length by rw [h.length]; omega) [x]
      have hends : ∀ z ∈ (x :: g).getLast?, ∀ y ∈ rest'.head?, eql z y = false := by
        rw [getLast?_eq_some_getLast (cons_ne_nil x g)]
        simpa using hlast
      have hsplit : (x :: (g ++ rest')).splitBy eql = (x :: g) :: rest'.splitBy eql := by
        rw [← cons_append, splitBy_append hends,
          splitBy_of_isChain (cons_ne_nil x g) hchain, singleton_append]
      have hset := h.set (j := i + g.length + 1) (.array (x :: g)) (by omega) (by omega)
      have hrest : (xs.take (2 ^ 31)).drop (i + g.length + 1) = rest' := by
        rw [Nat.add_assoc, ← drop_drop, hdrop, drop_succ_cons, drop_left]
      dsimp only [head?_cons]
      rw [heq, hsplit]
      obtain ⟨items', hloop, htake⟩ := ih hset (by rw [length_append] at hlen; omega) (by omega)
      rw [hrest, append_assoc, singleton_append] at hloop htake
      refine ⟨items', ?_, htake⟩
      dsimp only
      rw [toInt_natCast (by omega), setItem_eq (by rw [h.length]; omega), Option.bind_eq_bind,
        Option.bind_some, toInt_toInt_add]
      rw [length_append, length_singleton] at hloop
      exact hloop

/-- The groups are those of the items that an `int` can number, if their number is an `int`. -/
lemma arrayGroup_eq (xs : List (Value α)) :
    arrayGroup eql xs = if ((xs.take (2 ^ 31)).splitBy eql).length < 2 ^ 31 then
      some (((xs.take (2 ^ 31)).splitBy eql).map .array) else none := by
  obtain ⟨items, heq, htake⟩ := groupLoop_eq eql (writing_start xs) (Nat.zero_le _)
    (show xs.length < 0 + (xs.length + 1) by omega)
  rw [length_nil, drop_zero, nil_append, toInt_natCast (by decide), length_map] at heq
  rw [drop_zero, nil_append, length_map] at htake
  have hle : ((xs.take (2 ^ 31)).splitBy eql).length ≤ 2 ^ 31 := by
    have hsum := length_le_sum_of_one_le (((xs.take (2 ^ 31)).splitBy eql).map length)
      (forall_mem_map.mpr fun g hg => length_pos_iff.mpr (ne_nil_of_mem_splitBy hg))
    rw [length_map, ← length_flatten, flatten_splitBy] at hsum
    exact hsum.trans (length_take_le _ _)
  rw [arrayGroup, show (0 : Int) = (0 : Nat) from rfl, heq, Option.bind_eq_bind, Option.bind_some]
  dsimp only
  split
  · rename_i hlt
    rw [toInt_natCast hlt, withCount_eq, htake]
  · rename_i hge
    rw [withCount, if_neg fun hpos => hge (lt_of_toInt_nonneg hle hpos)]

end Group

/-- The groups of a size partition the array, and those of an iterator are the same. -/
def GroupsPartition (n : Nat) (xs : List (Value α)) : Prop :=
  ∃ groups : List (List (Value α)), arrayGroupsOf n true xs = some (groups.map .array) ∧
    groups.flatten = xs ∧
    (∀ g ∈ groups.dropLast, g.length = n) ∧ (∀ g ∈ groups, g ≠ [] ∧ g.length ≤ n) ∧
    (∀ rounds, xs.length < rounds → iterGroupsOf n true rounds xs = some groups) ∧
    arrayGroupsOf n false xs = some ((groups.filter (·.length == n)).map .array) ∧
    ∀ rounds, xs.length < rounds →
      iterGroupsOf n false rounds xs = some (groups.filter (·.length == n))

/-- The groups of equal neighbours partition the array. -/
def RunsPartition (eql : Value α → Value α → Bool) (xs : List (Value α)) : Prop :=
  ∃ runs : List (List (Value α)), arrayGroup eql xs = some (runs.map .array) ∧
    runs.flatten = xs ∧ [] ∉ runs ∧
    (∀ g ∈ runs, g.IsChain fun x y => eql x y) ∧
    runs.IsChain fun g g' => ∃ hg hg', eql (g.getLast hg) (g'.head hg') = false

/-- The groups of an array partition it exactly if the items in full groups can be numbered with
an `int`, and those of equal neighbours if the items and the number of groups can. -/
theorem grouping_partitions_iff (xs : List (Value α)) (n : Nat) (hn : 1 ≤ n)
    (eql : Value α → Value α → Bool) :
    (GroupsPartition n xs ↔ n * (xs.length / n) < 2 ^ 31) ∧
    (RunsPartition eql xs ↔ xs.length ≤ 2 ^ 31 ∧ (xs.splitBy eql).length < 2 ^ 31) := by
  refine ⟨⟨fun ⟨groups, heq, hflatten, _⟩ => lt_of_arrayGroupsOf hn heq hflatten, fun hint => ?_⟩,
    fun ⟨runs, heq, hflatten, _⟩ => ?_, fun ⟨hlen, hruns⟩ => ?_⟩
  · obtain ⟨hfull, hmem⟩ := length_of_mem_chunks hn xs
    refine ⟨chunks n xs, ?_, flatten_chunks n xs, hfull, hmem, fun rounds hr => ?_, ?_,
      fun rounds hr => ?_⟩
    · simpa using arrayGroupsOf_eq hn true xs hint
    · simpa using iterGroupsOf_eq hn true hr
    · simpa using arrayGroupsOf_eq hn false xs hint
    · simpa using iterGroupsOf_eq hn false hr
  · rw [arrayGroup_eq, Option.ite_none_right_eq_some, Option.some_inj] at heq
    obtain ⟨hruns, heq⟩ := heq
    have hxs : xs.take (2 ^ 31) = xs := by
      rw [← flatten_splitBy eql (xs.take _), map_injective_iff.mpr (fun _ _ => Value.array.inj) heq,
        hflatten]
    rw [hxs] at hruns
    exact ⟨(take_eq_self_iff xs).mp hxs, hruns⟩
  · refine ⟨xs.splitBy eql, ?_, flatten_splitBy eql xs, nil_notMem_splitBy eql xs,
      fun g => isChain_of_mem_splitBy, isChain_getLast_head_splitBy eql xs⟩
    rw [arrayGroup_eq, take_of_length_le hlen, if_pos hruns]

theorem grouping_partitions_three : GroupsPartition 2 [Value.item 1, .item 2, .item 3] :=
  ((grouping_partitions_iff [.item 1, .item 2, .item 3] 2 (by decide) fun _ _ => true).1).mpr
    (by decide)

/-- Two groups make up the array. The index is negative then, and the group that seems to be
left over is read from before the array. -/
theorem arrayGroupsOf_wraps : ∃ xs : List (Value Unit),
    xs.length = 2 * 2 ^ 30 ∧ arrayGroupsOf (2 ^ 30) true xs = none := by
  obtain ⟨xs, hxs⟩ : ∃ xs : List (Value Unit), xs.length = 2 * 2 ^ 30 :=
    ⟨replicate _ (.item ()), length_replicate⟩
  refine ⟨xs, hxs, ?_⟩
  obtain ⟨rounds, hrounds⟩ : ∃ rounds, xs.length + 1 = rounds + 3 := ⟨xs.length - 2, by omega⟩
  have hone : toInt (0 + 1 : Nat) = (1 : Nat) := by decide
  have hfirst : toInt (0 + 2 ^ 30 : Nat) = (2 ^ 30 : Nat) := by decide
  have hwraps : toInt (2 ^ 30 + 2 ^ 30 : Nat) = -2 ^ 31 := by decide
  rw [arrayGroupsOf, hrounds, show (0 : Int) = (0 : Nat) from rfl,
    groupsLoop_step rfl (by omega) (by omega), hone, hfirst,
    groupsLoop_step length_set (by omega) (by omega), hwraps, groupsLoop, if_neg (by omega),
    Option.bind_eq_bind, Option.bind_some]
  dsimp only
  rw [if_pos (by simp), itemsFrom, if_neg (by omega)]
  rfl

end TyLang.Arrays
