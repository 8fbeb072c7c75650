import TyLang.Arrays.Groups

/-!
Windows over an array (`src/array.c`), and over an iterator (`lib/prelude.ty`). The method of an
array writes the results into the array that it reads, with an index of type `int`. The iterator
takes from a source and yields one array again and again, which it changes in between.
-/
namespace TyLang.Arrays
open List Overwriting Function CInt

variable {α : Type} {x : Value α}

/-- The inner loop of `array_window`, from the index `j` on, for a number of rounds. -/
def windowItems (items : List (Value α)) (stop : Int) : Nat → Int → Option (List (Value α))
  | 0, _ => none
  | rounds + 1, j =>
    if j < stop then do
      let x ← itemAt items j
      let win ← windowItems items stop rounds (toInt (j + 1))
      return x :: win
    else some []

/-- A step of `array_window`, with what is made of the window. -/
def windowStep (k : Nat) (f : List (Value α) → Value α) (items : List (Value α)) (i : Nat) :
    Option (List (Value α)) := do
  let win ← windowItems items (i + k) (k + 1) i
  setItem items i (f win)

/-- `window`, for a size that is positive; without a function, `f` makes an array. -/
def arrayWindow (k : Nat) (f : List (Value α) → Value α) (xs : List (Value α)) :
    Option (List (Value α)) := do
  let n := toInt (max (xs.length - k + 1) 0)
  let items ← (List.range n.toNat).foldlM (windowStep k f) xs
  withCount items n

/-- The arrays, by address. -/
abbrev Heap (α : Type) := Nat → List (Value α)

/-- The loop of `Iter.window` with the array at `win`: the addresses that are yielded, and
the arrays in the end. -/
def windowLoop (n win : Nat) : List (Value α) → Heap α → List Nat × Heap α
  | rest, heap =>
    if (heap win).length = n then
      match rest with
      | [] => ([win], heap)
      | x :: rest =>
        let (out, heap) := windowLoop n win rest (update heap win ((heap win).drop 1 ++ [x]))
        (win :: out, heap)
    else ([], heap)

/-- `Iter.window`, drained: the arrays that a consumer holds in the end. -/
def iterWindow (n win : Nat) (heap : Heap α) (xs : List (Value α)) : List (List (Value α)) :=
  let (taken, rest) := iterTake n xs
  let (out, heap) := windowLoop n win rest (update heap win taken)
  out.map heap

/-- The loop of `Iter.window` with a function, for a number of rounds. -/
def windowWithLoop (n : Nat) (f : List (Value α) → Value α) : Nat → List (Value α) →
    List (Value α) → Option (List (Value α))
  | 0, _, _ => none
  | rounds + 1, rest, win =>
    if win.length = n then
      (windowWithLoop n f rounds rest.tail (win.drop 1 ++ rest.head?.toList)).map (f win :: ·)
    else some []

def iterWindowWith (n : Nat) (f : List (Value α) → Value α) (rounds : Nat) (xs : List (Value α)) :
    Option (List (Value α)) :=
  windowWithLoop n f rounds (iterTake n xs).2 (iterTake n xs).1

def windows (n : Nat) (xs : List (Value α)) : List (List (Value α)) :=
  (List.range (xs.length + 1 - n)).map fun i => (xs.drop i).take n

variable {n : Nat} {f : List (Value α) → Value α} {xs : List (Value α)}

lemma windows_cons (h : n ≤ xs.length + 1) :
    windows n (x :: xs) = (x :: xs).take n :: windows n xs := by
  rw [windows, length_cons, show xs.length + 1 + 1 - n = xs.length + 1 - n + 1 by omega,
    range_succ_eq_map, map_cons, map_map]
  rfl

lemma windows_of_lt (h : xs.length < n) : windows n xs = [] := by
  rw [windows, show xs.length + 1 - n = 0 by omega]
  rfl

lemma windowItems_eq {items : List (Value α)} {rounds k j : Nat} (hk : k < rounds)
    (hlen : j + k ≤ items.length) (hint : j + k < 2 ^ 31) :
    windowItems items (j + k) rounds j = some ((items.drop j).take k) := by
  induction k generalizing rounds j with
  | zero =>
    obtain ⟨rounds, rfl⟩ := Nat.exists_eq_add_of_le' hk
    rw [windowItems, if_neg (by omega), take_zero]
  | succ k ih =>
    obtain ⟨rounds, rfl⟩ := Nat.exists_eq_add_of_le' (Nat.le_trans (Nat.le_add_left 1 _) hk)
    have hj : j < items.length := by omega
    have hrest := ih (j := j + 1) (show k < rounds by omega) (by omega) (by omega)
    rw [windowItems, if_pos (by omega), itemAt, if_pos (by omega), Int.toNat_natCast,
      getElem?_eq_getElem hj, ← Int.natCast_succ, toInt_natCast (by omega),
      show ((j : Int) + (k + 1 : Nat)) = (j + 1 : Nat) + k by omega, hrest,
      drop_eq_getElem_cons hj, take_succ_cons]
    rfl

/-- No `int` is at an end that is none itself. -/
lemma windowItems_wide {items : List (Value α)} {stop j : Int} (hstop : 2 ^ 31 ≤ stop)
    (hj : IsInt j) (rounds : Nat) : windowItems items stop rounds j = none := by
  induction rounds generalizing j with
  | zero => rfl
  | succ rounds ih =>
    have hlt := hj.2
    rw [windowItems, if_pos (by omega), ih (isInt_toInt _)]
    cases itemAt items j <;> rfl

lemma windowStep_eq {items : List (Value α)} {k i : Nat} (hk : 1 ≤ k) (hlen : i + k ≤ items.length)
    (hint : i + k < 2 ^ 31) :
    windowStep k f items i = some (items.set i (f ((items.drop i).take k))) := by
  rw [windowStep, windowItems_eq (Nat.lt_succ_self k) hlen hint, Option.bind_eq_bind,
    Option.bind_some, setItem_eq (by omega)]

lemma foldlM_windowStep (hn : 1 ≤ n) (hint : xs.length < 2 ^ 31) {m : Nat}
    (hm : m ≤ xs.length + 1 - n) :
    ∃ items, (List.range m).foldlM (windowStep n f) xs = some items ∧
      Writing xs items m ((List.range m).map fun i => f ((xs.drop i).take n)) := by
  induction m with
  | zero => exact ⟨xs, rfl, writing_start xs⟩
  | succ m ih =>
    obtain ⟨items, heq, hw⟩ := ih (by omega)
    have hlen := hw.length
    have hset := hw.set (j := m + 1) (f ((xs.drop m).take n)) (by omega) (by omega)
    rw [length_map, length_range] at hset
    refine ⟨_, ?_, by rwa [range_succ, map_append]⟩
    rw [range_succ, foldlM_append, heq, Option.bind_eq_bind, Option.bind_some, foldlM_cons,
      windowStep_eq hn (by omega) (by omega), hw.unread]
    rfl

lemma arrayWindow_eq (hn : 1 ≤ n) (h : xs.length < n ∨ xs.length < 2 ^ 31) :
    arrayWindow n f xs = some ((windows n xs).map f) := by
  have hcount : toInt (max (xs.length - n + 1) 0) = (xs.length + 1 - n : Nat) := by
    rw [show max ((xs.length : Int) - n + 1) 0 = (xs.length + 1 - n : Nat) by omega]
    exact toInt_natCast (by omega)
  rw [arrayWindow, hcount, Int.toNat_natCast]
  rcases h with h | h
  · rw [windows_of_lt h, show xs.length + 1 - n = 0 by omega]
    rfl
  · obtain ⟨items, heq, hw⟩ := foldlM_windowStep (f := f) hn h le_rfl
    have hwritten := hw.written
    rw [length_map, length_range] at hwritten
    rw [heq, Option.bind_eq_bind, Option.bind_some, withCount_eq, hwritten, windows, map_map]
    rfl

lemma length_windows (n : Nat) (xs : List (Value α)) :
    (windows n xs).length = xs.length + 1 - n := by
  rw [windows, length_map, length_range]

/-- The last window of a long array cannot be read, and no `int` is the number of too many
windows. -/
lemma length_lt_of_arrayWindow {r : List (Value α)} (hn : 1 ≤ n) (hlen : n ≤ xs.length)
    (h : arrayWindow n f xs = some r) (hr : r.length = xs.length + 1 - n) : xs.length < 2 ^ 31 := by
  by_contra hwide
  rw [arrayWindow, show max ((xs.length : Int) - n + 1) 0 = (xs.length + 1 - n : Nat) by omega] at h
  obtain ⟨items, hloop, h⟩ := Option.bind_eq_some_iff.mp h
  rw [withCount, Option.ite_none_right_eq_some, Option.some_inj] at h
  obtain ⟨hpos, rfl⟩ := h
  have hint := (isInt_toInt (xs.length + 1 - n : Nat)).2
  rw [length_take] at hr
  have hshort : xs.length + 1 - n < 2 ^ 31 := by omega
  rw [toInt_natCast hshort, Int.toNat_natCast,
    show xs.length + 1 - n = xs.length - n + 1 by omega, range_succ, foldlM_append] at hloop
  obtain ⟨items', -, hloop⟩ := Option.bind_eq_some_iff.mp hloop
  rw [foldlM_cons, windowStep, windowItems_wide (by omega) (by constructor <;> omega)] at hloop
  cases hloop

lemma arrayWindow_eq_iff (hn : 1 ≤ n) {r : List (Value α)} (hr : r.length = xs.length + 1 - n) :
    arrayWindow n f xs = some r ↔
      (xs.length < n ∨ xs.length < 2 ^ 31) ∧ (windows n xs).map f = r := by
  constructor
  · intro h
    have hwide : xs.length < n ∨ xs.length < 2 ^ 31 := by
      by_contra hlong
      exact hlong (.inr (length_lt_of_arrayWindow hn (by omega) h hr))
    rw [arrayWindow_eq hn hwide, Option.some_inj] at h
    exact ⟨hwide, h⟩
  · rintro ⟨hwide, rfl⟩
    exact arrayWindow_eq hn hwide

/-- The window moves on by one item. -/
lemma windows_append_cons {win rest : List (Value α)} (hn : 1 ≤ n) (hwin : win.length = n) :
    windows n (win ++ x :: rest) = win :: windows n (win.drop 1 ++ [x] ++ rest) := by
  obtain ⟨w, win, rfl⟩ := exists_cons_of_length_pos (l := win) (by omega)
  rw [cons_append, windows_cons (by simp at hwin ⊢; omega), ← cons_append, take_left' hwin]
  simp

lemma windows_self {win : List (Value α)} (hwin : win.length = n) : windows n win = [win] := by
  rw [windows, hwin, show n + 1 - n = 1 by omega]
  simp [← hwin]

lemma windowWithLoop_eq (hn : 1 ≤ n) {rest win : List (Value α)} {rounds : Nat}
    (hwin : win.length = n) (hrounds : rest.length + 1 < rounds) :
    windowWithLoop n f rounds rest win = some ((windows n (win ++ rest)).map f) := by
  induction rest generalizing win rounds with
  | nil =>
    obtain ⟨rounds, rfl⟩ : ∃ m, rounds = m + 2 := ⟨rounds - 2, by rw [length_nil] at hrounds; omega⟩
    have hshort : (win.drop 1 ++ []).length ≠ n := by
      rw [append_nil, length_drop]
      omega
    rw [windowWithLoop, if_pos hwin, head?_nil, Option.toList_none, windowWithLoop,
      if_neg hshort, append_nil, windows_self hwin]
    rfl
  | cons x rest ih =>
    cases rounds with
    | zero => omega
    | succ rounds =>
      have hnext : (win.drop 1 ++ [x]).length = n := by
        rw [length_append, length_drop, length_singleton]
        omega
      rw [windowWithLoop, if_pos hwin, tail_cons, head?_cons, Option.toList_some,
        ih hnext (by simpa using hrounds), windows_append_cons hn hwin]
      rfl

/-- The loop yields one array for every window, and leaves the last window in it. -/
lemma windowLoop_eq (hn : 1 ≤ n) {win : Nat} (rest : List (Value α)) {heap : Heap α}
    (hwin : (heap win).length = n) : ∃ heap',
    windowLoop n win rest heap = (replicate (rest.length + 1) win, heap') ∧
      heap' win = (heap win ++ rest).drop rest.length := by
  induction rest generalizing heap with
  | nil =>
    rw [windowLoop, if_pos hwin]
    exact ⟨heap, rfl, (append_nil _).symm⟩
  | cons x rest ih =>
    have hself : update heap win ((heap win).drop 1 ++ [x]) win = (heap win).drop 1 ++ [x] :=
      update_self ..
    have hnext : (update heap win ((heap win).drop 1 ++ [x]) win).length = n := by
      rw [hself, length_append, length_drop, length_singleton]
      omega
    obtain ⟨heap', heq, hlast⟩ := ih hnext
    rw [windowLoop, if_pos hwin]
    rw [heq]
    refine ⟨heap', rfl, ?_⟩
    have hdrop : (heap win ++ x :: rest).drop 1 = (heap win).drop 1 ++ [x] ++ rest := by
      rw [drop_append_of_le_length (by omega), append_assoc]
      rfl
    rw [hlast, hself, length_cons, Nat.add_comm, ← drop_drop, hdrop]

/-- All windows are the last one exactly if there is only one, or all items are the same. -/
lemma windows_eq_replicate_iff (hn : 1 ≤ n) (h : n ≤ xs.length) :
    replicate (xs.length - n + 1) (xs.drop (xs.length - n)) = windows n xs ↔
      xs.length ≤ n ∨ ∀ x ∈ xs, ∀ y ∈ xs, x = y := by
  have hwindows : replicate (xs.length - n + 1) (xs.drop (xs.length - n)) = windows n xs ↔
      ∀ i, i ≤ xs.length - n → (xs.drop i).take n = xs.drop (xs.length - n) := by
    rw [eq_comm, eq_replicate_iff, windows, length_map, length_range,
      and_iff_right (by omega), forall_mem_map]
    simp only [mem_range]
    exact forall_congr' fun i => imp_congr_left (by omega)
  rw [hwindows]
  constructor
  · intro hall
    by_cases hlen : xs.length ≤ n
    · exact .inl hlen
    -- neighbours have the same place in two windows
    have hget : ∀ i j, i ≤ xs.length - n → j < n → xs[i + j]? = xs[xs.length - n + j]? := by
      intro i j hi hj
      have hij := congrArg (·[j]?) (hall i hi)
      simpa [getElem?_take, hj] using hij
    have hfirst : ∀ t, t < xs.length → xs[t]? = xs[0]? := by
      intro t ht
      induction t with
      | zero => rfl
      | succ t ih =>
        have hleft := hget (min t (xs.length - n - 1)) (t - min t (xs.length - n - 1))
          (by omega) (by omega)
        have hright := hget (min t (xs.length - n - 1) + 1) (t - min t (xs.length - n - 1))
          (by omega) (by omega)
        rw [show min t (xs.length - n - 1) + (t - min t (xs.length - n - 1)) = t by omega] at hleft
        rw [show min t (xs.length - n - 1) + 1 + (t - min t (xs.length - n - 1)) = t + 1
          by omega] at hright
        rw [hright, ← hleft, ih (by omega)]
    refine .inr fun x hx y hy => ?_
    obtain ⟨i, hi, rfl⟩ := mem_iff_getElem.mp hx
    obtain ⟨j, hj, rfl⟩ := mem_iff_getElem.mp hy
    have hij := (hfirst i hi).trans (hfirst j hj).symm
    rwa [getElem?_eq_getElem hi, getElem?_eq_getElem hj, Option.some_inj] at hij
  · rintro (hlen | hsame) i hi
    · rw [show i = xs.length - n by omega, take_of_length_le]
      rw [length_drop]
      omega
    · obtain ⟨x, hx⟩ := exists_mem_of_length_pos (l := xs) (by omega)
      have hxs : xs = replicate xs.length x := eq_replicate_of_mem fun y hy => hsame y hy x hx
      rw [hxs]
      simp only [drop_replicate, take_replicate, length_replicate]
      congr 1
      omega

lemma iterWindow_of_lt {win : Nat} {heap : Heap α} (h : xs.length < n) :
    iterWindow n win heap xs = [] := by
  have hself : update heap win (xs.take n) win = xs.take n := update_self ..
  simp only [iterWindow, iterTake_eq]
  have hshort : (xs.take n).length ≠ n := by
    rw [length_take]
    omega
  rw [drop_eq_nil_of_le (by omega), windowLoop, if_neg (by rwa [hself])]
  rfl

lemma iterWindow_eq {win : Nat} {heap : Heap α} (hn : 1 ≤ n) (h : n ≤ xs.length) :
    iterWindow n win heap xs = replicate (xs.length - n + 1) (xs.drop (xs.length - n)) := by
  have hself : update heap win (xs.take n) win = xs.take n := update_self ..
  simp only [iterWindow, iterTake_eq]
  obtain ⟨heap', heq, hlast⟩ := windowLoop_eq hn (xs.drop n)
    (show (update heap win (xs.take n) win).length = n by
      rw [hself, length_take, Nat.min_eq_left h])
  rw [hself, take_append_drop, length_drop] at hlast
  rw [heq, map_replicate]
  dsimp only
  rw [hlast, length_drop]

lemma length_iterWindow {win : Nat} {heap : Heap α} (hn : 1 ≤ n) :
    (iterWindow n win heap xs).length = xs.length + 1 - n := by
  by_cases h : n ≤ xs.length
  · rw [iterWindow_eq hn h, length_replicate]
    omega
  · rw [iterWindow_of_lt (by omega), length_nil]
    omega

lemma iterWindow_eq_iff {win : Nat} {heap : Heap α} (hn : 1 ≤ n) :
    iterWindow n win heap xs = windows n xs ↔ xs.length ≤ n ∨ ∀ x ∈ xs, ∀ y ∈ xs, x = y := by
  by_cases h : n ≤ xs.length
  · rw [iterWindow_eq hn h]
    exact windows_eq_replicate_iff hn h
  · rw [iterWindow_of_lt (by omega), windows_of_lt (by omega)]
    exact iff_of_true rfl (.inl (by omega))

/-- The windows that an iterator has yielded are those of the array exactly if there is none, or
all items can be numbered with an `int` and there is at most one window or all items are the
same. With a function, they agree if the items can be numbered. -/
theorem iterWindow_agrees_iff (xs : List (Value α)) (n : Nat) (hn : 1 ≤ n) (win : Nat)
    (heap : Heap α) (f : List (Value α) → Value α) :
    (arrayWindow n .array xs = some ((List.range (xs.length + 1 - n)).map fun i =>
      .array ((xs.drop i).take n)) ↔ xs.length < n ∨ xs.length < 2 ^ 31) ∧
    (arrayWindow n .array xs = some ((iterWindow n win heap xs).map .array) ↔
      (xs.length < n ∨ xs.length < 2 ^ 31) ∧ (xs.length ≤ n ∨ ∀ x ∈ xs, ∀ y ∈ xs, x = y)) ∧
    ∀ rounds, xs.length + 1 < rounds → (iterWindowWith n f rounds xs = arrayWindow n f xs ↔
      xs.length < n ∨ xs.length < 2 ^ 31) := by
  refine ⟨?_, ?_, fun rounds hr => ?_⟩
  · rw [arrayWindow_eq_iff hn (by simp), windows, map_map]
    exact and_iff_left rfl
  · rw [arrayWindow_eq_iff hn (by rw [length_map, length_iterWindow hn]), ← iterWindow_eq_iff hn,
      (map_injective_iff.mpr fun _ _ => Value.array.inj).eq_iff, eq_comm (a := windows n xs)]
  · have hwith : iterWindowWith n f rounds xs = some ((windows n xs).map f) := by
      rw [iterWindowWith, iterTake_eq]
      by_cases hlen : n ≤ xs.length
      · rw [windowWithLoop_eq hn (by rw [length_take, Nat.min_eq_left hlen])
          (by rw [length_drop]; omega), take_append_drop]
      · obtain ⟨rounds, rfl⟩ : ∃ m, rounds = m + 1 := ⟨rounds - 1, by omega⟩
        rw [windowWithLoop, if_neg (by rw [length_take]; omega), windows_of_lt (by omega)]
        rfl
    rw [hwith, eq_comm, arrayWindow_eq_iff hn (by rw [length_map, length_windows]),
      and_iff_left rfl]

theorem iterWindow_agrees_one : iterWindowWith 2 (fun _ => .item 0) 4 [.item 1, .item 2] =
    arrayWindow 2 (fun _ => .item 0) [.item 1, .item 2] :=
  ((iterWindow_agrees_iff [.item 1, .item 2] 2 (by decide) 0 (fun _ => []) fun _ => .item 0).2.2 4
    (by decide)).mpr (by decide)

/-- Both windows of size 2 that a consumer holds are the last one. -/
theorem iterWindow_aliases : iterWindow 2 0 (fun _ => []) [Value.item 1, .item 2, .item 3] =
    [[.item 2, .item 3], [.item 2, .item 3]] ∧
    arrayWindow 2 .array [Value.item 1, .item 2, .item 3] =
      some [.array [.item 1, .item 2], .array [.item 2, .item 3]] :=
  ⟨rfl, rfl⟩

end TyLang.Arrays
