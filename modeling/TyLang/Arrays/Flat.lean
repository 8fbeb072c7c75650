import TyLang.Lib.CInt

/-!
`flat` of `src/array.c`. The items of an array are walked with a stack of values and a
stack of their depths. The depths and the indices of items are of type `int`.
-/
namespace TyLang.Arrays
open List CInt Option Function

/-- A value, as far as arrays are concerned. -/
inductive Value (α : Type) where
  | item (a : α)
  | array (items : List (Value α))

section Flat

variable {α : Type} {f : Value α → Int → List (Value α)}

/-- The items of a nested array that the inner loop pushes. Its index starts at the count less
one, kept in an `int`, and goes down to 0. -/
def pushed (vs : List (Value α)) : List (Value α) := vs.take (toInt (vs.length - 1) + 1).toNat

/-- The loop of `array_flat` for a stack, for a number of rounds. -/
def flatLoop (maxdepth : Int) : Nat → List (Value α × Int) → List (Value α) →
    Option (List (Value α))
  | _, [], r => some r
  | 0, _ :: _, _ => none
  | rounds + 1, (.item a, _) :: stack, r => flatLoop maxdepth rounds stack (r ++ [.item a])
  | rounds + 1, (.array vs, d) :: stack, r =>
    if maxdepth < d then flatLoop maxdepth rounds stack (r ++ [.array vs])
    else flatLoop maxdepth rounds
      ((pushed vs).reverse.foldl (fun stack v => (v, toInt (d + 1)) :: stack) stack) r

mutual

def Value.nodes : Value α → Nat
  | .item _ => 1
  | .array vs => 1 + nodesOf vs

def nodesOf : List (Value α) → Nat
  | [] => 0
  | v :: vs => v.nodes + nodesOf vs

end

/-- `flat`, with its argument. A value has as many rounds as it has parts. The index of the outer
loop is an `int` too, and is less than the count no more once it has wrapped around. -/
def arrayFlat (n : Option Int) (xs : List (Value α)) : Option (List (Value α)) :=
  let maxdepth := match n with
    | some z => toInt z
    | none => 2 ^ 31 - 1
  (xs.take (2 ^ 31)).foldl
    (fun r v => r.bind fun r => flatLoop maxdepth v.nodes [(v, 1)] r) (some [])

/-! ### What the stack stands for -/

/-- A value in place of its items, for one level. -/
def Value.flatten : Value α → List (Value α)
  | .item a => [.item a]
  | .array vs => vs

/-- The one-level flattening of an array. -/
def flattened (xs : List (Value α)) : List (Value α) := xs.flatMap Value.flatten

mutual

def Value.leaves : Value α → List (Value α)
  | .item a => [.item a]
  | .array vs => leavesOf vs

def leavesOf : List (Value α) → List (Value α)
  | [] => []
  | v :: vs => v.leaves ++ leavesOf vs

end

lemma leavesOf_eq (vs : List (Value α)) : leavesOf vs = vs.flatMap Value.leaves := by
  induction vs with
  | nil => rfl
  | cons v vs ih => rw [leavesOf, ih, flatMap_cons]

/-- A value in place of those of its items that the walk reads. -/
def Value.opened : Value α → List (Value α)
  | .item a => [.item a]
  | .array vs => pushed vs

def opened (xs : List (Value α)) : List (Value α) := xs.flatMap Value.opened

mutual

/-- The leaves that the walk reads. -/
def Value.reached : Value α → List (Value α)
  | .item a => [.item a]
  | .array vs => reachedOf (toInt (vs.length - 1) + 1).toNat vs

def reachedOf : Nat → List (Value α) → List (Value α)
  | k + 1, v :: vs => v.reached ++ reachedOf k vs
  | _, _ => []

end

lemma reachedOf_eq (k : Nat) (vs : List (Value α)) :
    reachedOf k vs = (vs.take k).flatMap Value.reached := by
  induction vs generalizing k with
  | nil => cases k <;> rfl
  | cons v vs ih =>
    cases k with
    | zero => rfl
    | succ k => rw [reachedOf, ih, take_succ_cons, flatMap_cons]

lemma reached_eq (v : Value α) : v.reached = v.opened.flatMap Value.reached := by
  cases v with
  | item a => rfl
  | array vs => rw [Value.reached, reachedOf_eq, Value.opened, pushed]

lemma flatMap_reached (k : Nat) (xs : List (Value α)) :
    xs.flatMap Value.reached = (opened^[k] xs).flatMap Value.reached := by
  induction k generalizing xs with
  | zero => rfl
  | succ k ih =>
    rw [iterate_succ_apply, ← ih, opened, flatMap_assoc]
    rw [← funext reached_eq]

/-- A value as the walk flattens it to a depth. -/
def Value.expand : Nat → Value α → List (Value α)
  | 0, v => [v]
  | _ + 1, .item a => [.item a]
  | k + 1, .array vs => (pushed vs).flatMap (Value.expand k)

lemma expand_succ (k : Nat) (v : Value α) :
    v.expand (k + 1) = v.opened.flatMap (Value.expand k) := by
  cases v with
  | item a => cases k <;> rfl
  | array vs => rfl

lemma flatMap_expand (k : Nat) (xs : List (Value α)) :
    xs.flatMap (Value.expand k) = opened^[k] xs := by
  induction k generalizing xs with
  | zero => exact flatMap_singleton' xs
  | succ k ih =>
    rw [iterate_succ_apply, ← ih, opened, flatMap_assoc]
    rw [funext (expand_succ k)]

/-- What the entries of the stack contribute to the result, for depths of a kind that the walk
keeps to. -/
structure Means (maxdepth : Int) (P : Int → Prop) (f : Value α → Int → List (Value α)) : Prop where
  item : ∀ a d, f (.item a) d = [.item a]
  below : ∀ vs d, P d → maxdepth < d → f (.array vs) d = [.array vs]
  array : ∀ vs d, P d → ¬ maxdepth < d →
    f (.array vs) d = (pushed vs).flatMap (f · (toInt (d + 1)))
  next : ∀ d, P d → ¬ maxdepth < d → P (toInt (d + 1))

def stackNodes (stack : List (Value α × Int)) : Nat := (stack.map (·.1.nodes)).sum

lemma push_eq (vs : List (Value α)) (d : Int) (stack : List (Value α × Int)) :
    vs.reverse.foldl (fun stack v => (v, d) :: stack) stack = vs.map (·, d) ++ stack := by
  rw [foldl_reverse]
  induction vs with
  | nil => rfl
  | cons v vs ih => rw [foldr_cons, ih, map_cons, cons_append]

lemma nodesOf_eq (vs : List (Value α)) : nodesOf vs = (vs.map Value.nodes).sum := by
  induction vs with
  | nil => rfl
  | cons v vs ih => rw [nodesOf, ih, map_cons, sum_cons]

lemma stackNodes_push (vs : List (Value α)) (d : Int) (stack : List (Value α × Int)) :
    stackNodes ((pushed vs).map (·, d) ++ stack) ≤ nodesOf vs + stackNodes stack := by
  have hsub : ((pushed vs).map Value.nodes).sum ≤ (vs.map Value.nodes).sum :=
    ((take_sublist _ vs).map Value.nodes).sum_le_sum fun _ _ => Nat.zero_le _
  have hpush : stackNodes ((pushed vs).map (·, d) ++ stack) =
      ((pushed vs).map Value.nodes).sum + stackNodes stack := by
    simp [stackNodes, comp_def]
  rw [hpush, nodesOf_eq]
  omega

lemma flatLoop_eq {maxdepth : Int} {P : Int → Prop} (hf : Means maxdepth P f) :
    ∀ (rounds : Nat) (stack : List (Value α × Int)) (r : List (Value α)),
    stackNodes stack ≤ rounds → (∀ e ∈ stack, P e.2) →
    flatLoop maxdepth rounds stack r = some (r ++ stack.flatMap fun e => f e.1 e.2)
  | rounds, [], r, _, _ => by
    rw [flatLoop, flatMap_nil, append_nil]
  | 0, (v, d) :: stack, r, hrounds, _ => by
    have hpos : 0 < v.nodes := by cases v <;> simp only [Value.nodes] <;> omega
    have hcons : stackNodes ((v, d) :: stack) = v.nodes + stackNodes stack := rfl
    omega
  | rounds + 1, (.item a, d) :: stack, r, hrounds, hP => by
    have hcons : stackNodes ((Value.item a, d) :: stack) = 1 + stackNodes stack := rfl
    rw [flatLoop, flatLoop_eq hf rounds stack _ (by omega) (forall_mem_cons.mp hP).2,
      flatMap_cons, hf.item, append_assoc]
  | rounds + 1, (.array vs, d) :: stack, r, hrounds, hP => by
    obtain ⟨hd, hstack⟩ := forall_mem_cons.mp hP
    have hcons : stackNodes ((Value.array vs, d) :: stack) =
      1 + nodesOf vs + stackNodes stack := rfl
    rw [flatLoop]
    split
    · rename_i hdeep
      rw [flatLoop_eq hf rounds stack _ (by omega) hstack, flatMap_cons, hf.below vs d hd hdeep,
        append_assoc]
    rename_i hdeep
    have hnodes := stackNodes_push vs (toInt (d + 1)) stack
    rw [push_eq, flatLoop_eq hf rounds _ _ (by omega), flatMap_append,
      flatMap_cons, hf.array vs d hd hdeep, flatMap_map]
    intro e he
    rcases mem_append.mp he with he | he
    · obtain ⟨v, -, rfl⟩ := mem_map.mp he
      exact hf.next d hd hdeep
    · exact hstack e he

lemma foldl_flatLoop {maxdepth : Int} {P : Int → Prop}
    (hf : Means maxdepth P f) (h1 : P 1) (xs r : List (Value α)) :
    xs.foldl (fun r v => r.bind fun r => flatLoop maxdepth v.nodes [(v, 1)] r) (some r) =
      some (r ++ xs.flatMap (f · 1)) := by
  induction xs generalizing r with
  | nil => rw [foldl_nil, flatMap_nil, append_nil]
  | cons v xs ih =>
    rw [foldl_cons, bind_some, flatLoop_eq hf _ _ _ (by simp [stackNodes]) (by simpa),
      ih, flatMap_cons, flatMap_cons, flatMap_nil, append_nil,
      append_assoc]

lemma means_expand {n : Int} (hn : n < 2 ^ 31 - 1) :
    Means n (fun d => 1 ≤ d ∧ d ≤ n + 1) fun (v : Value α) d => v.expand (n + 1 - d).toNat := by
  have hnext : ∀ {d}, 1 ≤ d ∧ d ≤ n + 1 → ¬ n < d → toInt (d + 1) = d + 1 := fun hd hdeep =>
    toInt_of_isInt (by constructor <;> omega)
  constructor
  · intro a d
    cases (n + 1 - d).toNat <;> rfl
  · intro vs d _ hdeep
    rw [show (n + 1 - d).toNat = 0 by omega, Value.expand]
  · intro vs d hd hdeep
    rw [hnext hd hdeep, show (n + 1 - d).toNat = (n + 1 - (d + 1)).toNat + 1 by omega, Value.expand]
  · intro d hd hdeep
    rw [hnext hd hdeep]
    omega

lemma means_reached : Means (2 ^ 31 - 1) IsInt fun (v : Value α) _ => v.reached := by
  constructor
  · exact fun _ _ => rfl
  · intro vs d hd hdeep
    obtain ⟨-, hlt⟩ := hd
    omega
  · exact fun vs d _ _ => reached_eq (.array vs)
  · exact fun d _ _ => isInt_toInt (d + 1)

lemma arrayFlat_some {n : Nat} (hn : n < 2 ^ 31 - 1) (xs : List (Value α)) :
    arrayFlat (some n) xs = some (opened^[n] (xs.take (2 ^ 31))) := by
  have htoInt : toInt n = n := toInt_of_isInt (by constructor <;> omega)
  rw [arrayFlat, htoInt, foldl_flatLoop (means_expand (by omega)) (by omega), ← flatMap_expand]
  simp

lemma arrayFlat_none (xs : List (Value α)) :
    arrayFlat none xs = some ((xs.take (2 ^ 31)).flatMap Value.reached) := by
  rw [arrayFlat, foldl_flatLoop means_reached ⟨by decide, by decide⟩, nil_append]

/-- The greatest depth is the one of a call without an argument. -/
lemma arrayFlat_max (xs : List (Value α)) :
    arrayFlat (some (2 ^ 31 - 1)) xs = some ((xs.take (2 ^ 31)).flatMap Value.reached) :=
  arrayFlat_none xs

/-! ### Arrays whose items are all read -/

variable {xs : List (Value α)}

/-- No nested array has more items than an `int` can number. -/
def Narrow (xs : List (Value α)) : Prop := ∀ vs, .array vs ∈ xs → vs.length ≤ 2 ^ 31

lemma pushed_eq_iff (vs : List (Value α)) : pushed vs = vs ↔ vs.length ≤ 2 ^ 31 := by
  rw [pushed, take_eq_self_iff]
  constructor
  · intro h
    have hlt := (isInt_toInt (vs.length - 1)).2
    omega
  · intro h
    rw [toInt_of_isInt (by constructor <;> omega)]
    omega

lemma length_opened_le (v : Value α) : v.opened.length ≤ v.flatten.length := by
  cases v with
  | item a => exact Nat.le_refl _
  | array vs => exact length_take_le' _ vs

lemma opened_eq_iff (xs : List (Value α)) : opened xs = flattened xs ↔ Narrow xs := by
  have hle : ∀ xs : List (Value α), (opened xs).length ≤ (flattened xs).length := by
    intro xs
    rw [opened, flattened, length_flatMap, length_flatMap]
    exact sum_le_sum fun v _ => length_opened_le v
  induction xs with
  | nil => exact iff_of_true rfl fun _ h => absurd h not_mem_nil
  | cons v xs ih =>
    have hcons : opened (v :: xs) = flattened (v :: xs) ↔
        v.opened = v.flatten ∧ opened xs = flattened xs := by
      constructor
      · intro h
        refine append_inj h ?_
        have hlen := congrArg length h
        rw [opened, flattened, flatMap_cons, flatMap_cons, length_append, length_append] at hlen
        have hv := length_opened_le v
        have hxs := hle xs
        rw [opened, flattened] at hxs
        omega
      · exact fun ⟨hv, hxs⟩ => congrArg₂ (· ++ ·) hv hxs
    refine hcons.trans ((and_congr_right fun _ => ih).trans ?_)
    cases v with
    | item a => simp [Narrow, Value.opened, Value.flatten]
    | array vs => simp [Narrow, Value.opened, Value.flatten, pushed_eq_iff]

lemma opened_iterate {n : Nat}
    (h : ∀ k < n, Narrow (flattened^[k] xs)) : opened^[n] xs = flattened^[n] xs := by
  induction n with
  | zero => rfl
  | succ n ih =>
    rw [iterate_succ_apply', iterate_succ_apply', ih fun k hk => h k (by omega)]
    exact (opened_eq_iff _).mpr (h n (by omega))

lemma arrayFlat_narrow {n : Nat} (hn : n < 2 ^ 31 - 1)
    (hxs : xs.length ≤ 2 ^ 31) (h : ∀ k < n, Narrow (flattened^[k] xs)) :
    arrayFlat (some n) xs = some (flattened^[n] xs) := by
  rw [arrayFlat_some hn, take_of_length_le hxs, opened_iterate h]

/-! ### Values without arrays -/

def Value.IsItem (v : Value α) : Prop := ∃ a, v = .item a

mutual

lemma isItem_of_mem_leaves {w : Value α} : ∀ {v : Value α}, w ∈ v.leaves → w.IsItem
  | .item a, h => ⟨a, mem_singleton.mp h⟩
  | .array _, h => isItem_of_mem_leavesOf h

lemma isItem_of_mem_leavesOf {w : Value α} : ∀ {vs : List (Value α)}, w ∈ leavesOf vs → w.IsItem
  | v :: vs, h => by
    rw [leavesOf, mem_append] at h
    exact h.elim isItem_of_mem_leaves isItem_of_mem_leavesOf

end

lemma leavesOf_flattened (xs : List (Value α)) : leavesOf (flattened xs) = leavesOf xs := by
  rw [leavesOf_eq, leavesOf_eq, flattened, flatMap_assoc]
  refine flatMap_congr fun v _ => ?_
  cases v with
  | item a => rfl
  | array vs => exact (leavesOf_eq vs).symm

lemma leavesOf_iterate (k : Nat) (xs : List (Value α)) :
    leavesOf (flattened^[k] xs) = leavesOf xs := by
  induction k with
  | zero => rfl
  | succ k ih => rw [iterate_succ_apply', leavesOf_flattened, ih]

lemma flatMap_of_isItem {g : Value α → List (Value α)} (hg : ∀ a, g (.item a) = [.item a])
    (h : ∀ v ∈ xs, v.IsItem) : xs.flatMap g = xs := by
  rw [← flatMap_singleton' xs, flatMap_assoc]
  refine flatMap_congr fun v hv => ?_
  obtain ⟨a, rfl⟩ := h v hv
  simp [hg]

/-- If only items are left a level below, the leaves that are read are the items that are. -/
lemma flatMap_reached_eq_opened (h : ∀ v ∈ flattened xs, v.IsItem) :
    xs.flatMap Value.reached = opened xs := by
  refine flatMap_congr fun v hv => ?_
  rw [reached_eq]
  refine flatMap_of_isItem (fun _ => rfl) fun w hw => h w (mem_flatMap.mpr ⟨v, hv, ?_⟩)
  cases v with
  | item a => exact hw
  | array vs => exact mem_of_mem_take hw

/-- What `flat` is to do with an array: depth by depth, and without a depth. -/
def Flattens (xs : List (Value α)) : Prop :=
  (∀ m n : Nat, m + n < 2 ^ 31 - 1 → arrayFlat (some 0) xs = some xs ∧
    arrayFlat (some (n + 1)) xs = (arrayFlat (some n) xs).map flattened ∧
    arrayFlat (some (m + n)) xs = (arrayFlat (some m) xs).bind (arrayFlat (some n))) ∧
  arrayFlat none xs = some (leavesOf xs) ∧ ∀ v ∈ leavesOf xs, v.IsItem

lemma Flattens.iterate (h : Flattens xs) {k : Nat} (hk : k < 2 ^ 31) :
    arrayFlat (some k) xs = some (flattened^[k] xs) := by
  induction k with
  | zero => exact (h.1 0 0 (by omega)).1
  | succ k ih =>
    rw [Int.natCast_succ, (h.1 0 k (by omega)).2.1, ih (by omega), map_some, iterate_succ_apply']

lemma Flattens.length_le (h : Flattens xs) {k : Nat}
    (hk : k < 2 ^ 31 - 1) : (flattened^[k] xs).length ≤ 2 ^ 31 := by
  have hcopy := (h.1 k 0 (by omega)).2.2
  rw [Int.natCast_zero, Int.add_zero, h.iterate (by omega), bind_some,
    show (0 : Int) = (0 : Nat) from rfl, arrayFlat_some (by omega), some_inj] at hcopy
  exact (take_eq_self_iff _).mp hcopy.symm

lemma Flattens.narrow (h : Flattens xs) {k : Nat}
    (hk : k < 2 ^ 31 - 1) : Narrow (flattened^[k] xs) := by
  have hxs : xs.take (2 ^ 31) = xs := take_of_length_le (h.length_le (k := 0) (by omega))
  induction k using Nat.strong_induction_on with
  | _ k ih =>
    have hopened : opened^[k] xs = flattened^[k] xs := opened_iterate fun j hj => ih j hj (by omega)
    have hnext := h.iterate (k := k + 1) (by omega)
    rw [← opened_eq_iff, ← iterate_succ_apply' flattened]
    by_cases hlast : k + 1 < 2 ^ 31 - 1
    · rw [arrayFlat_some hlast, hxs, iterate_succ_apply', hopened, some_inj] at hnext
      exact hnext
    · -- the next depth is the greatest one, so that all leaves are read
      rw [show ((k + 1 : Nat) : Int) = 2 ^ 31 - 1 by omega, arrayFlat_max, hxs,
        flatMap_reached k, hopened] at hnext
      have hnone := h.2.1
      rw [arrayFlat_none, hxs, flatMap_reached k, hopened, hnext, some_inj] at hnone
      rw [← some_inj, ← hnext, flatMap_reached_eq_opened]
      rw [← iterate_succ_apply' flattened, hnone]
      exact h.2.2

/-- The levels of an array, with the greatest depth as a variable. -/
lemma flattens_iff {top : Nat} (htop : top = 2 ^ 31 - 1) (xs : List (Value α)) :
    Flattens xs ↔
      (∀ k < top, (flattened^[k] xs).length ≤ 2 ^ 31 ∧ Narrow (flattened^[k] xs)) ∧
        ∀ v ∈ flattened^[top] xs, v.IsItem := by
  have hcast : (top : Int) = 2 ^ 31 - 1 := by omega
  constructor
  · intro h
    refine ⟨fun k hk => ⟨h.length_le (by omega), h.narrow (by omega)⟩, ?_⟩
    have hmax := h.iterate (k := top) (by omega)
    rw [hcast, arrayFlat_max, ← arrayFlat_none, h.2.1, some_inj] at hmax
    rw [← hmax]
    exact h.2.2
  · rintro ⟨hlevels, hitems⟩
    have hxs : xs.length ≤ 2 ^ 31 := (hlevels 0 (by omega)).1
    have hreached : (xs.take (2 ^ 31)).flatMap Value.reached = flattened^[top] xs := by
      rw [take_of_length_le hxs, flatMap_reached top,
        opened_iterate fun k hk => (hlevels k hk).2]
      exact flatMap_of_isItem (fun _ => rfl) hitems
    have hflat : ∀ k : Nat, k ≤ top → arrayFlat (some k) xs = some (flattened^[k] xs) := by
      intro k hk
      rcases hk.lt_or_eq with hk | rfl
      · exact arrayFlat_narrow (by omega) hxs fun j hj => (hlevels j (by omega)).2
      · rw [hcast, arrayFlat_max, hreached]
    refine ⟨fun m n hmn => ⟨hflat 0 (by omega), ?_, ?_⟩, ?_, fun v => isItem_of_mem_leavesOf⟩
    · rw [hflat n (by omega), map_some, ← iterate_succ_apply' flattened]
      exact hflat (n + 1) (by omega)
    · rw [← Int.natCast_add, hflat (m + n) (by omega), hflat m (by omega), bind_some,
        arrayFlat_narrow (by omega) (hlevels m (by omega)).1, Nat.add_comm, iterate_add_apply]
      intro k hk
      rw [← iterate_add_apply]
      exact (hlevels (k + m) (by omega)).2
    · rw [arrayFlat_none, hreached, ← leavesOf_iterate top xs, leavesOf_eq,
        flatMap_of_isItem (fun _ => rfl) hitems]

/-- `flat` flattens level by level exactly if, up to the greatest depth, no array on the way has
more items than an `int` can number, and if no array is nested more deeply than that depth: a
call with the greatest depth is one without a depth. -/
theorem arrayFlat_iterates_iff (xs : List (Value α)) :
    Flattens xs ↔
      (∀ k < 2 ^ 31 - 1, (flattened^[k] xs).length ≤ 2 ^ 31 ∧ Narrow (flattened^[k] xs)) ∧
        ∀ v ∈ flattened^[2 ^ 31 - 1] xs, v.IsItem :=
  flattens_iff rfl xs

lemma arrayFlat_singleton {vs : List (Value α)} (h : vs.length = 2 ^ 31 + 1) :
    arrayFlat (some 1) [.array vs] = some [] := by
  have hpushed : pushed vs = [] := by
    rw [pushed, h, show (toInt (((2 ^ 31 + 1 : Nat) : Int) - 1) + 1).toNat = 0 by decide, take_zero]
  have hflat := arrayFlat_some (n := 1) (by decide) [.array vs]
  rw [take_of_length_le (by rw [length_singleton]; omega), iterate_one, opened, flatMap_singleton,
    Value.opened, hpushed] at hflat
  exact hflat

/-- A nested array with one item more than an `int` can number: none of them is read. -/
theorem arrayFlat_wide : ∃ xs : List (Value Unit),
    arrayFlat (some 1) xs = some [] ∧ (flattened xs).length = 2 ^ 31 + 1 := by
  obtain ⟨vs, hvs⟩ : ∃ vs : List (Value Unit), vs.length = 2 ^ 31 + 1 :=
    ⟨replicate (2 ^ 31 + 1) (.item ()), length_replicate⟩
  refine ⟨[.array vs], arrayFlat_singleton hvs, ?_⟩
  rw [flattened, flatMap_singleton, Value.flatten, hvs]

end Flat

end TyLang.Arrays
