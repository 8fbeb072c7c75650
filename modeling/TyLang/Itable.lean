import TyLang.Lib.CInt
import TyLang.Lib.Search

/-!
The tables of `itable.c`: ids of member names, sorted, beside the values stored
under them. The functions take an `i64` id, but `ids` is a vector of `int` and
`bfind` counts in `int`, so an id is narrowed when it is inserted and a table has
to stay shorter than `2 ^ 31`. Under these two conditions every run refines a map.
-/
namespace TyLang.Itable
open List CInt Search Option Function

inductive Value (W : Type) where
  | nil
  | other (w : W)
  deriving DecidableEq, Repr

structure Table (W : Type) where
  ids : List Int
  values : List (Value W)
  deriving DecidableEq, Repr

def vecInsert {α : Type} (items : List α) (item : α) (i : Nat) : List α :=
  items.take i ++ item :: items.drop i

/-- The loop of `bfind`; it returns whether `id` was found, and the index `*i`. -/
def bfindLoop (ids : List Int) (id : Int) : Nat → Nat → Int → Nat → Option (Bool × Nat)
  | 0, _, _, _ => none
  | fuel + 1, lo, hi, i =>
    if (lo : Int) ≤ hi then
      let m := lo / 2 + hi.toNat / 2 + (hi.toNat &&& lo &&& 1)
      match ids[m]? with
      | none => none
      | some k =>
        if id < k then bfindLoop ids id fuel lo ((m : Int) - 1) m
        else if k < id then bfindLoop ids id fuel (m + 1) hi (m + 1)
        else some (true, m)
    else some (false, i)

section Model

variable {W : Type}

def itableInit : Table W := ⟨[], []⟩

section
variable (t : Table W) (id : Int)

def bfind : Option (Bool × Nat) :=
  bfindLoop t.ids id (1 + t.ids.length) 0 (toInt t.ids.length - 1) 0

/-- `itable_get` with the index of the value its result points to. -/
def itableGet : Option (Table W × Nat) :=
  match bfind t id with
  | none => none
  | some (true, i) => some (t, i)
  | some (false, i) => some (⟨vecInsert t.ids (toInt id) i, vecInsert t.values .nil i⟩, i)

def itableAdd (v : Value W) : Option (Table W × Nat) :=
  match bfind t id with
  | none => none
  | some (true, i) => some ({ t with values := t.values.set i v }, i)
  | some (false, i) => some (⟨vecInsert t.ids (toInt id) i, vecInsert t.values v i⟩, i)

/-- `some none` is the result `NULL`. -/
def itableLookup : Option (Option (Value W)) :=
  match bfind t id with
  | none => none
  | some (true, i) => t.values[i]?.map some
  | some (false, _) => some none

end

def copyWeakOne (dst : Table W) (id : Int) (v : Value W) : Option (Table W) :=
  match itableGet dst id with
  | none => none
  | some (dst', i) =>
    match dst'.values[i]? with
    | none => none
    | some .nil => some { dst' with values := dst'.values.set i v }
    | some (.other _) => some dst'

/-- The loop of `itable_copy_weak` over the entries of `src`. -/
def copyWeakLoop (dst : Table W) : List (Int × Value W) → Option (Table W)
  | [] => some dst
  | (id, v) :: entries =>
    match copyWeakOne dst id v with
    | none => none
    | some dst' => copyWeakLoop dst' entries

def itableCopyWeak (dst src : Table W) : Option (Table W) :=
  copyWeakLoop dst (src.ids.zip src.values)

end Model

/-! ### The search -/

lemma mid_bounds {lo hi : Nat} (h : lo ≤ hi) :
    lo ≤ lo / 2 + hi / 2 + (hi &&& lo &&& 1) ∧ lo / 2 + hi / 2 + (hi &&& lo &&& 1) ≤ hi := by
  have hbit : (hi &&& lo &&& 1) = 1 ↔ hi % 2 = 1 ∧ lo % 2 = 1 := by
    rw [Nat.and_one_is_mod, Nat.and_mod_two_eq_one]
  have hlt : (hi &&& lo &&& 1) < 2 := by
    rw [Nat.and_one_is_mod]
    exact Nat.mod_lt _ (by decide)
  omega

inductive Found (ids : List Int) (id : Int) : Bool × Nat → Prop where
  | hit {m} : ids[m]? = some id → Found ids id (true, m)
  | miss {m} : Window ids id m m → Found ids id (false, m)

variable {ids : List Int}

/-- The insertion index is always an end of the window, so it is the window once that is empty. -/
lemma bfindLoop_spec {id : Int} (hs : ids.Pairwise (· ≤ ·)) {fuel lo hi i : Nat}
    (w : Window ids id lo hi) (hfuel : hi - lo < fuel) (hend : i = lo ∨ i = hi) :
    ∃ r, bfindLoop ids id fuel lo ((hi : Int) - 1) i = some r ∧ Found ids id r := by
  induction fuel generalizing lo hi i with
  | zero => cases hfuel
  | succ fuel ih =>
    have hwle := w.le
    unfold bfindLoop
    by_cases hlt : (lo : Int) ≤ (hi : Int) - 1
    · have hpred : ((hi : Int) - 1).toNat = hi - 1 := by omega
      have hle : lo ≤ hi - 1 := by omega
      rw [if_pos hlt, hpred]
      obtain ⟨hm1, hm2⟩ := mid_bounds hle
      generalize lo / 2 + (hi - 1) / 2 + (hi - 1 &&& lo &&& 1) = m at hm1 hm2
      have hml : m < ids.length := by
        have := w.hi_le
        omega
      have hget : ids[m]? = some ids[m] := getElem?_eq_getElem hml
      simp only [hget]
      by_cases hless : id < ids[m]
      · rw [if_pos hless]
        exact ih (w.left hs hm1 hget hless) (by omega) (.inr rfl)
      rw [if_neg hless]
      by_cases hmore : ids[m] < id
      · rw [if_pos hmore]
        exact ih (w.right hs (by omega) hget hmore) (by omega) (.inl rfl)
      · rw [if_neg hmore]
        have heq : ids[m] = id := by omega
        exact ⟨_, rfl, .hit (by rw [hget, heq])⟩
    · rw [if_neg hlt]
      obtain ⟨rfl, rfl⟩ : i = lo ∧ hi = lo := by omega
      exact ⟨_, rfl, .miss w⟩

/-! ### The invariant and the operations -/

variable {W : Type} {t : Table W} {id y : Int} {v : Value W} {i : Nat} {t' : Table W}

def Table.map (t : Table W) (id : Int) : Option (Value W) := (t.ids.zip t.values).lookup id

structure Inv (t : Table W) : Prop where
  sorted : t.ids.Pairwise (· < ·)
  parallel : t.ids.length = t.values.length
  narrow : ∀ id ∈ t.ids, IsInt id
  small : t.ids.length < 2 ^ 31

lemma inv_itableInit : Inv (itableInit : Table W) :=
  ⟨.nil, rfl, fun _ h => (not_mem_nil h).elim, Nat.two_pow_pos 31⟩

lemma Inv.bfind_spec (h : Inv t) (id : Int) : ∃ r, bfind t id = some r ∧ Found t.ids id r := by
  have hlen : toInt t.ids.length = t.ids.length := by
    apply toInt_of_isInt
    have := h.small
    constructor <;> omega
  unfold bfind
  rw [hlen]
  exact bfindLoop_spec (h.sorted.imp le_of_lt) (.whole _ _) (by omega) (.inl rfl)

/-- The entry of an id that is in the table, and what stands before and behind it. -/
structure At (t : Table W) (id : Int) (i : Nat) (v : Value W) (l r : List Int)
    (vl vr : List (Value W)) : Prop where
  ids : t.ids = l ++ id :: r
  values : t.values = vl ++ v :: vr
  left : l.length = i
  parallel : l.length = vl.length
  notMem : id ∉ l

lemma Inv.at_of_hit (h : Inv t) (hit : t.ids[i]? = some id) :
    ∃ v l r vl vr, At t id i v l r vl vr := by
  obtain ⟨hi, hid⟩ := List.getElem?_eq_some_iff.mp hit
  have hv : i < t.values.length := h.parallel ▸ hi
  have hids : t.ids = t.ids.take i ++ id :: t.ids.drop (i + 1) := by
    rw [← hid, ← drop_eq_getElem_cons hi, take_append_drop]
  have hvalues : t.values = t.values.take i ++ t.values[i] :: t.values.drop (i + 1) := by
    rw [← drop_eq_getElem_cons hv, take_append_drop]
  refine ⟨_, _, _, _, _, hids, hvalues, ?_, ?_, ?_⟩
  · rw [length_take]
    omega
  · rw [length_take, length_take]
    omega
  · intro hmem
    have hs := h.sorted
    rw [hids, pairwise_append] at hs
    exact lt_irrefl id (hs.2.2 id hmem id mem_cons_self)

section Entry

variable {i : Nat} {l r : List Int} {vl vr : List (Value W)}

section
variable (a : At t id i v l r vl vr)
include a

lemma At.mem : id ∈ t.ids := by
  rw [a.ids]
  simp

lemma At.map : t.map id = some v := by
  unfold Table.map
  rw [a.ids, a.values]
  exact lookup_zip_self a.parallel a.notMem

lemma At.get : t.values[i]? = some v := by
  have hi : vl.length = i := by rw [← a.parallel, a.left]
  rw [a.values, ← hi, getElem?_append_right .refl, Nat.sub_self]
  rfl

lemma At.set (w : Value W) : At { t with values := t.values.set i w } id i w l r vl vr := by
  have hi : vl.length = i := by rw [← a.parallel, a.left]
  refine ⟨a.ids, ?_, a.left, a.parallel, a.notMem⟩
  rw [a.values, ← hi, set_append_right _ _ .refl, Nat.sub_self]
  rfl

lemma At.map_of_ne (hy : y ≠ id) : t.map y = ((l ++ r).zip (vl ++ vr)).lookup y := by
  rw [Table.map, a.ids, a.values, lookup_zip_of_ne a.parallel hy]

lemma At.map_set (w : Value W) (hy : y ≠ id) :
    Table.map { t with values := t.values.set i w } y = t.map y :=
  ((a.set w).map_of_ne hy).trans (a.map_of_ne hy).symm

end

lemma Inv.set (h : Inv t) (i : Nat) (w : Value W) : Inv { t with values := t.values.set i w } :=
  ⟨h.sorted, h.parallel.trans length_set.symm, h.narrow, h.small⟩

end Entry

/-- The new ids of `new` fit into the table. -/
def Room (t : Table W) (new : List Int) : Prop :=
  t.ids.length + (new.filter (· ∉ t.ids)).length < 2 ^ 31

instance (t : Table W) (new : List Int) : Decidable (Room t new) := Nat.decLt _ _

lemma Room.single (hroom : Room t [id]) (hid : id ∉ t.ids) : t.ids.length + 1 < 2 ^ 31 := by
  unfold Room at hroom
  rwa [filter_cons_of_pos (by simpa using hid)] at hroom

/-- What an operation on the entry of `id` leaves: the entry holds `v`, all else is as before. -/
structure Updated (t : Table W) (id : Int) (i : Nat) (v : Value W) (t' : Table W) : Prop where
  inv : Inv t'
  spot : ∃ l r vl vr, At t' id i v l r vl vr
  mem : ∀ y, y ∈ t'.ids ↔ y = id ∨ y ∈ t.ids
  length : t'.ids.length = t.ids.length + ([id].filter (· ∉ t.ids)).length
  map : ∀ y, y ≠ id → t'.map y = t.map y

lemma length_vecInsert {α : Type} {items : List α} (item : α) (h : i ≤ items.length) :
    (vecInsert items item i).length = items.length + 1 := by
  simp only [vecInsert, length_append, length_take, length_cons, length_drop]
  omega

lemma Inv.insert (h : Inv t) (w : Window t.ids id i i) (hid : IsInt id)
    (hroom : Room t [id]) (v : Value W) :
    Updated t id i v ⟨vecInsert t.ids (toInt id) i, vecInsert t.values v i⟩ := by
  have hsmall := hroom.single w.notMem
  have hlen : (vecInsert t.ids id i).length = t.ids.length + 1 := length_vecInsert id w.hi_le
  have hmem (y : Int) : y ∈ vecInsert t.ids id i ↔ y = id ∨ y ∈ t.ids := by
    conv_rhs => rw [← take_append_drop i t.ids]
    simp only [vecInsert, mem_append, mem_cons]
    tauto
  have hpar : (t.ids.take i).length = (t.values.take i).length := by
    rw [length_take, length_take, h.parallel]
  rw [toInt_of_isInt hid]
  refine ⟨⟨?_, ?_, ?_, ?_⟩, ⟨_, _, _, _, rfl, rfl, ?_, hpar, ?_⟩, hmem, ?_, ?_⟩
  · exact (w.pairwise_insert h.sorted w.hi_le).mpr rfl
  · exact hlen.trans (h.parallel ▸ (length_vecInsert v (h.parallel ▸ w.hi_le)).symm)
  · intro y hy
    rcases (hmem y).mp hy with rfl | hy
    · exact hid
    · exact h.narrow y hy
  · exact hlen.trans_lt hsmall
  · rw [length_take, Nat.min_eq_left w.hi_le]
  · exact fun hmem => w.notMem (mem_of_mem_take hmem)
  · rwa [filter_cons_of_pos (by simpa using w.notMem)]
  · intro y hy
    unfold Table.map vecInsert
    rw [lookup_zip_of_ne hpar hy, take_append_drop, take_append_drop]

lemma lookup_eq_none {entries : List (Int × Value W)} (h : ∀ e ∈ entries, id ≠ e.1) :
    entries.lookup id = none := by
  rw [lookup_eq_none_iff]
  exact fun e he => by simpa using h e he

lemma Inv.map_eq_none (h : Inv t) : t.map id = none ↔ id ∉ t.ids := by
  constructor
  · intro hnone hmem
    obtain ⟨i, hi⟩ := getElem?_of_mem hmem
    obtain ⟨v, l, r, vl, vr, a⟩ := h.at_of_hit hi
    rw [a.map] at hnone
    cases hnone
  · exact fun hmem => lookup_eq_none fun e he heq => hmem (heq ▸ (of_mem_zip he).1)

lemma At.updated {l r : List Int} {vl vr : List (Value W)} {u : Value W} (h : Inv t)
    (a : At t id i u l r vl vr) (v : Value W) :
    Updated t id i v { t with values := t.values.set i v } := by
  refine ⟨h.set i v, ⟨l, r, vl, vr, a.set v⟩, ?_, ?_, fun y hy => a.map_set v hy⟩
  · intro y
    constructor
    · exact .inr
    · rintro (rfl | hy)
      · exact a.mem
      · exact hy
  · rw [filter_cons_of_neg (by simpa using a.mem)]
    rfl

lemma Updated.map_self (h : Updated t id i v t') : t'.map id = some v := by
  obtain ⟨l, r, vl, vr, a⟩ := h.spot
  exact a.map

lemma Updated.get (h : Updated t id i v t') : t'.values[i]? = some v := by
  obtain ⟨l, r, vl, vr, a⟩ := h.spot
  exact a.get

lemma Inv.itableAdd_spec (h : Inv t) (hid : IsInt id) (hroom : Room t [id]) (v : Value W) :
    ∃ t' i, itableAdd t id v = some (t', i) ∧ Updated t id i v t' := by
  obtain ⟨_, hb, hfound⟩ := h.bfind_spec id
  unfold itableAdd
  rw [hb]
  cases hfound with
  | hit hit =>
    obtain ⟨u, l, r, vl, vr, a⟩ := h.at_of_hit hit
    exact ⟨_, _, rfl, At.updated h a v⟩
  | miss w => exact ⟨_, _, rfl, h.insert w hid hroom v⟩

lemma Inv.itableGet_spec (h : Inv t) (hid : IsInt id) (hroom : Room t [id]) :
    ∃ t' i, itableGet t id = some (t', i) ∧ Updated t id i ((t.map id).getD .nil) t' := by
  obtain ⟨_, hb, hfound⟩ := h.bfind_spec id
  unfold itableGet
  rw [hb]
  cases hfound with
  | @hit i hit =>
    obtain ⟨u, l, r, vl, vr, a⟩ := h.at_of_hit hit
    have hupd := At.updated h a u
    obtain ⟨hi, rfl⟩ := List.getElem?_eq_some_iff.mp a.get
    rw [set_getElem_self] at hupd
    rw [a.map]
    exact ⟨_, _, rfl, hupd⟩
  | miss w =>
    rw [h.map_eq_none.mpr w.notMem]
    exact ⟨_, _, rfl, h.insert w hid hroom .nil⟩

lemma Inv.itableLookup_spec (h : Inv t) (id : Int) : itableLookup t id = some (t.map id) := by
  obtain ⟨_, hb, hfound⟩ := h.bfind_spec id
  unfold itableLookup
  rw [hb]
  cases hfound with
  | hit hit =>
    obtain ⟨u, l, r, vl, vr, a⟩ := h.at_of_hit hit
    change t.values[_]?.map some = _
    rw [a.get, a.map]
    rfl
  | miss w => rw [h.map_eq_none.mpr w.notMem]

/-! ### Weak copies -/

/-- What `itable_copy_weak` leaves under an id that holds `d` in the target and `s` in the
source. -/
def weak : Option (Value W) → Option (Value W) → Option (Value W)
  | d, none => d
  | some (.other w), some _ => some (.other w)
  | _, some v => some v

lemma Updated.set {u : Value W} (h : Updated t id i u t')
    (v : Value W) : Updated t id i v { t' with values := t'.values.set i v } := by
  obtain ⟨l, r, vl, vr, a⟩ := h.spot
  refine ⟨h.inv.set i v, ⟨l, r, vl, vr, a.set v⟩, h.mem, h.length, ?_⟩
  intro y hy
  rw [a.map_set v hy, h.map y hy]

lemma Inv.copyWeakOne_spec (h : Inv t) (hid : IsInt id) (hroom : Room t [id]) (v : Value W) :
    ∃ t' i u, copyWeakOne t id v = some t' ∧ weak (t.map id) (some v) = some u ∧
      Updated t id i u t' := by
  obtain ⟨t', i, hget, hupd⟩ := h.itableGet_spec hid hroom
  have hval := hupd.get
  unfold copyWeakOne
  simp only [hget, hval]
  rcases hmap : t.map id with _ | _ | w <;> rw [hmap] at hupd
  · exact ⟨_, i, v, rfl, rfl, hupd.set v⟩
  · exact ⟨_, i, v, rfl, rfl, hupd.set v⟩
  · exact ⟨_, i, .other w, rfl, rfl, hupd⟩

lemma Room.head (hroom : Room t (id :: ids)) : Room t [id] := by
  have hsub : ([id] : List Int) <+ id :: ids := by simp
  exact Nat.lt_of_le_of_lt (Nat.add_le_add_left (hsub.filter _).length_le _) hroom

lemma Room.tail (hroom : Room t (id :: ids))
    (hupd : Updated t id i v t') (hid : id ∉ ids) : Room t' ids := by
  have hsame : ids.filter (· ∉ t'.ids) = ids.filter (· ∉ t.ids) := by
    apply filter_congr
    intro y hy
    have hne : y ≠ id := fun heq => hid (heq ▸ hy)
    simp only [hupd.mem, hne, false_or]
  unfold Room at hroom ⊢
  rwa [hsame, hupd.length, Nat.add_assoc, ← length_append, ← filter_append]

lemma copyWeakLoop_spec (h : Inv t) {entries : List (Int × Value W)}
    (hnarrow : ∀ e ∈ entries, IsInt e.1) (hnodup : (entries.map Prod.fst).Nodup)
    (hroom : Room t (entries.map Prod.fst)) :
    ∃ t', copyWeakLoop t entries = some t' ∧ Inv t' ∧
      ∀ y, t'.map y = weak (t.map y) (entries.lookup y) := by
  induction entries generalizing t with
  | nil => exact ⟨t, rfl, h, fun y => rfl⟩
  | cons e entries ih =>
    obtain ⟨id, v⟩ := e
    obtain ⟨hid, hnodup⟩ := nodup_cons.mp hnodup
    obtain ⟨hint, hnarrow⟩ := forall_mem_cons.mp hnarrow
    obtain ⟨t1, i, u, hone, hu, hupd⟩ := h.copyWeakOne_spec hint hroom.head v
    obtain ⟨t', hloop, hinv, hmap⟩ := ih hupd.inv hnarrow hnodup (hroom.tail hupd hid)
    refine ⟨t', ?_, hinv, ?_⟩
    · simp only [copyWeakLoop, hone]
      exact hloop
    intro y
    rw [hmap y, lookup_cons]
    by_cases hy : y = id
    · -- the id does not come again, so the round of its own entry decides
      subst hy
      have hne : ∀ e ∈ entries, y ≠ e.1 := by
        rintro e he rfl
        exact hid (mem_map.mpr ⟨e, he, rfl⟩)
      rw [lookup_eq_none hne, hupd.map_self, beq_self_eq_true]
      exact hu.symm
    · rw [hupd.map y hy, beq_false_of_ne hy]

lemma Inv.itableCopyWeak_spec {src : Table W} (h : Inv t) (hsrc : Inv src)
    (hroom : Room t src.ids) :
    ∃ t', itableCopyWeak t src = some t' ∧ Inv t' ∧ ∀ y, t'.map y = weak (t.map y) (src.map y) := by
  have hfst : (src.ids.zip src.values).map Prod.fst = src.ids :=
    map_fst_zip (Nat.le_of_eq hsrc.parallel)
  apply copyWeakLoop_spec h
  · exact fun e he => hsrc.narrow e.1 (of_mem_zip he).1
  · rw [hfst]
    exact hsrc.sorted.imp ne_of_lt
  · rwa [hfst]

/-! ### Runs -/

/-- Calls on a family of tables, named by numbers. -/
inductive Op (W : Type) where
  | add (k : Nat) (id : Int) (v : Value W)
  | get (k : Nat) (id : Int)
  | copyWeak (dst src : Nat)

def exec (s : Nat → Table W) : Op W → Option (Nat → Table W)
  | .add k id v => (itableAdd (s k) id v).map fun r => update s k r.1
  | .get k id => (itableGet (s k) id).map fun r => update s k r.1
  | .copyWeak dst src => (itableCopyWeak (s dst) (s src)).map (update s dst)

def run (s : Nat → Table W) : List (Op W) → Option (Nat → Table W)
  | [] => some s
  | op :: ops =>
    match exec s op with
    | none => none
    | some s' => run s' ops

def replayOne (m : Nat → Int → Option (Value W)) : Op W → Nat → Int → Option (Value W)
  | .add k id v => update m k (update (m k) id (some v))
  | .get k id => update m k (update (m k) id (some ((m k id).getD .nil)))
  | .copyWeak dst src => update m dst fun id => weak (m dst id) (m src id)

def replay (ops : List (Op W)) : Nat → Int → Option (Value W) :=
  ops.foldl replayOne fun _ _ => none

/-- The id is an `int`, and the table it is put into stays shorter than `2 ^ 31`. -/
def Fits (s : Nat → Table W) : Op W → Prop
  | .add k id _ | .get k id => IsInt id ∧ Room (s k) [id]
  | .copyWeak dst src => Room (s dst) (s src).ids

def AllFit (s : Nat → Table W) : List (Op W) → Prop
  | [] => True
  | op :: ops => Fits s op ∧ ∀ s', exec s op = some s' → AllFit s' ops

/-- A table is sorted, parallel and answers as a map does, and a search that fails in it
ends at the only index at which the id keeps it sorted. -/
structure Refines (t : Table W) (m : Int → Option (Value W)) : Prop where
  sorted : t.ids.Pairwise (· < ·)
  parallel : t.ids.length = t.values.length
  lookup : ∀ id, itableLookup t id = some (m id)
  hit : ∀ id, m id ≠ none → ∃ i, bfind t id = some (true, i) ∧ t.ids[i]? = some id
  miss : ∀ id, m id = none → ∃ i, bfind t id = some (false, i) ∧
    ∀ j ≤ t.ids.length, (vecInsert t.ids id j).Pairwise (· < ·) ↔ j = i

lemma Inv.refines (h : Inv t) : Refines t t.map := by
  refine ⟨h.sorted, h.parallel, h.itableLookup_spec, ?_, ?_⟩
  · intro id hid
    obtain ⟨_, hb, hfound⟩ := h.bfind_spec id
    cases hfound with
    | hit hit => exact ⟨_, hb, hit⟩
    | miss w => exact absurd (h.map_eq_none.mpr w.notMem) hid
  · intro id hid
    obtain ⟨_, hb, hfound⟩ := h.bfind_spec id
    cases hfound with
    | hit hit => exact absurd (mem_of_getElem? hit) (h.map_eq_none.mp hid)
    | miss w => exact ⟨_, hb, fun j hj => w.pairwise_insert h.sorted hj⟩

def Represents (s : Nat → Table W) (m : Nat → Int → Option (Value W)) : Prop :=
  ∀ k, Inv (s k) ∧ ∀ id, (s k).map id = m k id

variable {m : Nat → Int → Option (Value W)}

lemma Represents.update {s : Nat → Table W}
    (h : Represents s m) {k : Nat} {f : Int → Option (Value W)} (ht : Inv t)
    (hmap : ∀ id, t.map id = f id) :
    Represents (update s k t) (update m k f) := by
  intro j
  by_cases hj : j = k
  · subst hj
    rw [update_self, update_self]
    exact ⟨ht, hmap⟩
  · rw [update_of_ne hj, update_of_ne hj]
    exact h j

lemma Updated.map_update (h : Updated t id i v t') (y : Int) :
    t'.map y = update t.map id (some v) y := by
  by_cases hy : y = id
  · subst hy
    rw [update_self, h.map_self]
  · rw [update_of_ne hy, h.map y hy]

lemma Represents.exec {s : Nat → Table W} (h : Represents s m) {op : Op W} (hfit : Fits s op) :
    ∃ s', exec s op = some s' ∧ Represents s' (replayOne m op) := by
  have hmaps (k : Nat) : (s k).map = m k := funext (h k).2
  cases op with
  | add k id v =>
    obtain ⟨t', i, hadd, hupd⟩ := (h k).1.itableAdd_spec hfit.1 hfit.2 v
    refine ⟨_, by rw [Itable.exec, hadd, map_some], h.update hupd.inv ?_⟩
    rw [← hmaps k]
    exact hupd.map_update
  | get k id =>
    obtain ⟨t', i, hget, hupd⟩ := (h k).1.itableGet_spec hfit.1 hfit.2
    refine ⟨_, by rw [Itable.exec, hget, map_some], h.update hupd.inv ?_⟩
    rw [← hmaps k]
    exact hupd.map_update
  | copyWeak dst src =>
    obtain ⟨t', hcopy, hinv, hmap⟩ := (h dst).1.itableCopyWeak_spec (h src).1 hfit
    refine ⟨_, by rw [Itable.exec, hcopy, map_some], h.update hinv ?_⟩
    rwa [← hmaps dst, ← hmaps src]

lemma Represents.run {s : Nat → Table W} (h : Represents s m) {ops : List (Op W)}
    (hfit : AllFit s ops) : ∃ s', run s ops = some s' ∧ Represents s' (ops.foldl replayOne m) := by
  induction ops generalizing s m with
  | nil => exact ⟨s, rfl, h⟩
  | cons op ops ih =>
    obtain ⟨s1, hexec, h1⟩ := h.exec hfit.1
    obtain ⟨s', hrun, h'⟩ := ih h1 (hfit.2 s1 hexec)
    refine ⟨s', ?_, h'⟩
    simp only [Itable.run, hexec]
    exact hrun

/-- In a run whose calls all fit, every table refines the map that the same calls build. -/
theorem itable_refines_map (ops : List (Op W)) (hfit : AllFit (fun _ => itableInit) ops) :
    ∃ s, run (fun _ => itableInit) ops = some s ∧ ∀ k, Refines (s k) (replay ops k) := by
  have hstart : Represents (fun _ => (itableInit : Table W)) fun _ _ => none :=
    fun _ => ⟨inv_itableInit, fun _ => rfl⟩
  obtain ⟨s, hrun, hs⟩ := hstart.run hfit
  refine ⟨s, hrun, fun k => ?_⟩
  have hmap : (s k).map = replay ops k := funext (hs k).2
  exact hmap ▸ (hs k).1.refines

theorem itable_refines_map_two :
    ∃ s, run (fun _ => itableInit) [Op.add 0 5 (.other 'a'), .copyWeak 1 0] = some s ∧
      ∀ k, Refines (s k) (replay [Op.add 0 5 (.other 'a'), .copyWeak 1 0] k) := by
  apply itable_refines_map
  refine ⟨⟨⟨by decide, by decide⟩, by decide +kernel⟩, fun s hs => ?_⟩
  obtain rfl := some.inj hs
  exact ⟨(by decide +kernel : Room _ _), fun _ _ => trivial⟩

/-- The id `2 ^ 32` is stored as `0`, so it is not found, and `0`, never inserted, is. -/
theorem itable_not_refines_map :
    ∃ s, run (fun _ => itableInit) [Op.add 0 (2 ^ 32) (.other 'a')] = some s ∧
      itableLookup (s 0) (2 ^ 32) = some none ∧
      replay [Op.add 0 (2 ^ 32) (.other 'a')] 0 (2 ^ 32) = some (.other 'a') ∧
      itableLookup (s 0) 0 = some (some (.other 'a')) ∧
      replay [Op.add 0 (2 ^ 32) (.other 'a')] 0 0 = none :=
  ⟨_, rfl, by decide +kernel, by decide +kernel, by decide +kernel, by decide +kernel⟩

/-! ### Copies -/

/-- A vector of `vec.h`: what has been written to its block, and how much of that counts. -/
structure Vec (α : Type) where
  block : List α
  count : Nat

def Vec.items {α : Type} (v : Vec α) : List α := v.block.take v.count

/-- `vec_reserve_` on an empty vector, which makes room and counts nothing. -/
def Vec.reserved {α : Type} : Vec α := ⟨[], 0⟩

def Table.entryAt (t : Table W) (i : Int) : Option (Int × Value W) :=
  if i < 0 then none else (t.ids.zip t.values)[i.toNat]?

/-- Whether a round of `xmerge` takes the entry `i`, and not the entry `j`. -/
def takesFirst (t : Table W) (n0 i j : Int) : Option Bool :=
  if i = n0 then some false
  else if j = t.ids.length then some true
  else match t.entryAt i, t.entryAt j with
    | some (id, _), some (id', _) => some (id < id')
    | _, _ => none

/-- The loop of `xmerge` for the given number of rounds, with what it writes. -/
def xmergeLoop (t : Table W) (n0 : Int) : Nat → Int → Int → Option (List (Int × Value W))
  | 0, _, _ => some []
  | n + 1, i, j =>
    match takesFirst t n0 i j with
    | none => none
    | some first =>
      match t.entryAt (if first then i else j) with
      | none => none
      | some entry =>
        (xmergeLoop t n0 n (if first then i + 1 else i) (if first then j else j + 1)).map
          (entry :: ·)

def itableCopy (dst src : Table W) : Option (Table W) :=
  let n0 := toInt dst.ids.length
  let t : Table W := ⟨dst.ids ++ src.ids, dst.values ++ src.values⟩
  let ids : Vec Int := .reserved
  let vals : Vec (Value W) := .reserved
  match xmergeLoop t n0 t.ids.length 0 n0 with
  | none => none
  | some entries =>
    -- what is written to the blocks changes neither of the counts
    some ⟨{ ids with block := entries.map Prod.fst }.items,
      { vals with block := entries.map Prod.snd }.items⟩

/-- The result has the entries of both tables, those of `src` before those of `dst`. -/
def Merges (dst src : Table W) (result : Option (Table W)) : Prop :=
  ∃ t, result = some t ∧ t.ids.Pairwise (· < ·) ∧ (∀ id, id ∈ t.ids ↔ id ∈ dst.ids ∨ id ∈ src.ids) ∧
    ∀ id, itableLookup t id = some ((src.map id).or (dst.map id))

lemma eq_itableInit_of_itableCopy {dst src : Table W} (h : itableCopy dst src = some t) :
    t = itableInit := by
  unfold itableCopy at h
  dsimp only at h
  split at h
  · cases h
  · exact (some.inj h).symm

/-- The table that `itable_copy` leaves is empty, so it is right exactly for empty tables. -/
theorem itableCopy_merges_iff (dst src : Table W) :
    Merges dst src (itableCopy dst src) ↔ dst.ids = [] ∧ src.ids = [] := by
  constructor
  · rintro ⟨t, hcopy, -, hmem, -⟩
    obtain rfl := eq_itableInit_of_itableCopy hcopy
    refine ⟨eq_nil_iff_forall_not_mem.mpr fun id hid => ?_,
      eq_nil_iff_forall_not_mem.mpr fun id hid => ?_⟩
    · exact not_mem_nil ((hmem id).mpr (.inl hid))
    · exact not_mem_nil ((hmem id).mpr (.inr hid))
  · rintro ⟨hd, hs⟩
    have hcopy : itableCopy dst src = some itableInit := by
      rw [itableCopy, hd, hs]
      rfl
    refine ⟨itableInit, hcopy, .nil, fun id => by simp [itableInit, hd, hs], fun id => ?_⟩
    rw [inv_itableInit.itableLookup_spec, Table.map, Table.map, Table.map, hd, hs]
    rfl

/-- The merged entries are written, and none of them counts. -/
theorem itableCopy_loses_entries :
    itableCopy ⟨[1, 3], [.other 'a', .other 'b']⟩ ⟨[2], [.other 'c']⟩ = some ⟨[], []⟩ ∧
      ¬ Merges ⟨[1, 3], [.other 'a', .other 'b']⟩ ⟨[2], [.other 'c']⟩ (some ⟨[], []⟩) := by
  refine ⟨by decide +kernel, ?_⟩
  rintro ⟨t, ht, -, hmem, -⟩
  obtain rfl := some.inj ht
  exact not_mem_nil ((hmem 2).mpr (.inr (by simp)))

end TyLang.Itable
