import Mathlib

/-!
Dispatch of user-defined binary operators (`src/operators.c`). The definitions of an
operator are searched by `check_slow`; its answers are kept in a cache of the operator,
which `op_add` empties, and in a cache of each thread, which nothing empties. Threads
interleave at the sections between a lock and its unlock. Counts are unbounded here,
and the class hierarchy is a parameter.
-/
namespace TyLang.Operators
open List

def opCacheMiss : Int := -2
def opNoImpl : Int := -1

structure OperatorSpec where
  t1 : BitVec 32
  t2 : BitVec 32
  ref : Int
  deriving DecidableEq, Repr

structure CacheEntry where
  key : Nat
  ref : Int
  deriving DecidableEq, Repr

structure DispatchGroup where
  cache : List CacheEntry
  defs : List OperatorSpec
  deriving DecidableEq, Repr

def keyFor (t1 t2 : BitVec 32) : Nat := (t1.signExtend 64 <<< 32 ||| t2.setWidth 64).toNat

def checkCacheLoop (cache : List CacheEntry) (key : Nat) : Nat → Nat → Int → Option Int
  | 0, _, _ => none
  | fuel + 1, lo, hi =>
    if (lo : Int) ≤ hi then
      let m := (lo + hi.toNat) / 2
      match cache[m]? with
      | none => none
      | some e =>
        if key < e.key then checkCacheLoop cache key fuel lo ((m : Int) - 1)
        else if e.key < key then checkCacheLoop cache key fuel (m + 1) hi
        else some e.ref
    else some opCacheMiss

def checkCache (cache : List CacheEntry) (key : Nat) : Option Int :=
  checkCacheLoop cache key (1 + cache.length) 0 ((cache.length : Int) - 1)

/-- The loop of `update_cache`, from the index `i` down. -/
def sink (key : Nat) : Nat → List CacheEntry → List CacheEntry
  | 0, cache => cache
  | i + 1, cache =>
    match cache[i]?, cache[i + 1]? with
    | some a, some b => if key < a.key then sink key i ((cache.set i b).set (i + 1) a) else cache
    | _, _ => cache

def updateCache (cache : List CacheEntry) (key : Nat) (ref : Int) : List CacheEntry :=
  sink key cache.length (cache ++ [⟨key, ref⟩])

section Slow

-- `class_is_subclass`
variable (sub : BitVec 32 → BitVec 32 → Bool)

def areOrdered (a b : OperatorSpec) : Bool :=
  sub a.t1 b.t1 && sub a.t2 b.t2 && (a.t1 != b.t1 || a.t2 != b.t2)

/-- The loop of `check_slow`, with the best match so far. -/
def checkSlowLoop (t1 t2 : BitVec 32) : List OperatorSpec → Option OperatorSpec → Int
  | [], none => opNoImpl
  | [], some m => m.ref
  | op :: list, best =>
    if op.ref = -1 then checkSlowLoop t1 t2 list best
    else if t1 = op.t1 ∧ t2 = op.t2 then op.ref
    else if sub t1 op.t1 && sub t2 op.t2 && best.all (areOrdered sub op) then
      checkSlowLoop t1 t2 list (some op)
    else checkSlowLoop t1 t2 list best

def checkSlow (list : List OperatorSpec) (t1 t2 : BitVec 32) : Int :=
  checkSlowLoop sub t1 t2 list none

end Slow

inductive Pc where
  | idle
  /-- At the start of `op_xdispatch`. -/
  | lookup (op : Nat) (t1 t2 : BitVec 32)
  /-- The cache of the group had no answer. -/
  | slow (op : Nat) (t1 t2 : BitVec 32)
  /-- Back from `op_xdispatch`. -/
  | store (op : Nat) (t1 t2 : BitVec 32) (ref : Int)
  deriving DecidableEq, Repr

structure Thread where
  pc : Pc
  caches : List (List CacheEntry)
  deriving DecidableEq, Repr

structure State where
  groups : List DispatchGroup
  threads : Nat → Thread

def start : State := ⟨[], fun _ => ⟨.idle, []⟩⟩

def State.setPc (s : State) (th : Nat) (pc : Pc) : State :=
  { s with threads := Function.update s.threads th { s.threads th with pc := pc } }

/-- `fit2`, as far as `fuel` doublings go. -/
def fit2 : Nat → Nat → Nat → Nat
  | 0, cap, _ => cap
  | fuel + 1, cap, min => if cap < min then fit2 fuel (2 * cap) min else cap

/-- The groups after the `do` loop of `op_add`, which stops once the vector is longer than
`op` and full. It was full before, too. -/
def grow (groups : List DispatchGroup) (op : Nat) : List DispatchGroup :=
  let capacity := if 0 < groups.length then 2 * groups.length else 4
  groups ++ replicate (fit2 (op + 1) capacity (op + 1) - groups.length) ⟨[], []⟩

def opAdd (s : State) (op : Nat) (spec : OperatorSpec) : State :=
  let groups := if s.groups.length ≤ op then grow s.groups op else s.groups
  { s with groups := groups.modify op fun g => ⟨[], g.defs ++ [spec]⟩ }

/-- The answer of a call, reported by the section that determines it. -/
structure Answer where
  op : Nat
  t1 : BitVec 32
  t2 : BitVec 32
  ref : Int
  deriving DecidableEq, Repr

inductive Action where
  | add (op : Nat) (spec : OperatorSpec)
  | call (th op : Nat) (t1 t2 : BitVec 32)
  | resume (th : Nat)
  deriving DecidableEq, Repr

/-- `op_dispatch` up to the call of `op_xdispatch`. -/
def callStep (s : State) (th op : Nat) (t1 t2 : BitVec 32) : Option (State × Option Answer) :=
  match (s.threads th).caches[op]? with
  | none => some (s.setPc th (.lookup op t1 t2), none)
  | some c =>
    match checkCache c (keyFor t1 t2) with
    | none => none
    | some ref =>
      if ref ≠ opCacheMiss then some (s, some ⟨op, t1, t2, ref⟩)
      else some (s.setPc th (.lookup op t1 t2), none)

/-- `op_xdispatch` up to the end of its first section under the lock of the group. -/
def lookupStep (s : State) (th op : Nat) (t1 t2 : BitVec 32) : Option (State × Option Answer) :=
  match s.groups[op]? with
  | none => some (s.setPc th (.store op t1 t2 opNoImpl), some ⟨op, t1, t2, opNoImpl⟩)
  | some g =>
    match checkCache g.cache (keyFor t1 t2) with
    | none => none
    | some ref =>
      if ref ≠ opCacheMiss then
        some (s.setPc th (.store op t1 t2 ref), some ⟨op, t1, t2, ref⟩)
      else some (s.setPc th (.slow op t1 t2), none)

def slowStep (sub : BitVec 32 → BitVec 32 → Bool) (s : State) (th op : Nat)
    (t1 t2 : BitVec 32) : Option (State × Option Answer) :=
  match s.groups[op]? with
  | none => none
  | some g =>
    let ref := checkSlow sub g.defs t1 t2
    let g' := { g with cache := updateCache g.cache (keyFor t1 t2) ref }
    some ({ s.setPc th (.store op t1 t2 ref) with groups := s.groups.set op g' },
      some ⟨op, t1, t2, ref⟩)

/-- The end of `op_dispatch`. -/
def storeStep (s : State) (th op : Nat) (t1 t2 : BitVec 32) (ref : Int) : State :=
  let caches := (s.threads th).caches
  let caches := caches ++ replicate (op + 1 - caches.length) []
  let caches := caches.modify op fun c => updateCache c (keyFor t1 t2) ref
  { s with threads := Function.update s.threads th ⟨.idle, caches⟩ }

def step (sub : BitVec 32 → BitVec 32 → Bool) (s : State) :
    Action → Option (State × Option Answer)
  | .add op spec => some (opAdd s op spec, none)
  | .call th op t1 t2 =>
    match (s.threads th).pc with
    | .idle => callStep s th op t1 t2
    | _ => none
  | .resume th =>
    match (s.threads th).pc with
    | .idle => none
    | .lookup op t1 t2 => lookupStep s th op t1 t2
    | .slow op t1 t2 => slowStep sub s th op t1 t2
    | .store op t1 t2 ref => some (storeStep s th op t1 t2 ref, none)

def run (sub : BitVec 32 → BitVec 32 → Bool) (s : State) : List Action → Option State
  | [] => some s
  | act :: acts =>
    match step sub s act with
    | none => none
    | some (s', _) => run sub s' acts

/-! ### The caches -/

lemma keyFor_inj {t1 t2 u1 u2 : BitVec 32} (h : keyFor t1 t2 = keyFor u1 u2) :
    t1 = u1 ∧ t2 = u2 := by
  have hbits := BitVec.eq_of_toNat_eq h
  constructor
  · apply BitVec.eq_of_getLsbD_eq
    intro i hi
    have := congrArg (fun x : BitVec 64 => x.getLsbD (32 + i)) hbits
    have h1 : 32 + i < 64 := by omega
    have h2 : ¬ 32 + i < 32 := by omega
    have h3 : i < 64 := by omega
    simpa only [BitVec.getLsbD_or, BitVec.getLsbD_shiftLeft, BitVec.getLsbD_setWidth,
      BitVec.getLsbD_signExtend, BitVec.getLsbD_of_ge _ _ (Nat.le_add_right 32 i), h1, h2, h3, hi,
      Nat.add_sub_cancel_left, decide_true, decide_false, Bool.not_false, Bool.true_and,
      Bool.and_false, Bool.or_false, if_true] using this
  · apply BitVec.eq_of_getLsbD_eq
    intro i hi
    have := congrArg (fun x : BitVec 64 => x.getLsbD i) hbits
    simpa [hi, show i < 64 by omega] using this

lemma checkCacheLoop_spec (cache : List CacheEntry) (key : Nat) :
    ∀ fuel lo hi, lo ≤ hi → hi ≤ cache.length → hi - lo < fuel →
      ∃ ref, checkCacheLoop cache key fuel lo ((hi : Int) - 1) = some ref ∧
        (ref ≠ opCacheMiss → ⟨key, ref⟩ ∈ cache) := by
  intro fuel
  induction fuel with
  | zero => exact fun _ _ _ _ h => nomatch h
  | succ fuel ih =>
    intro lo hi hle hlen hfuel
    unfold checkCacheLoop
    by_cases hlt : (lo : Int) ≤ (hi : Int) - 1
    · have hpred : ((hi : Int) - 1).toNat = hi - 1 := by omega
      rw [if_pos hlt, hpred]
      have hm : lo ≤ (lo + (hi - 1)) / 2 ∧ (lo + (hi - 1)) / 2 < hi := by omega
      generalize (lo + (hi - 1)) / 2 = m at hm
      have hml : m < cache.length := by omega
      simp only [getElem?_eq_getElem hml]
      by_cases hless : key < cache[m].key
      · rw [if_pos hless]
        exact ih lo m hm.1 (by omega) (by omega)
      rw [if_neg hless]
      by_cases hmore : cache[m].key < key
      · rw [if_pos hmore]
        exact ih (m + 1) hi (by omega) hlen (by omega)
      · rw [if_neg hmore]
        have heq : cache[m].key = key := by omega
        refine ⟨_, rfl, fun _ => ?_⟩
        rw [← heq]
        exact getElem_mem hml
    · rw [if_neg hlt]
      exact ⟨_, rfl, fun h => absurd rfl h⟩

lemma checkCache_spec (cache : List CacheEntry) (key : Nat) :
    ∃ ref, checkCache cache key = some ref ∧ (ref ≠ opCacheMiss → ⟨key, ref⟩ ∈ cache) :=
  checkCacheLoop_spec cache key _ _ _ (Nat.zero_le _) .refl (by omega)

lemma sink_perm (key : Nat) : ∀ i cache, (sink key i cache).Perm cache := by
  intro i
  induction i with
  | zero => exact fun cache => .refl cache
  | succ i ih =>
    intro cache
    unfold sink
    split
    · rename_i a b ha hb
      obtain ⟨hi, rfl⟩ := List.getElem?_eq_some_iff.mp ha
      obtain ⟨hj, rfl⟩ := List.getElem?_eq_some_iff.mp hb
      split
      · exact (ih _).trans (set_set_perm hi hj)
      · exact .refl cache
    · exact .refl cache

lemma mem_updateCache {cache : List CacheEntry} {key : Nat} {ref : Int} {e : CacheEntry} :
    e ∈ updateCache cache key ref ↔ e ∈ cache ∨ e = ⟨key, ref⟩ := by
  unfold updateCache
  rw [(sink_perm key _ _).mem_iff, mem_append, mem_singleton]

end TyLang.Operators
