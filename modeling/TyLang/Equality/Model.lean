import Mathlib

/-!
Equality and hashes of values: `value_test_equality`, `value_hash` and what they are made
of in `src/value.c`, for `nil`, booleans, integers, strings, arrays, queues and tuples.
-/
namespace TyLang.Equality

section Values

/-- Values with their tags. An array, a queue and the items of a tuple are at an address,
and a tuple may have ids for its items, where `-1` is an item without a name. -/
inductive Val where
  | nil (tags : UInt16)
  | boolean (tags : UInt16) (b : Bool)
  | integer (tags : UInt16) (z : BitVec 64)
  | string (tags : UInt16) (bytes : List UInt8)
  | array (tags : UInt16) (p : Nat) (items : List Val)
  /-- The items are those between `head` and `tail`. -/
  | queue (tags : UInt16) (p : Nat) (items : List Val)
  | tuple (tags : UInt16) (p : Nat) (ids : Option (List Int)) (items : List Val)
  deriving Repr

namespace Val

/-- Induction on values with a hypothesis for every item. -/
@[elab_as_elim, induction_eliminator]
lemma induct {motive : Val → Prop} (nil : ∀ tags, motive (.nil tags))
    (boolean : ∀ tags b, motive (.boolean tags b)) (integer : ∀ tags z, motive (.integer tags z))
    (string : ∀ tags bytes, motive (.string tags bytes))
    (array : ∀ tags p items, (∀ v ∈ items, motive v) → motive (.array tags p items))
    (queue : ∀ tags p items, (∀ v ∈ items, motive v) → motive (.queue tags p items))
    (tuple : ∀ tags p ids items, (∀ v ∈ items, motive v) → motive (.tuple tags p ids items))
    (v : Val) : motive v :=
  @Val.rec motive (fun vs => ∀ v ∈ vs, motive v) nil boolean integer string array queue tuple
    (by simp)
    (fun _ _ hv hvs _ hmem => (List.mem_cons.mp hmem).elim (fun h => h ▸ hv) (hvs _)) v

def tags : Val → UInt16
  | .nil tags | .boolean tags _ | .integer tags _ | .string tags _ => tags
  | .array tags _ _ | .queue tags _ _ | .tuple tags _ _ _ => tags

def isNil : Val → Bool
  | .nil _ => true
  | _ => false

end Val

/-- The classes that operators are looked up with. -/
inductive Class where
  | nil
  | bool
  | int
  | string
  | array
  | queue
  | tuple
  /-- `CLASS_TOP`, which is the class of every tagged value. -/
  | top
  | other (c : Nat)
  deriving DecidableEq, Repr

def Class.isBuiltin : Class → Bool
  | .other _ => false
  | _ => true

def classOf (v : Val) : Class :=
  if v.tags ≠ 0 then .top
  else
    match v with
    | .nil _ => .nil
    | .boolean _ _ => .bool
    | .integer _ _ => .int
    | .string _ _ => .string
    | .array _ _ _ => .array
    | .queue _ _ _ => .queue
    | .tuple _ _ _ _ => .tuple

/-- What comes from outside of `src/value.c`. -/
structure Runtime where
  /-- The operator functions `==`, by the truth of their results. -/
  eql : Class → Class → Option (Val → Val → Bool)
  /-- The operator functions `<=>`. -/
  cmp : Class → Class → Option (Val → Val → Int)
  /-- No operator with a body is defined between built-in classes. -/
  eql_builtin : ∀ c d, c.isBuiltin → d.isBuiltin → eql c d = none
  cmp_builtin : ∀ c d, c.isBuiltin → d.isBuiltin → cmp c d = none
  /-- The places of the items that `qsort` puts at the places of its result, by the ids
  since `itemcmp` sees nothing else. -/
  order : List Int → List Nat
  order_perm : ∀ ids, (order ids).Perm (List.range ids.length)
  order_sorted : ∀ ids, ((order ids).filterMap (ids[·]?)).Pairwise (· ≤ ·)
  xxh3 : List UInt8 → BitVec 64

/-- A runtime without operators, and with a stable sort. -/
def plainRuntime : Runtime where
  eql _ _ := none
  cmp _ _ := none
  eql_builtin _ _ _ _ := rfl
  cmp_builtin _ _ _ _ := rfl
  order ids := (List.range ids.length).insertionSort fun i j => ids.getD i 0 ≤ ids.getD j 0
  order_perm ids := List.perm_insertionSort _ _
  order_sorted ids := by
    have hsorted := List.pairwise_insertionSort (fun i j => ids.getD i 0 ≤ ids.getD j 0)
      (List.range ids.length)
    refine List.pairwise_filterMap.mpr (hsorted.imp fun hij x hx y hy => ?_)
    rwa [List.getD_eq_getElem?_getD, List.getD_eq_getElem?_getD, hx, hy] at hij
  xxh3 _ := 0

end Values

section TestEquality

variable (rt : Runtime) {α β : Type}

/-- The loops that compare items until two of them differ. The items of one side are given
by the tests against them. -/
def allEqual : List (β → Bool) → List β → Bool
  | test :: tests, y :: ys => test y && allEqual tests ys
  | _, _ => true

def qsort (items : List (Int × α)) : List (Int × α) :=
  (rt.order (items.map Prod.fst)).filterMap (items[·]?)

/-- The items with a name, which are sorted, before those without one. -/
def namedItems (items : List (Int × α)) : List (Int × α) := items.filter fun item => item.1 ≠ -1

def unnamedItems (items : List (Int × α)) : List (Int × α) := items.filter fun item => item.1 = -1

def recordsEqual (xs : List (Int × (β → Bool))) (ys : List (Int × β)) : Bool :=
  if (namedItems xs).length ≠ (namedItems ys).length ∨
      (unnamedItems xs).length ≠ (unnamedItems ys).length then false
  else
    allEqual ((qsort rt (namedItems xs)).map fun x y => x.1 == y.1 && x.2 y.2)
      (qsort rt (namedItems ys)) &&
      allEqual ((unnamedItems xs).map Prod.snd) ((unnamedItems ys).map Prod.snd)

def arraysEqual (p : Nat) (tests : List (β → Bool)) (q : Nat) (ys : List β) : Bool :=
  if p = q then true
  else if tests.length ≠ ys.length then false
  else allEqual tests ys

def tuplesEqual (p : Nat) (ids : Option (List Int)) (tests : List (β → Bool))
    (q : Nat) (ids' : Option (List Int)) (ys : List β) : Bool :=
  if p = q then true
  else if tests.length ≠ ys.length then false
  else
    match ids, ids' with
    | some ids, some ids' => recordsEqual rt (ids.zip tests) (ids'.zip ys)
    | _, _ => allEqual tests ys

/-- What `value_test_equality` does with two values that it has no case for. The values
that are given to `<=>` are the same one twice. -/
def dispatched (v1 v2 : Val) : Bool :=
  if v1.isNil || v2.isNil then false
  else
    match rt.eql (classOf v1) (classOf v2) with
    | some f => f v1 v2
    | none =>
      match rt.cmp (classOf v1) (classOf v1) with
      | none => false
      | some f => f v1 v1 = 0

mutual

def valueTestEquality (v1 v2 : Val) : Bool :=
  if v1.tags ≠ v2.tags then false
  else
    match v1, v2 with
    | .integer _ z, .integer _ z' => z = z'
    | .string _ bytes, .string _ bytes' => bytes = bytes'
    | .boolean _ b, .boolean _ b' => b = b'
    | .array _ p items, .array _ q items' => arraysEqual p (tests items) q items'
    | .tuple _ p ids items, .tuple _ q ids' items' =>
        tuplesEqual rt p ids (tests items) q ids' items'
    | .queue _ p items, .queue _ q items' => arraysEqual p (tests items) q items'
    | .nil _, .nil _ => true
    | v1, v2 => dispatched rt v1 v2

def tests : List Val → List (Val → Bool)
  | [] => []
  | v :: vs => (fun w => valueTestEquality v w) :: tests vs

end

end TestEquality

section Hash

variable (rt : Runtime)

def hash64 (x : BitVec 64) : BitVec 64 :=
  let x := x ^^^ (x >>> 30)
  let x := x * 0xBF58476D1CE4E5B9
  let x := x ^^^ (x >>> 27)
  let x := x * 0x94D049BB133111EB
  x ^^^ (x >>> 31)

def hashCombine (seed hash : BitVec 64) : BitVec 64 :=
  seed ^^^ (hash + 0x9E3779B97F4A7C15 + (seed <<< 6) + (seed >>> 2))

/-- `ary_hash` and `queue_hash`, from the hashes of the items. -/
def aryHash (hashes : List (BitVec 64)) : BitVec 64 := hashes.foldl hashCombine 7234782527432842341

def nameHash (ids : Option (List Int)) (hash : BitVec 64) : BitVec 64 :=
  match ids with
  | some (id :: _) => if id ≠ -1 then hash * BitVec.ofInt 64 (id + 1) else hash
  | some [] | none => hash

/-- The loop of `tpl_hash`. -/
def tplHash : Option (List Int) → List (BitVec 64) → BitVec 64 → BitVec 64
  | _, [], hash => hash
  | ids, x :: xs, hash => tplHash (ids.map List.tail) xs (nameHash ids (hashCombine hash x))

mutual

def valueHash : Val → BitVec 64
  | .nil tags => tags.toBitVec.setWidth 64 ^^^ 0xDEADDEADDEAD
  | .boolean tags b => tags.toBitVec.setWidth 64 ^^^ if b then 0xABC else 0xDEF
  | .integer tags z => tags.toBitVec.setWidth 64 ^^^ hash64 z
  | .string tags bytes => tags.toBitVec.setWidth 64 ^^^ rt.xxh3 bytes
  | .array tags _ items => tags.toBitVec.setWidth 64 ^^^ aryHash (hashes items)
  | .queue tags _ items => tags.toBitVec.setWidth 64 ^^^ aryHash (hashes items)
  | .tuple tags _ ids items =>
    tags.toBitVec.setWidth 64 ^^^ tplHash ids (hashes items) 1127573292757587281

def hashes : List Val → List (BitVec 64)
  | [] => []
  | v :: vs => valueHash v :: hashes vs

end

end Hash

section Stored

/-- What is at the addresses. -/
structure Store where
  array : Nat → List Val
  queue : Nat → List Val
  tuple : Nat → List Val
  ids : Nat → Option (List Int)

/-- The value is one of the store. All tuples without items have the address `NULL`,
whatever their ids are. -/
inductive Stored (σ : Store) : Val → Prop
  | nil (tags : UInt16) : Stored σ (.nil tags)
  | boolean (tags : UInt16) (b : Bool) : Stored σ (.boolean tags b)
  | integer (tags : UInt16) (z : BitVec 64) : Stored σ (.integer tags z)
  | string (tags : UInt16) (bytes : List UInt8) : Stored σ (.string tags bytes)
  | array {tags : UInt16} {p : Nat} {items : List Val} : σ.array p = items →
      (∀ v ∈ items, Stored σ v) → Stored σ (.array tags p items)
  | queue {tags : UInt16} {p : Nat} {items : List Val} : σ.queue p = items →
      (∀ v ∈ items, Stored σ v) → Stored σ (.queue tags p items)
  | tuple {tags : UInt16} {p : Nat} {ids : Option (List Int)} {items : List Val} :
      σ.tuple p = items →
      (items ≠ [] → σ.ids p = ids) → (∀ l, ids = some l → l.length = items.length) →
      (∀ v ∈ items, Stored σ v) → Stored σ (.tuple tags p ids items)

end Stored

end TyLang.Equality
