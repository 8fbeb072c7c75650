import Mathlib

/-!
The hash table of `src/dict.c`: open addressing with tombstones and Robin Hood
displacement over items that are also the nodes of a doubly linked list.

A `DictItem *` into the table is the index of the item, `NULL` is `none`, and
`NO_SUCH_SPOT` is a constructor of its own. A `none` result stands for a C call
without a result: a loop that never ends, or an access through a pointer that
does not point to an item with a key. Garbage collection bookkeeping is left out.
-/
namespace TyLang

/-- The key field of an item: `VALUE_ZERO`, `VALUE_TOMBSTONE` or a real key. -/
inductive SlotKey (K : Type) where
  | empty
  | tomb
  | key (k : K)
  deriving DecidableEq, Repr

structure DictItem (K V : Type) where
  k : SlotKey K
  v : V
  h : UInt64
  prev : Option Nat
  next : Option Nat
  deriving Repr

inductive Spot where
  | noSuchSpot
  | slot (i : Nat)
  deriving DecidableEq, Repr

structure Dict (K V : Type) where
  items : List (DictItem K V)
  size : Nat
  count : Nat
  tombs : Nat
  last : Option Nat
  dflt : Option (K → V)

variable {K V : Type}

/-- `OCCUPIED` on the key field alone. -/
def SlotKey.occupied : SlotKey K → Bool
  | .key _ => true
  | _ => false

def SlotKey.isEmpty : SlotKey K → Bool
  | .empty => true
  | _ => false

def SlotKey.isTomb : SlotKey K → Bool
  | .tomb => true
  | _ => false

/-- `v_eq` between the key field of an item and a real key. -/
def SlotKey.eqv [BEq K] : SlotKey K → K → Bool
  | .key k', k => k' == k
  | _, _ => false

variable [Inhabited V]

/-- A zeroed item, as `mA0`, `m0` and `memset` leave it. The payload of such
an item is never read, so `NIL` stands for the zeroed `Value`. -/
def DictItem.zero : DictItem K V := ⟨.empty, default, 0, none, none⟩

def DictItem.tombstone : DictItem K V := ⟨.tomb, default, 0, none, none⟩

namespace Dict

def itemAt (items : List (DictItem K V)) (i : Nat) : DictItem K V :=
  items.getD i DictItem.zero

def INITIAL_SIZE : Nat := 8

def dictNew : Dict K V := ⟨[], 0, 0, 0, none, none⟩

/-- `OCCUPIED(d, i)`. -/
def occupied (d : Dict K V) : Spot → Bool
  | .noSuchSpot => false
  | .slot i => (itemAt d.items i).k.occupied

def initxd (d : Dict K V) : Dict K V :=
  { d with items := List.replicate INITIAL_SIZE DictItem.zero, size := INITIAL_SIZE }

/-- `ENSURE_INIT(d)`. -/
def ensureInit (d : Dict K V) : Dict K V :=
  if d.size = 0 then initxd d else d

def shouldRehash (d : Dict K V) : Bool :=
  4 * (d.count + d.tombs) ≥ 3 * d.size

def write (d : Dict K V) (i : Nat) (f : DictItem K V → DictItem K V) : Dict K V :=
  { d with items := d.items.modify i f }

/-- The probe loop of `find_spot`, which has no bound of its own: `none` after
`fuel` probes without an empty slot or a match. -/
def findSpotLoop [BEq K] (items : List (DictItem K V)) (mask : Nat) (h : UInt64) (k : K) :
    Nat → Nat → Option Nat → Option Nat
  | 0, _, _ => none
  | fuel + 1, i, tomb =>
    let it := itemAt items i
    if it.k.isEmpty then
      some (tomb.getD i)
    else if it.h == h && it.k.eqv k then
      some i
    else
      findSpotLoop items mask h k fuel ((i + 1) &&& mask)
        (if tomb.isNone && it.k.isTomb then some i else tomb)

/-- `find_spot`. After `size` probes every slot has been seen, so a loop that
has not stopped by then never does (`findSpotLoop_eq_none`). -/
def findSpot [BEq K] (size : Nat) (items : List (DictItem K V)) (h : UInt64) (k : K) :
    Option Spot :=
  if size = 0 then some .noSuchSpot
  else
    let mask := size - 1
    (findSpotLoop items mask h k size (h.toNat &&& mask) none).map .slot

def setNext (d : Dict K V) (p x : Option Nat) : Dict K V :=
  match p with
  | some p => write d p fun it => { it with next := x }
  | none => d

def setPrev (d : Dict K V) (p x : Option Nat) : Dict K V :=
  match p with
  | some p => write d p fun it => { it with prev := x }
  | none => d

def linkxd (d : Dict K V) (i : Nat) : Dict K V :=
  let n := (itemAt d.items i).next
  let d := if n ≠ none then setPrev d n (some i) else { d with last := some i }
  setNext d (itemAt d.items i).prev (some i)

/-- One of the four repairs of `swap`: an item that pointed at its new place
pointed at the item it changed places with. -/
def unself (i j : Nat) (p : Option Nat) : Option Nat :=
  if p = some i then some j else p

def swap (d : Dict K V) (i j : Nat) : Dict K V :=
  let a := itemAt d.items i
  let b := itemAt d.items j
  let d := write d i fun _ => { b with next := unself i j b.next, prev := unself i j b.prev }
  let d := write d j fun _ => { a with next := unself j i a.next, prev := unself j i a.prev }
  linkxd (linkxd d i) j

def robinhoodLoop (mask hi : Nat) : Nat → Dict K V → Nat → Nat → Option (Dict K V × Nat)
  | 0, _, _, _ => none
  | fuel + 1, d, lo, i =>
    if lo = hi then some (d, i)
    else
      let loIdeal := (itemAt d.items lo).h.toNat &&& mask
      let hiIdeal := (itemAt d.items hi).h.toNat &&& mask
      let loDist := (lo + d.size - loIdeal) &&& mask
      let hiDist := (hi + d.size - hiIdeal) &&& mask
      if hiDist > loDist then
        robinhoodLoop mask hi fuel (swap d lo hi) ((lo + 1) &&& mask) (if hi = i then lo else i)
      else
        robinhoodLoop mask hi fuel d ((lo + 1) &&& mask) i

/-- `robinhood`; the slot returned is the one whose value the C code points to. -/
def robinhood (d : Dict K V) (i : Nat) : Option (Dict K V × Nat) :=
  let mask := d.size - 1
  robinhoodLoop mask i d.size d ((itemAt d.items i).h.toNat &&& mask) i

/-- The walk of `rehash` and `DictFirst` back along `prev`. -/
def firstLoop (items : List (DictItem K V)) : Nat → Nat → Option Nat
  | 0, _ => none
  | fuel + 1, it =>
    match (itemAt items it).prev with
    | some p => firstLoop items fuel p
    | none => some it

/-- `DictFirst`. The outer `none` is a walk that never ends. -/
def dictFirst (d : Dict K V) : Option (Option Nat) :=
  match d.last with
  | none => some none
  | some it => (firstLoop d.items d.size it).map some

variable [BEq K]

/-- The copy loop of `rehash`: `items` and `last` are the new table, `it` walks
the old one along `next`. -/
def rehashLoop (old : List (DictItem K V)) (size : Nat) :
    Nat → List (DictItem K V) → Option Nat → Option Nat →
      Option (List (DictItem K V) × Option Nat)
  | _, items, last, none => some (items, last)
  | 0, _, _, some _ => none
  | fuel + 1, items, last, some it =>
    match (itemAt old it).k with
    | .key k =>
      match findSpot size items (itemAt old it).h k with
      | some (.slot i) =>
        let items := match last with
          | some l => items.modify l fun x => { x with next := some i }
          | none => items
        let items := items.modify i fun x =>
          { x with k := .key k, v := (itemAt old it).v, h := (itemAt old it).h, prev := last }
        rehashLoop old size fuel items (some i) (itemAt old it).next
      | _ => none
    | _ => none

def rehash (d : Dict K V) (size : Nat) : Option (Dict K V) := do
  let first ← dictFirst d
  let (items, last) ← rehashLoop d.items size d.size (List.replicate size DictItem.zero) none first
  return { d with items, last, tombs := 0, size }

def delete (d : Dict K V) (i : Nat) : Dict K V :=
  let it := itemAt d.items i
  let d := if it.next ≠ none then setPrev d it.next it.prev else { d with last := it.prev }
  let d := setNext d it.prev it.next
  let d := write d i fun _ => DictItem.tombstone
  { d with count := d.count - 1, tombs := d.tombs + 1 }

/-- `put` once the table has room, up to the call of `robinhood`. -/
def insertItem (d : Dict K V) (i : Nat) (h : UInt64) (k : K) (v : V) : Dict K V :=
  let d := if (itemAt d.items i).k.isTomb then { d with tombs := d.tombs - 1 } else d
  let d := setNext d d.last (some i)
  let d := write d i fun _ => ⟨.key k, v, h, d.last, none⟩
  { d with last := some i, count := d.count + 1 }

def put (d : Dict K V) (i : Nat) (h : UInt64) (k : K) (v : V) : Option (Dict K V × Nat) :=
  let d := ensureInit d
  if shouldRehash d then
    match rehash d (d.size * 2) with
    | none => none
    | some d =>
      match findSpot d.size d.items h k with
      | some (.slot i) => robinhood (insertItem d i h k v) i
      | _ => none
  else
    robinhood (insertItem d i h k v) i

end Dict
end TyLang
