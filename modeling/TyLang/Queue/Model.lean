import TyLang.Lib.Ring

/-!
The ring buffers of `include/queue.h` and the methods of `Queue` in `src/queue.c`. Sizes
and indices are of the type `usize`, so they are taken modulo 2^64.
-/
namespace TyLang.Queue

section Memory

def add (a b : Nat) : Nat := (a + b) % 2 ^ 64

def sub (a b : Nat) : Nat := (a + 2 ^ 64 - b) % 2 ^ 64

def mul (a b : Nat) : Nat := a * b % 2 ^ 64

/-- The requests that `malloc` grants. No object has more than `PTRDIFF_MAX` bytes. -/
structure Memory where
  grants : Nat → Bool
  bound : ∀ n, grants n → n < 2 ^ 63

inductive Failure where
  /-- The process ends with `Out of memory!`. -/
  | outOfMemory
  /-- An access outside of a block, or to a cell that was never written. -/
  | invalidAccess
  deriving DecidableEq, Repr

def valueSize : Nat := 32

def headerSize : Nat := 8

def arraySize : Nat := 24

variable {V : Type}

/-- `gc_alloc_unchecked`, whose block is used for values. -/
def gcAlloc (mem : Memory) (n : Nat) : Except Failure (List (Option V)) :=
  if mem.grants (add headerSize n) then .ok (List.replicate (n / valueSize) none)
  else .error .outOfMemory

def read (items : List (Option V)) (i : Nat) : Except Failure V :=
  match items[i]? with
  | some (some v) => .ok v
  | _ => .error .invalidAccess

def write (items : List (Option V)) (i : Nat) (v : V) : Except Failure (List (Option V)) :=
  if i < items.length then .ok (items.set i (some v)) else .error .invalidAccess

end Memory

section Buffer

variable {V : Type}

/-- The fields that `Queue` and `SharedQueue` have in common. -/
structure Buffer (V : Type) where
  items : List (Option V)
  head : Nat
  tail : Nat
  cap : Nat
  deriving DecidableEq, Repr

def queueNew : Buffer V := ⟨[], 0, 0, 0⟩

def initialCap : Nat := 8

def queueCount (q : Buffer V) : Nat :=
  if q.cap = 0 then 0 else add (sub q.tail q.head) q.cap % q.cap

/-- The loop of `_queue_grow`. -/
def copyItems (q : Buffer V) : Nat → Nat → List (Option V) → Except Failure (List (Option V))
  | 0, _, newItems => .ok newItems
  | n + 1, i, newItems => do
      let v ← read q.items (add q.head i % q.cap)
      let newItems ← write newItems i v
      copyItems q n (i + 1) newItems

def newCap (q : Buffer V) : Nat := if q.cap = 0 then initialCap else mul q.cap 2

def queueGrow (mem : Memory) (q : Buffer V) : Except Failure (Buffer V) := do
  let newItems ← gcAlloc mem (mul (newCap q) valueSize)
  let newItems ← copyItems q (queueCount q) 0 newItems
  return { items := newItems, head := 0, tail := queueCount q, cap := newCap q }

/-- Whether `_queue_push_back_one` grows the block. -/
def fullAtBack (q : Buffer V) : Bool := q.cap = 0 || add q.tail 1 % q.cap = q.head

/-- Whether `_queue_push_front_one` grows the block. -/
def fullAtFront (q : Buffer V) : Bool := q.cap = 0 || add (sub q.head 1) q.cap % q.cap = q.tail

def storeBack (q : Buffer V) (v : V) : Except Failure (Buffer V) := do
  let items ← write q.items q.tail v
  return { q with items := items, tail := add q.tail 1 % q.cap }

def storeFront (q : Buffer V) (v : V) : Except Failure (Buffer V) := do
  let head := add (sub q.head 1) q.cap % q.cap
  let items ← write q.items head v
  return { q with items := items, head := head }

def growIf (mem : Memory) (full : Bool) (q : Buffer V) : Except Failure (Buffer V) :=
  if full then queueGrow mem q else .ok q

def queuePushBackOne (mem : Memory) (q : Buffer V) (v : V) : Except Failure (Buffer V) := do
  let q ← growIf mem (fullAtBack q) q
  storeBack q v

def queuePushFrontOne (mem : Memory) (q : Buffer V) (v : V) : Except Failure (Buffer V) := do
  let q ← growIf mem (fullAtFront q) q
  storeFront q v

end Buffer

section Methods

variable {V : Type}

inductive Result (V : Type) where
  | self
  | value (v : V)
  | none
  | some (v : V)
  | integer (n : Nat)
  | boolean (b : Bool)
  | array (vs : List V)
  | error (message : String)
  deriving DecidableEq, Repr

/-- What a method returns or raises, and the queue that it leaves. -/
abbrev Outcome (V : Type) := Except Failure (Result V × Buffer V)

/-- `CHECK_ARGC_1` -/
def checkArgc (name : String) (n argc : Nat) : Option String :=
  if argc ≠ n then
    some (name ++ ": expected " ++ (if n = 0 then "no arguments" else if n = 1 then "one argument"
      else toString n ++ " arguments") ++ " but got " ++ toString argc)
  else none

/-- `ASSERT_ARGC_RANGE` with the bounds `1` and `INT_MAX`, which is above any number of
arguments. -/
def checkArgcRange (name : String) (argc : Nat) : Option String :=
  if argc < 1 then
    some (name ++ ": expected between 1 and INT_MAX arguments but got " ++ toString argc)
  else none

/-- A method whose arguments have been checked. -/
def guarded (check : Option String) (q : Buffer V)
    (body : Except Failure (Result V × Buffer V)) : Outcome V :=
  match check with
  | some message => .ok (.error message, q)
  | none => body

def queuePush (mem : Memory) (q : Buffer V) (args : List V) : Outcome V :=
  guarded (checkArgcRange "Queue.push()" args.length) q do
    let q ← args.foldlM (queuePushBackOne mem) q
    return (.self, q)

/-- The arguments are taken from the last one to the first one. -/
def queuePushFront (mem : Memory) (q : Buffer V) (args : List V) : Outcome V :=
  guarded (checkArgcRange "Queue.push-front()" args.length) q do
    let q ← args.reverse.foldlM (queuePushFrontOne mem) q
    return (.self, q)

/-- The methods that look at one end: what they do when there is nothing, where they
look, and what becomes of the queue. -/
def atEnd (name : String) (q : Buffer V) (args : List V) (empty : Result V)
    (i : Nat) (found : V → Result V) (after : Buffer V) : Outcome V :=
  guarded (checkArgc name 0 args.length) q
    (if queueCount q = 0 then .ok (empty, q)
    else do
      let v ← read q.items i
      return (found v, after))

section
variable (q : Buffer V) (args : List V)

def lastIndex : Nat := add (sub q.tail 1) q.cap % q.cap

def dropFirst : Buffer V := { q with head := add q.head 1 % q.cap }

def dropLast : Buffer V := { q with tail := lastIndex q }

def queuePop : Outcome V :=
  atEnd "Queue.pop()" q args (.error "Queue.pop(): empty queue") q.head .value (dropFirst q)

def queuePopBack : Outcome V :=
  atEnd "Queue.pop-back()" q args (.error "Queue.pop-back(): empty queue") (lastIndex q) .value
    (dropLast q)

def queueTryPop : Outcome V :=
  atEnd "Queue.try-pop()" q args .none q.head .some (dropFirst q)

def queueTryPopBack : Outcome V :=
  atEnd "Queue.try-pop-back()" q args .none (lastIndex q) .some (dropLast q)

def queuePeek : Outcome V :=
  atEnd "Queue.peek()" q args (.error "Queue.peek(): empty queue") q.head .value q

def queuePeekBack : Outcome V :=
  atEnd "Queue.peek-back()" q args (.error "Queue.peek-back(): empty queue") (lastIndex q) .value q

def queueTryPeek : Outcome V :=
  atEnd "Queue.try-peek()" q args .none q.head .some q

def queueTryPeekBack : Outcome V :=
  atEnd "Queue.try-peek-back()" q args .none (lastIndex q) .some q

def queueLen : Outcome V :=
  guarded (checkArgc "Queue.len()" 0 args.length) q (.ok (.integer (queueCount q), q))

def queueEmpty : Outcome V :=
  guarded (checkArgc "Queue.empty?()" 0 args.length) q (.ok (.boolean (queueCount q = 0), q))

def queueClear : Outcome V :=
  guarded (checkArgc "Queue.clear()" 0 args.length) q (.ok (.self, { q with head := 0, tail := 0 }))

end

/-- The loop of `queue_to_array`. -/
def collectItems (q : Buffer V) : Nat → Nat → Except Failure (List V)
  | 0, _ => .ok []
  | n + 1, i => do
      let v ← read q.items (add q.head i % q.cap)
      let vs ← collectItems q n (i + 1)
      return v :: vs

/-- `value_array_new_sized` allocates the array and, unless it is empty, its items. -/
def arrayNewSized (mem : Memory) (n : Nat) : Except Failure Unit := do
  let _ ← gcAlloc (V := V) mem arraySize
  if n = 0 then pure ()
  else
    let _ ← gcAlloc (V := V) mem (mul n valueSize)
    pure ()

def queueToArray (mem : Memory) (q : Buffer V) (args : List V) : Outcome V :=
  guarded (checkArgc "Queue.toArray()" 0 args.length) q do
    arrayNewSized (V := V) mem (queueCount q)
    let vs ← collectItems q (queueCount q) 0
    return (.array vs, q)

/-- The method table of `Queue`. -/
inductive Method where
  | clear | empty | len | peek | peekBack | pop | popBack | push | pushFront | toArray
  | tryPeek | tryPeekBack | tryPop | tryPopBack
  deriving DecidableEq, Repr

def call (mem : Memory) : Method → Buffer V → List V → Outcome V
  | .clear => queueClear
  | .empty => queueEmpty
  | .len => queueLen
  | .peek => queuePeek
  | .peekBack => queuePeekBack
  | .pop => queuePop
  | .popBack => queuePopBack
  | .push => queuePush mem
  | .pushFront => queuePushFront mem
  | .toArray => queueToArray mem
  | .tryPeek => queueTryPeek
  | .tryPeekBack => queueTryPeekBack
  | .tryPop => queueTryPop
  | .tryPopBack => queueTryPopBack

def run (mem : Memory) : List (Method × List V) → Buffer V →
    Except Failure (List (Result V) × Buffer V)
  | [], q => .ok ([], q)
  | (m, args) :: calls, q => do
      let (r, q) ← call mem m q args
      let (rs, q) ← run mem calls q
      return (r :: rs, q)

end Methods

section List

variable {V : Type}

/-- The name that a method gives in its errors. -/
def Method.name : Method → String
  | .clear => "Queue.clear()"
  | .empty => "Queue.empty?()"
  | .len => "Queue.len()"
  | .peek => "Queue.peek()"
  | .peekBack => "Queue.peek-back()"
  | .pop => "Queue.pop()"
  | .popBack => "Queue.pop-back()"
  | .push => "Queue.push()"
  | .pushFront => "Queue.push-front()"
  | .toArray => "Queue.toArray()"
  | .tryPeek => "Queue.try-peek()"
  | .tryPeekBack => "Queue.try-peek-back()"
  | .tryPop => "Queue.try-pop()"
  | .tryPopBack => "Queue.try-pop-back()"

/-- Why a call is turned away for the number of its arguments. -/
def Method.refusal (m : Method) (argc : Nat) : Option String :=
  match m with
  | .push | .pushFront => checkArgcRange m.name argc
  | _ => checkArgc m.name 0 argc

def Method.emptyQueue (m : Method) : String := m.name ++ ": empty queue"

/-- The methods on a list, given that they have the arguments they want. -/
def perform (m : Method) (args xs : List V) : Result V × List V :=
  match m with
  | .clear => (.self, [])
  | .empty => (.boolean xs.isEmpty, xs)
  | .len => (.integer xs.length, xs)
  | .peek => ((xs.head?.map .value).getD (.error m.emptyQueue), xs)
  | .peekBack => ((xs.getLast?.map .value).getD (.error m.emptyQueue), xs)
  | .pop => ((xs.head?.map .value).getD (.error m.emptyQueue), xs.tail)
  | .popBack => ((xs.getLast?.map .value).getD (.error m.emptyQueue), xs.dropLast)
  | .push => (.self, xs ++ args)
  | .pushFront => (.self, args ++ xs)
  | .toArray => (.array xs, xs)
  | .tryPeek => ((xs.head?.map .some).getD .none, xs)
  | .tryPeekBack => ((xs.getLast?.map .some).getD .none, xs)
  | .tryPop => ((xs.head?.map .some).getD .none, xs.tail)
  | .tryPopBack => ((xs.getLast?.map .some).getD .none, xs.dropLast)

def callList (m : Method) (args xs : List V) : Result V × List V :=
  match m.refusal args.length with
  | some message => (.error message, xs)
  | none => perform m args xs

def runList : List (Method × List V) → List V → List (Result V) × List V
  | [], xs => ([], xs)
  | (m, args) :: calls, xs =>
    let (r, xs) := callList m args xs
    let (rs, xs) := runList calls xs
    (r :: rs, xs)

end List

end TyLang.Queue
