import TyLang.Lib.Marking

/-!
Values on the heap and how `_value_mark` of `src/value.c` marks the storage that they
keep. A value is a small record that refers to allocations by number, and the heap has
what is in them.
-/
namespace TyLang.Gc

section Values

/-- Garbage-collected allocations, by their use. -/
inductive Alloc where
  | array (n : Nat)
  | tuple (n : Nat)
  | ids (n : Nat)
  | dict (n : Nat)
  | queue (n : Nat)
  | object (n : Nat)
  | env (n : Nat)
  /-- One or two values of type `GC_VALUE`. -/
  | cell (n : Nat)
  | auto (n : Nat)
  /-- Memory without values that a pointer keeps. -/
  | bytes (n : Nat)
  | generator (n : Nat)
  | string (n : Nat)
  | info (n : Nat)
  | xinfo (n : Nat)
  deriving DecidableEq, Repr

structure Fun where
  /-- The code, if it comes from `eval`. -/
  info : Option Nat
  metaCell : Option Nat
  xinfo : Option Nat
  /-- The environment, unless there are no captured variables and no bound `self`. -/
  env : Option Nat
  deriving DecidableEq, Repr

/-- What `gcptr` points to. -/
inductive Block where
  | cell (n : Nat)
  | auto (n : Nat)
  | bytes (n : Nat)
  deriving DecidableEq, Repr

inductive Val where
  | scalar
  | string (str0 : Option Nat)
  | array (a : Nat)
  | tuple (items : Option Nat)
  | dict (d : Nat)
  | queue (q : Nat)
  | object (o : Nat)
  | function (f : Fun)
  /-- A method with its `this`. The method itself is in a class, or in the second value of
  a cell that `bindMethod` has made. -/
  | method (this : Nat) (bound : Option Nat)
  | builtinMethod (this : Nat)
  | ref (cell : Nat)
  | pointer (gcptr : Option Block)
  | classValue (c : Nat)
  | generator (g : Nat)
  deriving DecidableEq, Repr

/-- The location that is to be assigned to. -/
inductive Location where
  /-- A value, with what is in it. -/
  | value (v : Val)
  /-- A pointer with a tag in its lowest bits. -/
  | tagged
  /-- The number of a class, in the place of a pointer. -/
  | number (n : Nat)
  deriving DecidableEq, Repr

structure Target where
  t : Location
  /-- The allocation that the location is in. -/
  gc : Option Alloc
  deriving DecidableEq, Repr

/-- The state that a generator has while it is suspended; while it runs, that of its
caller. -/
structure CoState where
  stack : List Val
  targets : List Target
  /-- The deferred functions of the `try` statements. -/
  tryStack : List (List Val)
  toDrop : List Val
  gcRoots : List Val
  /-- The functions of the frames. -/
  frames : List Val

structure Generator where
  f : Val
  /-- `TRY_YIELD_FROM` takes the state away. -/
  st : Option CoState

structure Heap where
  array : Nat → List Val
  tuple : Nat → List Val
  ids : Nat → Option Nat
  dict : Nat → Option Val × List (Val × Val)
  queue : Nat → List Val
  object : Nat → List Val × List Val
  env : Nat → List (Option Nat)
  cell : Nat → Val
  /-- The second one, if `bindMethod` has made the cell. -/
  second : Nat → Option Val
  auto : Nat → Val
  statics : Nat → List Val
  generator : Nat → Generator

end Values

section Marking

variable (H : Heap)

abbrev Marks := Alloc → Bool

def mark (marks : Marks) (a : Alloc) : Marks := Marking.setAll marks [a]

def markOpt (marks : Marks) (a : Option Alloc) : Marks :=
  match a with
  | some a => mark marks a
  | none => marks

/-- The functions that mark an allocation and then the values in it, unless it is marked. -/
def markContents (a : Alloc) (contents : List Val) (marks : Marks) : Marks × List Val :=
  if marks a then (marks, []) else (mark marks a, contents)

def valueArrayMark (a : Nat) : Marks → Marks × List Val := markContents (.array a) (H.array a)

def dictMark (d : Nat) : Marks → Marks × List Val :=
  markContents (.dict d) ((H.dict d).1.toList ++ (H.dict d).2.flatMap fun (k, v) => [k, v])

def queueMark (q : Nat) : Marks → Marks × List Val := markContents (.queue q) (H.queue q)

def objectMark (o : Nat) : Marks → Marks × List Val :=
  markContents (.object o) ((H.object o).1 ++ (H.object o).2)

def markTuple (items : Option Nat) (marks : Marks) : Marks × List Val :=
  match items with
  | none => (marks, [])
  | some i =>
    if marks (.tuple i) then (marks, [])
    else (markOpt (mark marks (.tuple i)) ((H.ids i).map .ids), H.tuple i)

/-- The locations that are taken for pointers to values. -/
def Target.followed (target : Target) : Option Val :=
  match target.t with
  | .value v => some v
  | .tagged | .number _ => none

def markGenerator (g : Nat) : Marks → Marks × List Val :=
  markContents (.generator g) ((H.generator g).f ::
    match (H.generator g).st with
    | none => []
    | some st =>
      st.stack ++ st.targets.filterMap Target.followed ++ st.tryStack.flatten ++ st.toDrop ++
        st.gcRoots)

/-- The number of a class is read as a pointer if it has no tag. -/
def Target.isWild (target : Target) : Bool :=
  match target.t with
  | .number n => n % 8 = 0
  | .value _ | .tagged => false

/-- `mark_generator` reads the state even if there is none, and values at wild pointers. -/
def markFails : Val → Bool
  | .generator g =>
    match (H.generator g).st with
    | none => true
    | some st => st.targets.any Target.isWild
  | _ => false

/-- The loop over the environment. -/
def markCaptured : List (Option Nat) → Marks → Marks × List Val
  | [], marks => (marks, [])
  | none :: cells, marks => markCaptured cells marks
  | some c :: cells, marks =>
    let (marks, values) := markCaptured cells (mark marks (.cell c))
    (marks, H.cell c :: values)

def markMeta (c : Option Nat) (marks : Marks) : Marks × List Val :=
  match c with
  | none => (marks, [])
  | some c => markContents (.cell c) [H.cell c] marks

def markEnv (env : Option Nat) (marks : Marks) : Marks × List Val :=
  match env with
  | none => (marks, [])
  | some e => if marks (.env e) then (marks, []) else markCaptured H (H.env e) (mark marks (.env e))

def markFunction (f : Fun) (marks : Marks) : Marks × List Val :=
  let marks := markOpt marks (f.info.map .info)
  let (marks, values) := markMeta H f.metaCell marks
  let marks := markOpt marks (f.xinfo.map .xinfo)
  let (marks, captured) := markEnv H f.env marks
  (marks, values ++ captured)

/-- `mark_method`, behind its test, and the same for the methods of built-in types. -/
def markMethod (this : Nat) : Marks → Marks × List Val := markContents (.cell this) [H.cell this]

def markPointer (gcptr : Option Block) (marks : Marks) : Marks × List Val :=
  match gcptr with
  | none => (marks, [])
  | some (.cell c) => (mark marks (.cell c), [H.cell c])
  | some (.auto n) => (mark marks (.auto n), [H.auto n])
  | some (.bytes n) => (mark marks (.bytes n), [])

def valueMarkXd (v : Val) (marks : Marks) : Marks × List Val :=
  match v with
  | .scalar => (marks, [])
  | .string str0 => (markOpt marks (str0.map .string), [])
  | .array a => valueArrayMark H a marks
  | .tuple items => markTuple H items marks
  | .dict d => dictMark H d marks
  | .queue q => queueMark H q marks
  | .object o => objectMark H o marks
  | .function f => markFunction H f marks
  | .method this _ => markMethod H this marks
  | .builtinMethod this => markMethod H this marks
  | .ref c => (mark marks (.cell c), [H.cell c])
  | .pointer gcptr => markPointer H gcptr marks
  -- `class_mark`
  | .classValue c => (marks, H.statics c)
  | .generator g => markGenerator H g marks

/-- One round of the loop of `_value_mark`. -/
def valueMarkStep (s : Marking.State Val Alloc) : Marking.State Val Alloc ⊕ Option Marks :=
  match s.work with
  | [] => .inr (some s.marks)
  | v :: work =>
    if markFails H v then .inr none
    else .inl ⟨(valueMarkXd H v s.marks).1, (valueMarkXd H v s.marks).2.reverse ++ work⟩

/-- `_value_mark` for at most `fuel` rounds: the marks, or an access to memory that is not
there. -/
def valueMark (fuel : Nat) (v : Val) : Option (Option Marks) :=
  Machine.run (valueMarkStep H) fuel (Marking.start v)

end Marking

end TyLang.Gc
