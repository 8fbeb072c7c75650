import TyLang.Dict.Refinement
import TyLang.Lib.Block

/-!
How `xcall` of `src/vm.c` builds the frame of a call. The arguments are on top
of the stack and become the first local slots; what lies above them is whatever
earlier calls left there. The slots that no argument fills are copied from the
table `NILS`, and a copy that runs past its end reads the data behind it.
-/
namespace TyLang.Vm
open Dict Block

/-- The head of a compiled function, as `emit_function` lays it out. An index
that is `-1` in the source is `none`, and so is the class of a plain function. -/
structure Fun (V : Type) where
  paramCount : Nat
  bound : Nat
  restIdx : Option Nat
  kwargsIdx : Option Nat
  cls : Option Nat
  selfOf : V
  paramNames : List String
  starred : Bool
  overload : Bool
  names_length : paramNames.length = paramCount
  param_le : paramCount ≤ bound
  self_lt : cls ≠ none → paramCount < bound
  rest_lt : ∀ i, restIdx = some i → i < paramCount
  kwargs_lt : ∀ i, kwargsIdx = some i → i < paramCount
  rest_ne_kwargs : restIdx = kwargsIdx → restIdx = none

/-- What a splatted value contributes to the keyword arguments: the items of a
dict, with `none` for a key that is no string, or the items of a named tuple,
with `none` for an item without a name. -/
inductive Splat (V : Type) where
  | dict (items : List (Option String × V))
  | tuple (items : List (Option String × V))
  | invalid

/-- The values the VM makes or looks into itself; `NIL` is the default value. -/
structure Values (V : Type) where
  ZERO : V
  NONE : V
  isNone : V → Bool
  ARRAY : List V → V
  DICT : Dict String V → V
  splat : V → Splat V
  shown : V → String

structure Stack (V : Type) where
  cells : Nat → V
  count : Nat
  frames : List Nat

inductive Fault where
  | raised (message : String)
  | diverges
  deriving DecidableEq, Repr

def TY_MAX_CALL_DEPTH : Nat := 2 ^ 10

def NILS_SIZE : Nat := 512

variable {V : Type} [Inhabited V]

/-- `NILS`, with the data behind it. -/
def NILS (behind : Nat → V) : Nat → V := fun j => if j < NILS_SIZE then default else behind j

/-- Copy nils into the `n` cells from `a` on. -/
def fillNils (behind : Nat → V) (cells : Nat → V) (a fz : Nat) : Nat → V :=
  if a < fz then blit cells (NILS behind) a (fz - a) else cells

/-- The loop that lays the keyword arguments over the positional ones. -/
def overlay (f : Fun V) (fp : Nat) :
    List String → Nat → Dict String V → (Nat → V) → Option (Nat → V)
  | [], _, _, cells => some cells
  | name :: names, i, kwargs, cells =>
    if f.restIdx = some i ∨ f.kwargsIdx = some i then
      overlay f fp names (i + 1) kwargs cells
    else
      match dictGetValue kwargs name with
      | none => none
      | some (kwargs, none) => overlay f fp names (i + 1) kwargs cells
      | some (kwargs, some arg) => overlay f fp names (i + 1) kwargs (store cells (fp + i) arg)

section
variable (w : Values V)

/-- Move the arguments from `irest` on into the array of the gather parameter. -/
def gatherRest (behind : Nat → V) (f : Fun V) (fp argc irest : Nat) (cells : Nat → V) : Nat → V :=
  let nExtra := argc - irest
  let extra := (List.range nExtra).map fun j => cells (fp + irest + j)
  let cells := blit cells (fun _ => w.ZERO) (fp + irest) nExtra
  let argc := min argc (irest + 1)
  let cells := fillNils behind cells (fp + argc) (fp + f.bound)
  store cells (fp + irest) (w.ARRAY extra)

def putKwargs (f : Fun V) (fp : Nat) (kwargs : Option (Dict String V))
    (cells : Nat → V) : Nat → V :=
  match f.kwargsIdx with
  | none => cells
  | some ikwargs => store cells (fp + ikwargs) (w.DICT (kwargs.getD dictNew))

/-- The cells of the new frame before `self` and the keyword arguments are put
into it; `fp` is the first of them. -/
def bindPositional (behind : Nat → V) (f : Fun V) (fp argc : Nat)
    (kwargs : Option (Dict String V)) (cells : Nat → V) : Nat → V :=
  if f.restIdx ≠ f.kwargsIdx then
    let cells := match f.restIdx with
      | none => cells
      | some irest => gatherRest w behind f fp argc irest cells
    putKwargs w f fp kwargs cells
  else
    fillNils behind cells (fp + argc) (fp + f.bound)

def selfFor (f : Fun V) (pSelf : Option V) : V :=
  match pSelf with
  | some self => if w.isNone self then f.selfOf else self
  | none => f.selfOf

def putSelf (f : Fun V) (fp : Nat) (pSelf : Option V) (cells : Nat → V) : Nat → V :=
  if f.cls ≠ none then store cells (fp + f.paramCount) (selfFor w f pSelf) else cells

/-- `xcall`. `kwargs` is `none` for `NULL` and for `NIL`. -/
def xcall (behind : Nat → V) (f : Fun V) (pSelf : Option V) (argc : Nat)
    (kwargs : Option (Dict String V)) (st : Stack V) : Except Fault (Stack V) :=
  if st.frames.length ≥ TY_MAX_CALL_DEPTH then
    .error (.raised "maximum call depth exceeded")
  else
    let fp := st.count - argc
    let fz := fp + f.bound
    let cells := bindPositional w behind f fp argc kwargs st.cells
    let cells := putSelf w f fp pSelf cells
    let frames := fp :: st.frames
    match kwargs with
    | none => .ok ⟨cells, fz, frames⟩
    | some kwargs =>
      match overlay f fp f.paramNames 0 kwargs cells with
      | none => .error .diverges
      | some cells => .ok ⟨cells, fz, frames⟩

end

inductive CallResult (V : Type) where
  | frame (st : Stack V)
  | generator (gen st : Stack V)
  | notApplicable (st : Stack V)

/-- `call`, up to the jump into the code. `gen` is the coroutine state that a
starred function gets for its generator, and `v` is that generator. -/
def call (w : Values V) (behind : Nat → V) (f : Fun V) (pSelf : Option V) (argc : Nat)
    (kwargs : Option (Dict String V)) (gen : Stack V) (v : V) (st : Stack V) :
    Except Fault (CallResult V) :=
  let fp := st.count - argc
  if f.starred then
    let cells := blit gen.cells (fun j => st.cells (fp + j)) gen.count argc
    match xcall w behind f pSelf argc kwargs { gen with cells, count := gen.count + argc } with
    | .error e => .error e
    | .ok gen => .ok (.generator gen { st with cells := store st.cells fp v, count := fp + 1 })
  else if f.overload ∧ f.paramCount < argc ∧ f.restIdx = none then
    .ok (.notApplicable { st with cells := store st.cells fp w.NONE, count := fp + 1 })
  else
    (xcall w behind f pSelf argc kwargs st).map .frame

/-- Put the items of a splatted dict or tuple, one after the other. -/
def putAll (kwargs : Dict String V) : List (String × V) → Option (Dict String V)
  | [] => some kwargs
  | (name, v) :: items => (dictPutValue kwargs name v).bind fun kwargs => putAll kwargs items

/-- The items one keyword argument of a call contributes, or the error it raises;
the second error shows the value on top of the stack. -/
def kwargItems (w : Values V) (top : V) (name : String) (v : V) :
    Except Fault (List (String × V)) :=
  if w.isNone v then .ok []
  else if name.toList.head? = some '*' then
    match w.splat v with
    | .dict items =>
      match items.mapM fun (k, x) => k.map (·, x) with
      | some items => .ok items
      | none => .error (.raised s!"splatted Dict argument contains non-string key: {w.shown v}")
    | .tuple items => .ok (items.filterMap fun (k, x) => k.map (·, x))
    | .invalid =>
      .error (.raised s!"attempt to splat invalid value in function call: {w.shown top}")
  else .ok [(name, v)]

def buildKwargsLoop (w : Values V) (top : V) :
    List (String × V) → Dict String V → Except Fault (Dict String V)
  | [], kwargs => .ok kwargs
  | (name, v) :: rest, kwargs =>
    match kwargItems w top name v with
    | .error e => .error e
    | .ok items =>
      match putAll kwargs items with
      | none => .error .diverges
      | some kwargs => buildKwargsLoop w top rest kwargs

/-- `BuildKwargsDict`, for the names in the code and the values on the stack. -/
def buildKwargsDict (w : Values V) (named : List (String × V)) :
    Except Fault (Option (Dict String V)) :=
  match named.getLast? with
  | none => .ok none
  | some (_, top) => (buildKwargsLoop w top named dictNew).map some

end TyLang.Vm
