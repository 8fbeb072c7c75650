import TyLang.Try.Emit

/-!
How `src/vm.c` executes that code: `PushTry`, `DoThrow`, `RaiseException` and
the instructions around them. The value an expression yields, or the exception
its evaluation raises, is not computed here; each step is given an outcome.
-/
namespace TyLang.Try

/-- An entry of `TRY_STACK`. `endAt` is `none` where the source has `NULL`. -/
structure Entry where
  catchAt : Nat
  finallyAt : Nat
  endAt : Option Nat
  state : TryPhase
  deriving DecidableEq, Repr

/-- `throws` is `THROW_STACK` and `exc` the exception last delivered; the stacks
have their top first and hold the entries of the running function only. -/
structure State (E : Type) where
  ip : Nat
  tries : List Entry
  throws : List E
  exc : Option E
  deriving DecidableEq, Repr

/-- What the evaluation of an expression comes to. -/
inductive Outcome (E : Type) where
  | value (truthy : Bool)
  | raise (exc : E)

/-- `uncaught` is an exception that leaves the function, `aborted` the call of
`abort`, and `stuck` control that has left the code. -/
inductive Result (E : Type) where
  | running (s : State E)
  | returned (tries : List Entry)
  | uncaught (exc : Option E)
  | aborted (exc : Option E)
  | stuck
  deriving DecidableEq, Repr

variable {E : Type}

/-- `PushTry`, with the three addresses that `TRY` reads. -/
def pushTry (catchAt finallyAt endAt : Nat) (s : State E) : State E :=
  { s with tries := ⟨catchAt, finallyAt, some endAt, .TRY_TRY⟩ :: s.tries }

def doThrow (s : State E) : Result E :=
  let exc := s.throws.head?
  match s.tries.dropWhile fun t => decide (t.state = .TRY_FINALLY) with
  | [] => .uncaught exc
  | t :: rest =>
    match t.state with
    | .TRY_TRY => .running ⟨t.catchAt, { t with state := .TRY_CATCH } :: rest, s.throws, exc⟩
    | .TRY_CATCH =>
      .running ⟨t.finallyAt, { t with state := .TRY_THROW, endAt := none } :: rest, s.throws, exc⟩
    | .TRY_THROW => .aborted exc
    | .TRY_FINALLY => .stuck

def raiseException (exc : E) (s : State E) : Result E :=
  doThrow { s with throws := exc :: s.throws }

def jump (target : Target) (s : State E) : Result E :=
  match target with
  | .addr a => .running { s with ip := a }
  | _ => .stuck

/-- `JUMP_IF_NOT` takes the truth of the tested value from the outcome. -/
def exec (s : State E) (o : Outcome E) : Instr E → Result E
  | .EVAL =>
    match o with
    | .raise exc => raiseException exc s
    | .value _ => .running { s with ip := s.ip + 1 }
  | .JUMP target => jump target s
  | .JUMP_IF_NOT target =>
    match o with
    | .value false => jump target s
    | _ => .running { s with ip := s.ip + 1 }
  | .MATCH pattern fail =>
    match o with
    | .raise exc => raiseException exc s
    | .value _ =>
      if s.exc.any pattern then .running { s with ip := s.ip + 1 } else jump fail s
  | .THROW exc => raiseException exc s
  | .TRY catchAt finallyAt endAt =>
    .running { pushTry catchAt finallyAt endAt s with ip := s.ip + 1 }
  | .RETHROW =>
    match s.tries with
    | [] => .stuck
    | t :: rest =>
      .running { s with
        ip := t.finallyAt
        tries := { t with state := .TRY_THROW, endAt := none } :: rest }
  | .FINALLY =>
    match s.tries with
    | [] => .stuck
    | t :: rest =>
      .running { s with
        ip := t.finallyAt
        tries := { t with state := .TRY_FINALLY, endAt := some (s.ip + 1) } :: rest }
  | .END_TRY =>
    match s.tries with
    | [] => .stuck
    | t :: rest =>
      match t.endAt with
      | none => doThrow { s with tries := rest }
      | some a => .running { s with ip := a, tries := rest }
  | .CATCH =>
    match s.tries with
    | [] => .stuck
    | t :: rest =>
      .running { s with
        ip := s.ip + 1
        tries := { t with state := .TRY_FINALLY } :: rest
        throws := s.throws.tail }
  | .RETURN => .returned s.tries

def step (code : List (Line E)) (s : State E) (o : Outcome E) : Result E :=
  match code[s.ip]? with
  | none => .stuck
  | some line => exec s o line.instr

def Result.next (code : List (Line E)) (o : Outcome E) : Result E → Result E
  | .running s => step code s o
  | r => r

def run (code : List (Line E)) (w : Nat → Outcome E) : Nat → Result E
  | 0 => .running ⟨0, [], [], none⟩
  | n + 1 => (run code w n).next code (w n)

end TyLang.Try
