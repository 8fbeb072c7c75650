import Mathlib

/-!
The code that `src/compiler.c` emits for loops, jumps out of them, `return` and
`try`. An instruction is emitted together with the try statements that are open
when control reaches it; the VM never reads these. The instructions that only
move values on the stack are left out, and an expression is a single `EVAL`.
-/
namespace TyLang.Try

/-- The states of a try statement. The compiler keeps one in `TryState.ctx`, the
VM one in `struct try`. -/
inductive TryPhase where
  | TRY_TRY
  | TRY_THROW
  | TRY_CATCH
  | TRY_FINALLY
  deriving DecidableEq, Repr

/-- Where a jump goes: to an address, or to one that is not known yet and that
is recorded in the list `breaks` or `continues` of a loop or in
`match_successes`. -/
inductive Target where
  | addr (a : Nat)
  | breaks (loop : Nat)
  | continues (loop : Nat)
  | success
  deriving DecidableEq, Repr

/-- `EVAL` is the code of an expression, `MATCH` that of the pattern of a catch
clause with its jump to the next clause. -/
inductive Instr (E : Type) where
  | EVAL
  | JUMP (target : Target)
  | JUMP_IF_NOT (target : Target)
  | MATCH (pattern : E → Bool) (fail : Target)
  | THROW (exc : E)
  | RETHROW
  | TRY (catchAt finallyAt endAt : Nat)
  | CATCH
  | FINALLY
  | END_TRY
  | RETURN

/-- A try statement that is being compiled; `pos` is the address of its `TRY`. -/
structure TryState where
  pos : Nat
  t : Nat
  ctx : TryPhase
  deriving DecidableEq, Repr

structure LoopState where
  t : Nat

/-- The part of the compiler's `STATE` that these functions read, innermost
statement first. Of the stamps `t` only their order along one nesting counts. -/
structure CompilerState where
  tries : List TryState
  loops : List LoopState
  t : Nat

/-- An instruction and the try statements that are open at it, or `none` where
control never arrives because the statement before it always returns. -/
structure Line (E : Type) where
  instr : Instr E
  inside : Option (List TryState)

def live (returns : Bool) (tries : List TryState) : Option (List TryState) :=
  if returns then none else some tries

section
variable {E : Type} (σ : Target → Target)

def Instr.patch : Instr E → Instr E
  | .JUMP l => .JUMP (σ l)
  | .JUMP_IF_NOT l => .JUMP_IF_NOT (σ l)
  | .MATCH p l => .MATCH p (σ l)
  | i => i

def Line.patch (line : Line E) : Line E :=
  { line with instr := line.instr.patch σ }

/-- `patch_jumps_to`, for the recorded jumps that `σ` gives an address to. -/
def patchJumpsTo (code : List (Line E)) : List (Line E) :=
  code.map (Line.patch σ)

end

/-- `patch_loop_jumps`. -/
def loopJumps (loop start stop : Nat) : Target → Target
  | .breaks l => if l = loop then .addr stop else .breaks l
  | .continues l => if l = loop then .addr start else .continues l
  | l => l

def successJumps (a : Nat) : Target → Target
  | .success => .addr a
  | l => l

inductive Kind where
  | stmt
  | block
  | handlers

/-- Statements, the statement lists of blocks and the lists of catch clauses. -/
inductive Node (E : Type) : Kind → Type where
  | expression : Node E .stmt
  | throw (exc : E) : Node E .stmt
  | block (body : Node E .block) : Node E .stmt
  | ifThen (thenBranch : Node E .stmt) : Node E .stmt
  | ifElse (thenBranch elseBranch : Node E .stmt) : Node E .stmt
  | whileLoop (body : Node E .stmt) : Node E .stmt
  | forLoop (init : Node E .stmt) (next cond : Bool) (body : Node E .stmt) : Node E .stmt
  | breakLoop (depth : Nat) : Node E .stmt
  | continueLoop (depth : Nat) : Node E .stmt
  | returns : Node E .stmt
  | tryCatch (body : Node E .stmt) (handlers : Node E .handlers) : Node E .stmt
  | tryFinally (body : Node E .stmt) (handlers : Node E .handlers) (fin : Node E .stmt) :
      Node E .stmt
  | nil : Node E .block
  | cons (s : Node E .stmt) (rest : Node E .block) : Node E .block
  | noHandler : Node E .handlers
  | handler (pattern : E → Bool) (s : Node E .stmt) (rest : Node E .handlers) : Node E .handlers

variable {E : Type}

/-- `begin_try`, and the later changes of `ctx`. -/
def CompilerState.inTry (st : CompilerState) (pos : Nat) (ctx : TryPhase) : CompilerState :=
  { st with tries := ⟨pos, st.t + 1, ctx⟩ :: st.tries, t := st.t + 1 }

def CompilerState.inLoop (st : CompilerState) : CompilerState :=
  { st with loops := ⟨st.t + 1⟩ :: st.loops, t := st.t + 1 }

/-- `n` times `FINALLY`; each one closes the innermost try statement. -/
def emitFinallies : Nat → List TryState → List (Line E)
  | 0, _ => []
  | n + 1, tries => ⟨.FINALLY, some tries⟩ :: emitFinallies n tries.tail

section
variable (loop : LoopState) (tries : List TryState)

/-- The try statements that a jump out of the loop leaves. -/
def crossed : List TryState :=
  tries.takeWhile fun y => decide (loop.t < y.t)

def around : List TryState :=
  tries.dropWhile fun y => decide (loop.t < y.t)

/-- How many times `FINALLY` is emitted for the jump. -/
def exits : Nat :=
  (crossed loop tries).countP fun y => decide (y.ctx ≠ .TRY_FINALLY)

end

/-- The end of `STATEMENT_BREAK` and `STATEMENT_CONTINUE`. -/
def emitLeave (target : Target) (loop : LoopState) (tries : List TryState) : List (Line E) :=
  emitFinallies (exits loop tries) tries ++
    [⟨.JUMP target, some (tries.drop (exits loop tries))⟩]

/-- `emit_return`. A return statement right in a finally block is an error. -/
def emitReturn (st : CompilerState) : Option (List (Line E)) :=
  if st.tries.head?.map TryState.ctx = some .TRY_FINALLY then none
  else
    some (⟨.EVAL, some st.tries⟩ :: (emitFinallies st.tries.length st.tries ++
      [⟨.RETURN, some []⟩]))

/-- `emit_try` around the code of its parts: each part comes with whether it
always returns, and `fin` is empty where there is no finally block. -/
def emitTry (st : CompilerState) (pos : Nat) (body handlers fin : List (Line E) × Bool) :
    List (Line E) :=
  let inside ctx := (st.inTry pos ctx).tries
  let catchAt := pos + 1 + body.1.length + 1
  let caught := catchAt + handlers.1.length + 1
  let finallyAt := caught + 1
  let endAt := finallyAt + fin.1.length + 1
  ⟨.TRY catchAt finallyAt endAt, some st.tries⟩ ::
    (body.1 ++ ⟨.JUMP (.addr finallyAt), live body.2 (inside .TRY_TRY)⟩ ::
      (patchJumpsTo (successJumps caught) handlers.1 ++ ⟨.RETHROW, some (inside .TRY_CATCH)⟩ ::
        ⟨.CATCH, live handlers.2 (inside .TRY_CATCH)⟩ ::
        (fin.1 ++ [⟨.END_TRY, live fin.2 (inside .TRY_FINALLY)⟩])))

/-- The part of a `for` loop between `init` and the body: the step, which the
first round skips, and the test. `stop` is the address after the loop. -/
def emitForHead (tries : List TryState) (pos : Nat) (next cond : Bool) (stop : Nat) :
    List (Line E) :=
  (if next then [⟨.JUMP (.addr (pos + 2)), some tries⟩, ⟨.EVAL, some tries⟩] else []) ++
    (if cond then [⟨.EVAL, some tries⟩, ⟨.JUMP_IF_NOT (.addr stop), some tries⟩] else [])

def forHeadSize (next cond : Bool) : Nat :=
  (if next then 2 else 0) + (if cond then 2 else 0)

/-- `emit_statement` at the address `pos`, and whether the statement always
returns. A block stops after a statement that does. `none` is a compile error. -/
def emitStatement (st : CompilerState) (pos : Nat) :
    {k : Kind} → Node E k → Option (List (Line E) × Bool)
  | _, .expression => some ([⟨.EVAL, some st.tries⟩], false)
  | _, .throw exc => some ([⟨.EVAL, some st.tries⟩, ⟨.THROW exc, some st.tries⟩], false)
  | _, .block body => emitStatement st pos body
  | _, .nil => some ([], false)
  | _, .cons s rest => do
      let (first, returns) ← emitStatement st pos s
      if returns then some (first, true)
      else
        let (others, returns) ← emitStatement st (pos + first.length) rest
        some (first ++ others, returns)
  | _, .ifThen s => do
      let (code, _) ← emitStatement st (pos + 2) s
      some (⟨.EVAL, some st.tries⟩ ::
        ⟨.JUMP_IF_NOT (.addr (pos + 2 + code.length)), some st.tries⟩ :: code, false)
  | _, .ifElse s₁ s₂ => do
      let (code₁, returns₁) ← emitStatement st (pos + 2) s₁
      let elseAt := pos + 2 + code₁.length + 1
      let (code₂, returns₂) ← emitStatement st elseAt s₂
      some (⟨.EVAL, some st.tries⟩ :: ⟨.JUMP_IF_NOT (.addr elseAt), some st.tries⟩ ::
        (code₁ ++ ⟨.JUMP (.addr (elseAt + code₂.length)), live returns₁ st.tries⟩ :: code₂),
        returns₁ && returns₂)
  | _, .whileLoop s => do
      let (code, returns) ← emitStatement st.inLoop (pos + 2) s
      let stop := pos + 2 + code.length + 1
      some (⟨.EVAL, some st.tries⟩ :: ⟨.JUMP_IF_NOT (.addr stop), some st.tries⟩ ::
        (patchJumpsTo (loopJumps (st.t + 1) pos stop) code ++
          [⟨.JUMP (.addr pos), live returns st.tries⟩]), false)
  | _, .forLoop init next cond s => do
      let (first, _) ← emitStatement st.inLoop pos init
      let headAt := pos + first.length
      let start := if next then headAt + 1 else headAt
      let bodyAt := headAt + forHeadSize next cond
      let (code, returns) ← emitStatement st.inLoop bodyAt s
      let stop := bodyAt + code.length + 1
      some (patchJumpsTo (loopJumps (st.t + 1) start stop)
          (first ++ (emitForHead st.tries headAt next cond stop ++ code)) ++
        [⟨.JUMP (.addr start), live returns st.tries⟩], false)
  | _, .breakLoop depth => do
      let loop ← st.loops[depth - 1]?
      some (emitLeave (.breaks loop.t) loop st.tries, false)
  | _, .continueLoop depth => do
      let loop ← st.loops[depth - 1]?
      some (emitLeave (.continues loop.t) loop st.tries, false)
  | _, .returns => do
      let code ← emitReturn st
      some (code, true)
  | _, .tryCatch s cs => do
      let body ← emitStatement (st.inTry pos .TRY_TRY) (pos + 1) s
      let handlers ← emitStatement (st.inTry pos .TRY_CATCH) (pos + 1 + body.1.length + 1) cs
      some (emitTry st pos body handlers ([], false), body.2 && handlers.2)
  | _, .tryFinally s cs f => do
      let body ← emitStatement (st.inTry pos .TRY_TRY) (pos + 1) s
      let catchAt := pos + 1 + body.1.length + 1
      let handlers ← emitStatement (st.inTry pos .TRY_CATCH) catchAt cs
      let fin ← emitStatement (st.inTry pos .TRY_FINALLY) (catchAt + handlers.1.length + 2) f
      some (emitTry st pos body handlers fin, body.2 && handlers.2 && fin.2)
  | _, .noHandler => some ([], true)
  | _, .handler p s rest => do
      let (code, returns) ← emitStatement st (pos + 1) s
      let next := pos + 1 + code.length + 1
      let (others, othersReturn) ← emitStatement st next rest
      some (⟨.MATCH p (.addr next), some st.tries⟩ ::
        (code ++ ⟨.JUMP .success, live returns st.tries⟩ :: others), returns && othersReturn)

/-- The body of a function. -/
def emitFunction (body : Node E .stmt) : Option (List (Line E)) := do
  let (code, returns) ← emitStatement ⟨[], [], 0⟩ 0 body
  some (if returns then code else code ++ [⟨.RETURN, some []⟩])

end TyLang.Try
