import TyLang.Fold.Zfold

/-!
Assignments to a variable in `src/vm.c`: the instruction for `x op= y`, and the
operator and assignment instructions for `x = x op y`, for variables that hold
integers, booleans or objects.

The two forms decide on the types of their operands in functions of their own. They
disagree where one of them has a branch or a check for zero that the other lacks.
-/
namespace TyLang.Assign

open TyLang.Fold (Word Traps)

inductive Op where
  | add
  | sub
  | mul
  | div
  | mod
  | bitAnd
  | bitOr
  | bitXor
  | shl
  | shr
  deriving DecidableEq, Repr

inductive Value (α : Type) where
  | integer (z : Word)
  | boolean (b : Bool)
  | object (cls : Nat) (o : α)
  deriving DecidableEq, Repr

inductive Class where
  | int
  | bool
  | user (cls : Nat)
  deriving DecidableEq, Repr

variable {α : Type}

def classOf : Value α → Class
  | .integer _ => .int
  | .boolean _ => .bool
  | .object cls _ => .user cls

inductive Fault (α : Type) where
  /-- `ZeroDividePanic` -/
  | zeroDivide
  | noMatchingImplementation (op : Op) (left right : Value α)
  | thrown (v : Value α)
  | killed
  | underflow
  deriving DecidableEq, Repr

/-- The operators that a program can declare: `op` and `op=`. -/
inductive Declared where
  | plain (op : Op)
  | mut (op : Op)
  deriving DecidableEq, Repr

abbrev Operator (α : Type) := Value α → Value α → Except (Value α) (Value α)

/-- What a program declares: its operator functions, and the methods `/=` of its
classes. -/
structure Program (α : Type) where
  opDispatch : Declared → Class → Class → Option (Operator α)
  slashEq : Nat → Option (Operator α)

/-- `exec_fn` -/
def execFn (f : Operator α) (a b : Value α) : Except (Fault α) (Value α) :=
  match f a b with
  | .ok v => .ok v
  | .error v => .error (.thrown v)

section Operators

def ofBoolean (b : Bool) : Word := if b then 1 else 0

def onNumbers (f : Word → Word → Word) : Value α → Value α → Option (Value α)
  | .integer a, .integer b => some (.integer (f a b))
  | .boolean a, .boolean b => some (.integer (f (ofBoolean a) (ofBoolean b)))
  | .integer a, .boolean b => some (.integer (f a (ofBoolean b)))
  | .boolean a, .integer b => some (.integer (f (ofBoolean a) b))
  | _, _ => none

def onIntegers (f : Word → Word → Word) :
    Value α → Value α → Except (Fault α) (Option (Value α))
  | .integer a, .integer b =>
    if b = 0 then .error .zeroDivide
    else if Traps a b then .error .killed
    else .ok (some (.integer (f a b)))
  | _, _ => .ok none

def onCounts (f : Word → Nat → Word) : Value α → Value α → Option (Value α)
  | .integer a, .integer b => some (.integer (f a (b.toNat % 64)))
  | .integer a, .boolean b => some (.integer (f a (ofBoolean b).toNat))
  | _, _ => none

def opBuiltinAdd : Value α → Value α → Option (Value α) := onNumbers (· + ·)
def opBuiltinSub : Value α → Value α → Option (Value α) := onNumbers (· - ·)
def opBuiltinMul : Value α → Value α → Option (Value α) := onNumbers (· * ·)
def opBuiltinDiv : Value α → Value α → Except (Fault α) (Option (Value α)) :=
  onIntegers BitVec.sdiv
def opBuiltinMod : Value α → Value α → Except (Fault α) (Option (Value α)) :=
  onIntegers BitVec.srem
def opBuiltinAnd : Value α → Value α → Option (Value α) := onNumbers (· &&& ·)
def opBuiltinOr : Value α → Value α → Option (Value α) := onNumbers (· ||| ·)
def opBuiltinXor : Value α → Value α → Option (Value α) := onNumbers (· ^^^ ·)
def opBuiltinShl : Value α → Value α → Option (Value α) := onCounts (· <<< ·)
def opBuiltinShr : Value α → Value α → Option (Value α) := onCounts BitVec.sshiftRight

/-- `none` where the function of the operator returns `false`. -/
def opBuiltin : Op → Value α → Value α → Except (Fault α) (Option (Value α))
  | .add, l, r => .ok (opBuiltinAdd l r)
  | .sub, l, r => .ok (opBuiltinSub l r)
  | .mul, l, r => .ok (opBuiltinMul l r)
  | .div, l, r => opBuiltinDiv l r
  | .mod, l, r => opBuiltinMod l r
  | .bitAnd, l, r => .ok (opBuiltinAnd l r)
  | .bitOr, l, r => .ok (opBuiltinOr l r)
  | .bitXor, l, r => .ok (opBuiltinXor l r)
  | .shl, l, r => .ok (opBuiltinShl l r)
  | .shr, l, r => .ok (opBuiltinShr l r)

variable (p : Program α)

def doBinaryOp (op : Op) (l r : Value α) : Except (Fault α) (Value α) := do
  match ← opBuiltin op l r with
  | some v => .ok v
  | none =>
    match p.opDispatch (.plain op) (classOf l) (classOf r) with
    | some f => execFn f l r
    | none => .error (.noMatchingImplementation op l r)

def vmTry2op (op : Op) (l r : Value α) : Except (Fault α) (Option (Value α)) :=
  match p.opDispatch (.mut op) (classOf l) (classOf r) with
  | some f => do
      let val ← execFn f l r
      .ok (some val)
  | none => .ok none

/-- The last branch of the instructions `MUT_ADD` and so on: what the variable holds
afterwards, and what is pushed. A declared `op=` leaves the variable alone. -/
def mutDefault (op : Op) (x y : Value α) : Except (Fault α) (Value α × Value α) := do
  match ← vmTry2op p op x y with
  | some val => .ok (x, val)
  | none => do
      let v ← doBinaryOp p op x y
      .ok (v, v)

def doMutIntegers (op : Op) (f : Word → Word → Word) :
    Value α → Value α → Except (Fault α) (Value α × Value α)
  | .integer a, .integer b => .ok (.integer (f a b), .integer (f a b))
  | x, y => mutDefault p op x y

def doMutBits (op : Op) (f : Word → Word → Word) (g : Bool → Bool → Bool) :
    Value α → Value α → Except (Fault α) (Value α × Value α)
  | .boolean a, .boolean b => .ok (.boolean (g a b), .boolean (g a b))
  | x, y => doMutIntegers p op f x y

def doMutAdd : Value α → Value α → Except (Fault α) (Value α × Value α) :=
  doMutIntegers p .add (· + ·)

def doMutSub : Value α → Value α → Except (Fault α) (Value α × Value α) :=
  doMutIntegers p .sub (· - ·)

def doMutMul : Value α → Value α → Except (Fault α) (Value α × Value α) :=
  doMutIntegers p .mul (· * ·)

def doMutDiv (x y : Value α) : Except (Fault α) (Value α × Value α) :=
  match x with
  | .object cls _ =>
    match p.slashEq cls with
    | some f => do
        let _ ← execFn f x y
        .ok (x, x)
    | none => mutDefault p .div x y
  | _ => mutDefault p .div x y

/-- The branch for two integers divides at once. -/
def doMutMod : Value α → Value α → Except (Fault α) (Value α × Value α)
  | .integer a, .integer b =>
    if Traps a b then .error .killed
    else .ok (.integer (a.srem b), .integer (a.srem b))
  | x, y => mutDefault p .mod x y

def doMutAnd : Value α → Value α → Except (Fault α) (Value α × Value α) :=
  doMutBits p .bitAnd (· &&& ·) (· && ·)

def doMutOr : Value α → Value α → Except (Fault α) (Value α × Value α) :=
  doMutBits p .bitOr (· ||| ·) (· || ·)

def doMutXor : Value α → Value α → Except (Fault α) (Value α × Value α) :=
  doMutBits p .bitXor (· ^^^ ·) (· ^^ ·)

def doMutShl : Value α → Value α → Except (Fault α) (Value α × Value α) :=
  doMutIntegers p .shl (fun a b => a <<< (b.toNat % 64))

def doMutShr : Value α → Value α → Except (Fault α) (Value α × Value α) :=
  doMutIntegers p .shr (fun a b => a.sshiftRight (b.toNat % 64))

def doMut : Op → Value α → Value α → Except (Fault α) (Value α × Value α)
  | .add => doMutAdd p
  | .sub => doMutSub p
  | .mul => doMutMul p
  | .div => doMutDiv p
  | .mod => doMutMod p
  | .bitAnd => doMutAnd p
  | .bitOr => doMutOr p
  | .bitXor => doMutXor p
  | .shl => doMutShl p
  | .shr => doMutShr p

end Operators

section Instructions

inductive Instr (α : Type) where
  | load (n : Nat)
  | literal (v : Value α)
  | target (n : Nat)
  | binary (op : Op)
  | mut (op : Op)
  | assign
  deriving DecidableEq, Repr

inductive Operand (α : Type) where
  | var (n : Nat)
  | literal (v : Value α)
  deriving DecidableEq, Repr

def emitOperand : Operand α → List (Instr α)
  | .var n => [.load n]
  | .literal v => [.literal v]

/-- `x op= y`. The target of `>>=` is emitted before its operand. -/
def emitCompound (op : Op) (x : Nat) (y : Operand α) : List (Instr α) :=
  if op = .shr then .target x :: emitOperand y ++ [.mut op]
  else emitOperand y ++ [.target x, .mut op]

/-- `x = x op y` -/
def emitAssignment (op : Op) (x : Nat) (y : Operand α) : List (Instr α) :=
  .load x :: emitOperand y ++ [.binary op, .target x, .assign]

structure State (α : Type) where
  vars : Nat → Value α
  stack : List (Value α)
  targets : List Nat

variable (p : Program α)

def exec : Instr α → State α → Except (Fault α) (State α)
  | .load n, s => .ok { s with stack := s.vars n :: s.stack }
  | .literal v, s => .ok { s with stack := v :: s.stack }
  | .target n, s => .ok { s with targets := n :: s.targets }
  | .binary op, s =>
    match s.stack with
    | r :: l :: stack => do
        let v ← doBinaryOp p op l r
        .ok { s with stack := v :: stack }
    | _ => .error .underflow
  | .mut op, s =>
    match s.targets, s.stack with
    | x :: targets, y :: stack => do
        let (v, pushed) ← doMut p op (s.vars x) y
        .ok ⟨Function.update s.vars x v, pushed :: stack, targets⟩
    | _, _ => .error .underflow
  | .assign, s =>
    match s.targets, s.stack with
    | x :: targets, v :: stack => .ok ⟨Function.update s.vars x v, v :: stack, targets⟩
    | _, _ => .error .underflow

def run : List (Instr α) → State α → Except (Fault α) (State α)
  | [], s => .ok s
  | i :: code, s => do
      let s ← exec p i s
      run code s

def valueOf (s : State α) : Operand α → Value α
  | .var n => s.vars n
  | .literal v => v

lemma run_emitOperand (y : Operand α) (code : List (Instr α)) (s : State α) :
    run p (emitOperand y ++ code) s =
      run p code { s with stack := valueOf s y :: s.stack } := by
  cases y with
  | var n | literal v => rfl

def State.assigned (s : State α) (x : Nat) (v pushed : Value α) : State α :=
  ⟨Function.update s.vars x v, pushed :: s.stack, s.targets⟩

lemma State.vars_assigned (s : State α) (x : Nat) (v pushed : Value α) :
    (s.assigned x v pushed).vars x = v := by
  change Function.update s.vars x v x = v
  rw [Function.update_self]

lemma run_emitCompound (op : Op) (x : Nat) (y : Operand α) (s : State α) :
    run p (emitCompound op x y) s =
      (doMut p op (s.vars x) (valueOf s y)).map (fun r => s.assigned x r.1 r.2) := by
  unfold emitCompound
  split
  · have hvalue : valueOf { s with targets := x :: s.targets } y = valueOf s y := by
      cases y <;> rfl
    change run p (emitOperand y ++ [.mut op]) { s with targets := x :: s.targets } = _
    rw [run_emitOperand, hvalue]
    simp only [run, exec]
    cases doMut p op (s.vars x) (valueOf s y) <;> rfl
  · rw [run_emitOperand]
    change run p [.mut op] ⟨s.vars, valueOf s y :: s.stack, x :: s.targets⟩ = _
    simp only [run, exec]
    cases doMut p op (s.vars x) (valueOf s y) <;> rfl

lemma run_emitAssignment (op : Op) (x : Nat) (y : Operand α) (s : State α) :
    run p (emitAssignment op x y) s =
      (doBinaryOp p op (s.vars x) (valueOf s y)).map (fun v => s.assigned x v v) := by
  have hvalue : valueOf { s with stack := s.vars x :: s.stack } y = valueOf s y := by
    cases y <;> rfl
  change run p (emitOperand y ++ _) { s with stack := s.vars x :: s.stack } = _
  rw [run_emitOperand, hvalue]
  simp only [run, exec]
  cases doBinaryOp p op (s.vars x) (valueOf s y) <;> rfl

end Instructions

end TyLang.Assign
