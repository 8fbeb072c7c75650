import Mathlib

/-!
`zfold` of `src/compiler.c`, which replaces arithmetic on integer literals by its
result before names and types are resolved, the arithmetic on literal types in
`TypeOf2Op` of `src/types.c`, and the integer operators of `include/operators.h`
that run in their place without folding.
-/
namespace TyLang.Fold

abbrev Word := BitVec 64

inductive BinOp where
  | plus
  | minus
  | star
  | div
  | percent
  | bitOr
  | bitAnd
  | shl
  | shr
  deriving DecidableEq, Repr

inductive Expr where
  | integer (z : Word)
  | prefixMinus (operand : Expr)
  | complement (operand : Expr)
  | binary (op : BinOp) (left right : Expr)
  deriving DecidableEq, Repr

/-- The operands of a signed division that the processor cannot do. -/
def Traps (a b : Word) : Prop := b = 0 ∨ a = BitVec.intMin 64 ∧ b = -1

instance (a b : Word) : Decidable (Traps a b) := inferInstanceAs (Decidable (_ ∨ _))

/-- The operator of C, and `none` where the process is killed. Arithmetic wraps, and
a shift uses the low six bits of its count. -/
def cOp : BinOp → Word → Word → Option Word
  | .plus, a, b => some (a + b)
  | .minus, a, b => some (a - b)
  | .star, a, b => some (a * b)
  | .div, a, b => if Traps a b then none else some (a.sdiv b)
  | .percent, a, b => if Traps a b then none else some (a.srem b)
  | .bitOr, a, b => some (a ||| b)
  | .bitAnd, a, b => some (a &&& b)
  | .shl, a, b => some (a <<< (b.toNat % 64))
  | .shr, a, b => some (a.sshiftRight (b.toNat % 64))

section Compiler

def zfold : Expr → Option Expr
  | .prefixMinus (.integer z) => some (.integer (-z))
  | .complement (.integer z) => some (.integer (~~~ z))
  | .binary op (.integer a) (.integer b) => (cOp op a b).map .integer
  | e => some e

/-- `visit_expression` with `zfold` after each node. It has no case for unary
operators other than `-`, so that nothing below `~` is visited. -/
def opt : Expr → Option Expr
  | .integer z => zfold (.integer z)
  | .prefixMinus operand => do
      let operand ← opt operand
      zfold (.prefixMinus operand)
  | .complement operand => zfold (.complement operand)
  | .binary op left right => do
      let left ← opt left
      let right ← opt right
      zfold (.binary op left right)

inductive IntType where
  | lit (z : Word)
  | int
  deriving DecidableEq, Repr

/-- Whether `TypeOf2Op` computes the operator on literal types. -/
def onTypes : BinOp → Bool
  | .plus | .minus | .star | .div | .percent => true
  | _ => false

def typeOf2Op (op : BinOp) : IntType → IntType → Option IntType
  | .lit a, .lit b => if onTypes op then (cOp op a b).map .lit else some .int
  | _, _ => some .int

/-- The types that `symbolize_expression` finds. The type of `-x` is that of `x`. -/
def symbolizeExpression : Expr → Option IntType
  | .integer z => some (.lit z)
  | .prefixMinus operand => symbolizeExpression operand
  | .complement operand => do
      let _ ← symbolizeExpression operand
      some .int
  | .binary op left right => do
      let t0 ← symbolizeExpression left
      let t1 ← symbolizeExpression right
      typeOf2Op op t0 t1

inductive Instr where
  | int8 (z : BitVec 8)
  | integer (z : Word)
  | neg
  | complement
  | binary (op : BinOp)
  deriving DecidableEq, Repr

def emitExpr : Expr → List Instr
  | .integer z =>
    if -128 ≤ z.toInt ∧ z.toInt ≤ 127 then [.int8 (z.setWidth 8)] else [.integer z]
  | .prefixMinus operand => emitExpr operand ++ [.neg]
  | .complement operand => emitExpr operand ++ [.complement]
  | .binary op left right => emitExpr left ++ emitExpr right ++ [.binary op]

/-- Compiling an expression with `TYC_ZFOLD`: `none` when the compiler is killed. -/
def compile (e : Expr) : Option (List Instr) := do
  let e ← opt e
  let _ ← symbolizeExpression e
  some (emitExpr e)

end Compiler

section Runtime

inductive Fault where
  /-- `ZeroDividePanic` -/
  | zeroDivide
  | killed
  deriving DecidableEq, Repr

/-- `op_builtin_add` and so on, for two integers. -/
def opBuiltin (op : BinOp) (a b : Word) : Except Fault Word :=
  if (op = .div ∨ op = .percent) ∧ b = 0 then .error .zeroDivide
  else
    match cOp op a b with
    | some z => .ok z
    | none => .error .killed

/-- The tree evaluated with the operators of the run time. -/
def eval : Expr → Except Fault Word
  | .integer z => .ok z
  | .prefixMinus operand => do
      let z ← eval operand
      .ok (-z)
  | .complement operand => do
      let z ← eval operand
      .ok (~~~ z)
  | .binary op left right => do
      let a ← eval left
      let b ← eval right
      opBuiltin op a b

def execInstr : Instr → List Word → Except Fault (List Word)
  | .int8 z, stack => .ok (z.signExtend 64 :: stack)
  | .integer z, stack => .ok (z :: stack)
  | .neg, z :: stack => .ok (-z :: stack)
  | .complement, z :: stack => .ok (~~~ z :: stack)
  | .binary op, b :: a :: stack => do
      let z ← opBuiltin op a b
      .ok (z :: stack)
  | _, _ => .error .killed

def exec : List Instr → List Word → Except Fault (List Word)
  | [], stack => .ok stack
  | i :: code, stack => do
      let stack ← execInstr i stack
      exec code stack

end Runtime

end TyLang.Fold
