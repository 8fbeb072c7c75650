import TyLang.Lib.CInt
import TyLang.Lib.Precedence

/-!
The part of `src/parse.c` that parses binary operators: `parse_expr` with `get_infix_prec`, the
functions that `BINARY_OPERATOR` defines, `infix_complement`, `infix_kw_in` and `infix_user_op`,
and the `operator` directive.
-/
namespace TyLang.Parse
open CInt Precedence

section Tokens

inductive BinOp where
  | star
  | div
  | percent
  | plus
  | minus
  | cmp
  | geq
  | leq
  | gt
  | lt
  | shl
  | shr
  | complement
  | notEq
  | dblEq
  | and
  | xor
  | bitAnd
  | bitOr
  | or
  | wtf
  | checkMatch
  deriving DecidableEq, Repr

inductive Token where
  | identifier (name : String)
  | op (o : BinOp)
  | userOp (name : String)
  | kwIn
  | kwNot
  | closeBracket
  /-- The end of the line or of the file. -/
  | newline
  deriving DecidableEq, Repr

/-- The operators of expressions. -/
inductive Op where
  | builtin (o : BinOp)
  | isIn
  | notIn
  | user (name : String)
  deriving DecidableEq, Repr

abbrev Expr := Tree String Op

end Tokens

section Directives

inductive ParseError where
  | depth
  | expectedExpression (found : Option Token)
  | unexpectedToken (found : Option Token)
  | expectedIn (found : Option Token)
  | badAssoc (found : String)
  | outOfFuel
  deriving DecidableEq, Repr

/-- The globals of the parser that are read here, with the table `uops` of user operators: a
negative entry stands for a right-associative operator. -/
structure State where
  noPipe : Bool := false
  noIn : Bool := false
  uops : String → Option Int := fun _ => none

def State.putUop (s : State) (uop : String) (z : Int) : State :=
  { s with uops := fun name => if name = uop then some z else s.uops name }

/-- `parse_operator_directive`, where the precedence is read into an `int`. -/
def parseOperatorDirective (s : State) (uop : String) (integer : Int) (assoc : String) :
    Except ParseError State :=
  let p := toInt integer
  if assoc = "left" then .ok (s.putUop uop p)
  else if assoc = "right" then .ok (s.putUop uop (toInt (-p)))
  else .error (.badAssoc assoc)

end Directives

section Expressions

/-- The last two arguments of `BINARY_OPERATOR`, and what `infix_complement` passes. -/
def binaryOperator : BinOp → Int × Bool
  | .star => (9, false)
  | .div => (9, false)
  | .percent => (9, false)
  | .plus => (8, false)
  | .minus => (8, false)
  | .lt => (7, false)
  | .gt => (7, false)
  | .geq => (7, false)
  | .leq => (7, false)
  | .cmp => (7, false)
  | .notEq => (6, false)
  | .dblEq => (6, false)
  | .and => (5, false)
  | .xor => (5, false)
  | .shl => (7, false)
  | .shr => (7, false)
  | .bitAnd => (5, false)
  | .bitOr => (5, false)
  | .or => (4, false)
  | .wtf => (4, false)
  | .checkMatch => (3, false)
  | .complement => (7, false)

/-- The part of `get_infix_prec` for operators that are a token. -/
def tokenPrec (s : State) : BinOp → Int
  | .div | .star | .percent => 9
  | .minus | .plus => 8
  | .cmp | .geq | .leq | .gt | .lt => 7
  | .shl | .shr => 7
  | .complement => 7
  | .notEq | .dblEq => 6
  | .and | .xor | .bitAnd => 5
  | .bitOr => if s.noPipe then -3 else 5
  | .or | .wtf => 4
  | .checkMatch => 3

/-- `get_infix_prec`, whose result is an `int`. -/
def getInfixPrec (s : State) : List Token → Int
  | .op o :: _ => tokenPrec s o
  | .kwNot :: _ => if s.noIn then -3 else 6
  | .kwIn :: _ => if s.noIn then -3 else 6
  | .userOp name :: _ =>
    match s.uops name with
    | some z => toInt z.natAbs
    | none => 8
  | _ => -3

/-- The precedence that `infix_user_op` passes on. -/
def userPower (s : State) (name : String) : Int :=
  match s.uops name with
  | some z => if z > 0 then z else toInt (z.natAbs - 1)
  | none => 8

/-- `get_infix_parser` and what the function it returns does before it parses the right operand:
the operator, the precedence for that operand, and the tokens after the operator. -/
def infixParser (s : State) : List Token → Except ParseError (Op × Int × List Token)
  | .op o :: ts =>
    .ok (.builtin o, (binaryOperator o).1 - (if (binaryOperator o).2 then 1 else 0), ts)
  | .userOp name :: ts => .ok (.user name, userPower s name, ts)
  | .kwIn :: ts => .ok (.isIn, 6, ts)
  | .kwNot :: .kwIn :: ts => .ok (.notIn, 6, ts)
  | .kwNot :: ts => .error (.expectedIn ts.head?)
  | ts => .error (.unexpectedToken ts.head?)

/-- An operator before `]`, as in a slice by an operator. -/
def beforeBracket : List Token → Bool
  | _ :: .closeBracket :: _ => true
  | .kwNot :: .kwIn :: .closeBracket :: _ => true
  | _ => false

mutual

/-- `parse_expr`, with the depth of the calls around it. -/
def parseExpr (s : State) : Nat → Nat → Int → List Token → Except ParseError (Expr × List Token)
  | 0, _, _, _ => .error .outOfFuel
  | fuel + 1, depth, prec, ts =>
    if depth + 1 > 256 then .error .depth
    else
      match ts with
      | .identifier name :: ts => parseInfix s fuel (depth + 1) prec (.leaf name) ts
      | ts => .error (.expectedExpression ts.head?)

/-- The loop of `parse_expr`. -/
def parseInfix (s : State) :
    Nat → Nat → Int → Expr → List Token → Except ParseError (Expr × List Token)
  | 0, _, _, _, _ => .error .outOfFuel
  | fuel + 1, depth, prec, e, ts =>
    if ¬ prec < getInfixPrec s ts then .ok (e, ts)
    else if beforeBracket ts then .ok (e, ts)
    else
      match infixParser s ts with
      | .error err => .error err
      | .ok (op, power, ts) =>
        match parseExpr s fuel depth power ts with
        | .error err => .error err
        | .ok (right, ts) => parseInfix s fuel depth prec (.node op e right) ts

end

/-- `parse_expr` with fuel for all tokens. -/
def parse (s : State) (depth : Nat) (prec : Int) (ts : List Token) :
    Except ParseError (Expr × List Token) := parseExpr s (ts.length + 1) depth prec ts

end Expressions

end TyLang.Parse
