import TyLang.Types.Typ

/-!
`type_check_x_` of `src/types.c`, which decides whether a type is accepted where
another one is expected, and `TypeCheckXD`, which checks a value against a type.
-/
namespace TyLang.Types
open Typ

/-- What the two checks know about classes and values from elsewhere. -/
structure World where
  /-- `type_member_access_t` on an object of the class. -/
  memberType : Cls → List Typ → String → Option Typ
  /-- The members of the traits and of the superclass. -/
  supers : Cls → List Typ → List (String → Option Typ)
  getMember : Value → String → Option Value
  /-- `CALLABLE`, or a class with a method `__call__`. -/
  callable : Value → Bool

def noMembers : World := ⟨fun _ _ _ => none, fun _ _ => [], fun _ _ => none, fun _ => false⟩

section Shapes

def isAny : Typ → Bool
  | .any => true
  | _ => false

def isBottom : Typ → Bool
  | .bottom => true
  | _ => false

def isLiteral : Typ → Bool
  | .intLit _ | .strLit _ | .boolLit _ => true
  | _ => false

def tagOf : Typ → Option Nat
  | .tagged tag _ => some tag
  | _ => none

def typeArg (args : List Typ) (i : Nat) : Typ := args[i]?.getD .any

def isLitSubtype : Typ → Typ → Bool
  | .intLit z, .intLit z' => decide (z = z')
  | .boolLit b, .boolLit b' => decide (b = b')
  | .strLit s, .strLit s' => decide (s = s')
  | .object c _, .intLit _ => decide (c = .int)
  | .object c _, .strLit _ => decide (c = .string)
  | .object c _, .boolLit _ => decide (c = .bool)
  | _, _ => false

/-- `IsTuple` on the names of a tuple type. -/
def isTuple (names : List (Option String)) : Bool := names.all (·.isNone)

/-- An entry of a tuple type: its index, its name, whether it is required, its type. -/
structure Entry where
  index : Nat
  name : Option String
  required : Bool
  type : Typ

def entriesFrom : Nat → List (Option String) → List Bool → List Typ → List Entry
  | i, name :: names, required :: requireds, type :: types =>
    ⟨i, name, required, type⟩ :: entriesFrom (i + 1) names requireds types
  | _, _, _, _ => []

def entries (names : List (Option String)) (required : List Bool) (types : List Typ) :
    List Entry := entriesFrom 0 names required types

def tupleEntry (es : List Entry) (e : Entry) : Option Entry :=
  match e.name with
  | some name => es.find? fun e' => decide (e'.name = some name)
  | none => es[e.index]?

end Shapes

section TypeCheck

variable (W : World) (check : Typ → Typ → Bool)

/-- `UnionHasSuper`: among the tagged members, the first one of the tag decides. -/
def unionHasSuper (check : Typ → Typ → Bool) (t0 : Typ) : List Typ → Bool
  | [] => false
  | ti :: types =>
    match tagOf t0, tagOf ti with
    | some tag, some tag' => if tag' = tag then check ti t0 else unionHasSuper check t0 types
    | _, _ => check ti t0 || unionHasSuper check t0 types

/-- The case of a union where a type that is not one is expected. -/
def acceptsUnion (t0 : Typ) (types : List Typ) : Bool :=
  match tagOf t0 with
  | some tag => types.all fun ti => decide (tagOf ti = none ∨ tagOf ti = some tag) && check t0 ti
  | none => types.all fun ti => check t0 ti

/-- A tuple type where `es0` is expected, by what `field` finds for an entry. -/
def acceptsEntries (es0 : List Entry) (field : Entry → Option Typ) : Bool :=
  es0.all fun e =>
    match field e with
    | none => !e.required
    | some t2 => check e.type t2

/-- `check_field` and `check_entry` on an object. -/
def acceptsFields (member : String → Option Typ) (es1 : List Entry) : Bool :=
  es1.all fun e =>
    match e.name with
    | none => false
    | some name =>
      match member name with
      | none => !e.required
      | some t2 => check t2 e.type

/-- The cases behind those of literals, unions and intersections. -/
def checkShapes : Typ → Typ → Bool
  | .tagged tag arg, .tagged tag' arg' => decide (tag = tag') && check arg arg'
  | .tagged _ _, _ => false
  | _, .tagged _ _ => false
  | .tuple names required types, .tuple names' required' types' =>
    decide (isTuple names = isTuple names') &&
      acceptsEntries check (entries names required types)
        fun e => (tupleEntry (entries names' required' types') e).map (·.type)
  | .tuple names required types, .object c args =>
    !isTuple names &&
      ((W.supers c args).any fun member =>
          acceptsEntries check (entries names required types) (·.name.bind member)) ||
    !isTuple names &&
      acceptsEntries check (entries names required types) (·.name.bind (W.memberType c args))
  | .object c args, .tuple names required types =>
    !isTuple names && acceptsFields check (W.memberType c args) (entries names required types)
  | .object c args, .object c' args' =>
    decide (c = c') && (args.zipIdx.all fun (t, i) => check t (typeArg args' i))
  | _, _ => false

/-- `type_check_x_` with `check` for the calls of `type_check_x`. -/
def typeCheckStep (t0 t1 : Typ) : Bool :=
  if isAny t0 || sameType t0 t1 || isBottom t1 || isBottom t0 then true
  else if isAny t1 then false
  else
    match t0, t1 with
    | .union _, .union types => types.all fun ti => check t0 ti
    | .inter types, .inter types' => types.all fun ti => types'.any fun tj => check tj ti
    | _, _ =>
      if isLiteral t0 || isLiteral t1 then isLitSubtype t0 t1
      else
        match t0, t1 with
        | _, .inter types => types.any fun ti => check t0 ti
        | _, .union types => acceptsUnion check t0 types
        | .union types, _ => unionHasSuper check t1 types
        | .inter types, _ => types.all fun ti => check ti t1
        | _, _ => checkShapes W check t0 t1

/-- `type_check_x` with as many nested calls left as given: past 64 of them it gives
up and accepts. -/
def typeCheckX : Nat → Typ → Typ → Bool
  | 0, _, _ => true
  | d + 1, t0, t1 => typeCheckStep W (typeCheckX d) t0 t1

def typeCheck (t0 t1 : Typ) : Bool := typeCheckX W 65 t0 t1

end TypeCheck

section Values

variable (W : World)

/-- What stands in a value for an entry of a tuple type. -/
inductive Item where
  | value (v : Value)
  | missing
  | fails

def Item.ofOption : Option Value → Item
  | some v => .value v
  | none => .missing

def itemOf (v : Value) (i : Nat) (name : Option String) : Item :=
  match v, name with
  | .tuple names items, some name => .ofOption ((names.zip items).lookup (some name))
  | .tuple _ items, none => .ofOption items[i]?
  | _, some name => .ofOption (W.getMember v name)
  | _, none => .fails

def isTaggedValue : Value → Bool
  | .tagged _ _ => true
  | _ => false

/-- `class_is_subclass` of the class of the value. -/
def hasClass : Cls → Value → Bool
  | .int, .integer _ => true
  | .string, .string _ => true
  | .bool, .boolean _ => true
  | .array, .array _ => true
  | _, _ => false

/-- The one value of a literal type. -/
def isLiteralValue : Typ → Value → Bool
  | .intLit z, .integer z' => decide (z = z')
  | .strLit s, .string s' => decide (s = s')
  | .boolLit b, .boolean b' => decide (b = b')
  | _, _ => false

def arrayItems : Value → List Value
  | .array items => items
  | _ => []

/-- The value below the tag. -/
def unwrap (tag : Nat) : Value → Option Value
  | .tagged tag' inner => if tag = tag' then some inner else none
  | _ => none

def isTupleValue : Value → Bool
  | .tuple _ _ => true
  | _ => false

/-- What `TypeCheckXD` does before it looks at the type: the pairs that are being
checked already pass, and `nil` is left to `type_check_x`. -/
def guarded (stack : List Typ) (t : Typ) (v : Value) (body : Bool) : Bool :=
  stack.any (almostSameType · t) ||
    match v with
    | .nil => isBottom t || typeCheckX W 65 t .nil
    | _ => body

mutual

/-- `TypeCheckXD`, with the types that are being checked against this same value. -/
def typeCheckXD (stack : List Typ) : Typ → Value → Bool
  | .bottom, v => guarded W stack .bottom v true
  | .any, v => guarded W stack .any v (!isTaggedValue v)
  | .nil, v => guarded W stack .nil v false
  | .object c args, v =>
    guarded W stack (.object c args) v (hasClass c v && argXD args (arrayItems v))
  | .intLit z, v => guarded W stack (.intLit z) v (isLiteralValue (.intLit z) v)
  | .strLit s, v => guarded W stack (.strLit s) v (isLiteralValue (.strLit s) v)
  | .boolLit b, v => guarded W stack (.boolLit b) v (isLiteralValue (.boolLit b) v)
  | .tuple names required types, v =>
    guarded W stack (.tuple names required types) v (entriesXD v 0 names required types)
  | .union types, v => guarded W stack (.union types) v (anyXD (.union types :: stack) types v)
  | .inter types, v => guarded W stack (.inter types) v (allXD (.inter types :: stack) types v)
  | .tagged tag arg, v =>
    guarded W stack (.tagged tag arg) v
      ((unwrap tag v).any fun inner => typeCheckXD [] arg inner)
  | .function id, v => guarded W stack (.function id) v (W.callable v)

def anyXD (stack : List Typ) : List Typ → Value → Bool
  | [], _ => false
  | t :: ts, v => typeCheckXD stack t v || anyXD stack ts v

def allXD (stack : List Typ) : List Typ → Value → Bool
  | [], _ => true
  | t :: ts, v => typeCheckXD stack t v && allXD stack ts v

/-- The items of an array against `TypeArg(t0, 0)`. -/
def argXD : List Typ → List Value → Bool
  | [], items => items.all fun item => !isTaggedValue item
  | t :: _, items => items.all fun item => typeCheckXD [] t item

def entriesXD (v : Value) : Nat → List (Option String) → List Bool → List Typ → Bool
  | i, name :: names, required :: requireds, t :: ts =>
    (match itemOf W v i name with
    | .value item => typeCheckXD [] t item
    | .missing => !required || (isTupleValue v && typeCheckXD [] t .nil)
    | .fails => false) && entriesXD v (i + 1) names requireds ts
  | _, _, _, _ => true

end

def typeCheckValue (t : Typ) (v : Value) : Bool := typeCheckXD W [] t v

end Values

end TyLang.Types
