import Mathlib

/-!
Comparisons that are compiled together with a jump. `a op b` as a condition becomes one
instruction (`PLACEHOLDER_JUMP_IF`, `fail_match_if_not` and their like in `src/compiler.c`): the
one for the operator where the jump is taken if the condition holds, the one for the complement
where it is taken if not. The instruction (`src/vm.c`) does the comparison and reads the field
`boolean` of the result, whatever its type is. `value_truthy` goes by the type.
-/
namespace TyLang.Branch

/-- The types of values. `falsy` stands for the types without a case in `value_truthy`. -/
inductive ValueType where
  | real
  | boolean
  | integer
  | string
  | array
  | tuple
  | blob
  | queue
  | ptr
  /-- Functions, classes, objects, dicts and other types of which every value is true. -/
  | truthy
  /-- `nil`, tagged values, and internal types. -/
  | falsy
  deriving DecidableEq, Repr

structure Value where
  type : ValueType
  /-- The first eight bytes of the `union`. -/
  word : BitVec 64
  /-- The number of bytes or elements, which is in other bytes or in the memory. -/
  size : Nat
  deriving DecidableEq, Repr

def Value.boolean (v : Value) : Bool := v.word.setWidth 8 ≠ 0

def ofBoolean (b : Bool) : Value := ⟨.boolean, if b then 1 else 0, 0⟩

def valueTruthy (v : Value) : Bool :=
  match v.type with
  | .real => v.word ≠ 0 ∧ v.word ≠ BitVec.intMin 64
  | .boolean => v.boolean
  | .integer => v.word ≠ 0
  | .string => v.size ≠ 0
  | .array => v.size ≠ 0
  | .tuple => v.word.setWidth 32 ≠ 0
  | .blob => v.size ≠ 0
  | .queue => v.size ≠ 0
  | .ptr => v.word ≠ 0
  | .truthy => true
  | .falsy => false

@[simp] lemma boolean_ofBoolean (b : Bool) : (ofBoolean b).boolean = b := by
  cases b <;> rfl

@[simp] lemma valueTruthy_ofBoolean (b : Bool) : valueTruthy (ofBoolean b) = b := by
  cases b <;> rfl

inductive Rel where
  | lt
  | leq
  | gt
  | geq
  deriving DecidableEq, Repr

def Rel.complement : Rel → Rel
  | .lt => .geq
  | .leq => .gt
  | .gt => .leq
  | .geq => .lt

def Rel.holds : Rel → Int → Int → Bool
  | .lt, a, b => a < b
  | .leq, a, b => a ≤ b
  | .gt, a, b => b < a
  | .geq, a, b => b ≤ a

@[simp] lemma Rel.complement_complement (r : Rel) : r.complement.complement = r := by
  cases r <;> rfl

lemma Rel.holds_complement (r : Rel) (a b : Int) : r.complement.holds a b = !r.holds a b := by
  cases r <;> simp [complement, holds, ← decide_not]

/-- The operand of a comparison: an integer, or a string, array or object. -/
inductive Operand (β : Type) where
  | integer (z : BitVec 64)
  | other (x : β)

/-- What is called in a comparison, on states. A call returns, or fails. -/
structure Program (β σ ε : Type) where
  /-- The functions for the operators, `none` where there is no definition for the classes. -/
  op : Rel → Operand β → Operand β → Option (σ → Except ε (Value × σ))
  valueCompare : Operand β → Operand β → σ → Except ε (Int × σ)
  valueTestEquality : Operand β → Operand β → σ → Except ε (Bool × σ)

variable {β σ ε : Type} (p : Program β σ ε)

section Instructions

def askRel (r : Rel) (a b : Operand β) (s : σ) : Except ε (Value × σ) :=
  match p.op r a b with
  | some f => f s
  | none =>
    match p.op r.complement a b with
    | some f => do
        let (v, s) ← f s
        .ok (ofBoolean !v.boolean, s)
    | none => do
        let (i, s) ← p.valueCompare a b s
        .ok (ofBoolean (r.holds i 0), s)

/-- `DoLt`, `DoLeq`, `DoGt`, `DoGeq` -/
def doRel (r : Rel) : Operand β → Operand β → σ → Except ε (Value × σ)
  | .integer a, .integer b, s => .ok (ofBoolean (r.holds a.toInt b.toInt), s)
  | a, b, s => askRel p r a b s

def doEq (a b : Operand β) (s : σ) : Except ε (Value × σ) := do
  let (same, s) ← p.valueTestEquality a b s
  .ok (ofBoolean same, s)

def doNeq (a b : Operand β) (s : σ) : Except ε (Value × σ) := do
  let (same, s) ← p.valueTestEquality a b s
  .ok (ofBoolean !same, s)

inductive Op where
  | rel (r : Rel)
  | eq
  | neq
  deriving DecidableEq, Repr

def doOp : Op → Operand β → Operand β → σ → Except ε (Value × σ)
  | .rel r => doRel p r
  | .eq => doEq p
  | .neq => doNeq p

/-- `JLT`, `JLE`, `JGT`, `JGE`, `JEQ`, `JNE`: whether the jump is taken. -/
def jump (op : Op) (a b : Operand β) (s : σ) : Except ε (Bool × σ) := do
  let (v, s) ← doOp p op a b s
  .ok (v.boolean, s)

end Instructions

section Conditions

/-- The instruction for a jump past the code that is run if the condition holds. -/
def complementOp : Op → Op
  | .rel r => .rel r.complement
  | .eq => .neq
  | .neq => .eq

inductive Form where
  /-- The jump of `PLACEHOLDER_JUMP_IF`, to the code for a condition that holds. -/
  | jumpIf
  /-- The jump of `PLACEHOLDER_JUMP_IF_NOT` and `fail_match_if_not`. -/
  | jumpIfNot
  deriving DecidableEq, Repr

def branch (form : Form) (op : Op) (a b : Operand β) (s : σ) : Except ε (Bool × σ) :=
  match form with
  | .jumpIf => jump p op a b s
  | .jumpIfNot => do
      let (taken, s) ← jump p (complementOp op) a b s
      .ok (!taken, s)

def selected (op : Op) (a b : Operand β) (s : σ) : Except ε (Bool × σ) := do
  let (v, s) ← doOp p op a b s
  .ok (valueTruthy v, s)

/-- No two complementary operators are defined for the operands. -/
def OneOfTwo (a b : Operand β) : Prop := ∀ r, p.op r a b = none ∨ p.op r.complement a b = none

def Asks : Operand β → Operand β → Prop
  | .integer _, .integer _ => False
  | _, _ => True

/-- The function for the operator, if there is one, does not return a value of which the field
`boolean` differs from the truthiness. -/
def Plain (op : Op) (a b : Operand β) (s : σ) : Prop :=
  ∀ r f v s', op = .rel r → Asks a b → p.op r a b = some f → f s = .ok (v, s') →
    v.boolean = valueTruthy v

end Conditions

section Agreement

variable {p} {a b : Operand β} {r : Rel} {s : σ}

lemma doRel_asks (h : Asks a b) : doRel p r a b s = askRel p r a b s := by
  match a, b with
  | .integer _, .integer _ => exact False.elim h
  | .integer _, .other _ | .other _, _ => rfl

lemma branch_of_none (form : Form) (hasks : Asks a b) (hnone : p.op r a b = none) :
    branch p form (.rel r) a b s = selected p (.rel r) a b s := by
  cases hop : p.op r.complement a b with
  | some f =>
    cases form <;>
      simp only [branch, jump, selected, doOp, complementOp, doRel_asks hasks, askRel,
        hnone, hop] <;>
      cases f s <;> simp [bind, Except.bind]
  | none =>
    cases form <;>
      simp only [branch, jump, selected, doOp, complementOp, doRel_asks hasks, askRel, hnone, hop,
        Rel.complement_complement] <;>
      cases p.valueCompare a b s <;> simp [bind, Except.bind, Rel.holds_complement]

lemma branch_of_some (form : Form) {f : σ → Except ε (Value × σ)} (hasks : Asks a b)
    (hone : OneOfTwo p a b) (hop : p.op r a b = some f) :
    branch p form (.rel r) a b s = (f s).map fun (v, s) => (v.boolean, s) := by
  have hnone : p.op r.complement a b = none := (hone r).resolve_left (by rw [hop]; nofun)
  cases form with
  | jumpIf =>
    simp only [branch, jump, doOp, doRel_asks hasks, askRel, hop]
    cases f s <;> rfl
  | jumpIfNot =>
    simp only [branch, jump, doOp, complementOp, doRel_asks hasks, askRel, hnone,
      Rel.complement_complement, hop]
    cases f s with
    | error e => rfl
    | ok v => simp [bind, Except.bind, Except.map]

lemma plain_iff {f : σ → Except ε (Value × σ)} (hasks : Asks a b) (hop : p.op r a b = some f) :
    Plain p (.rel r) a b s ↔ ∀ v s', f s = .ok (v, s') → v.boolean = valueTruthy v := by
  constructor
  · exact fun h v s' => h r f v s' rfl hasks hop
  · rintro h r' f' v s' ⟨⟩ - hf'
    rw [hop] at hf'
    cases hf'
    exact h v s'

theorem branch_eq_selected_iff (form : Form) (op : Op) (a b : Operand β) (s : σ)
    (hone : OneOfTwo p a b) :
    branch p form op a b s = selected p op a b s ↔ Plain p op a b s := by
  cases op with
  | eq | neq =>
    refine iff_of_true ?_ nofun
    cases form <;>
      simp only [branch, jump, selected, doOp, doEq, doNeq, complementOp] <;>
      cases p.valueTestEquality a b s <;>
      simp [bind, Except.bind]
  | rel r =>
    by_cases hasks : Asks a b
    · cases hop : p.op r a b with
      | none =>
        refine iff_of_true (branch_of_none form hasks hop) ?_
        rintro r' f v s' ⟨⟩ - hf
        rw [hop] at hf
        cases hf
      | some f =>
        rw [branch_of_some form hasks hone hop, plain_iff hasks hop]
        simp only [selected, doOp, doRel_asks hasks, askRel, hop]
        cases f s with
        | error e => exact iff_of_true rfl nofun
        | ok result =>
          obtain ⟨v, s'⟩ := result
          simp [Except.map, bind, Except.bind]
    · refine iff_of_true ?_ fun r' f v s' _ hasks' => absurd hasks' hasks
      match a, b with
      | .integer x, .integer y =>
        cases form <;> simp [branch, jump, selected, doOp, complementOp, doRel,
          Rel.holds_complement, bind, Except.bind]
      | .integer _, .other _ | .other _, _ => exact absurd trivial hasks

def returning (v : Value) : Program Unit Unit Unit where
  op
    | .lt, _, _ => some fun s => .ok (v, s)
    | _, _, _ => none
  valueCompare _ _ _ := .error ()
  valueTestEquality _ _ s := .ok (false, s)

lemma oneOfTwo_returning (v : Value) (a b : Operand Unit) : OneOfTwo (returning v) a b := by
  intro r
  cases r <;> simp [returning, Rel.complement]

theorem branch_eq_selected_boolean :
    branch (returning (ofBoolean true)) .jumpIfNot (.rel .lt) (.other ()) (.other ()) () =
      selected (returning (ofBoolean true)) (.rel .lt) (.other ()) (.other ()) () :=
  (branch_eq_selected_iff .jumpIfNot (.rel .lt) (.other ()) (.other ()) ()
    (oneOfTwo_returning _ _ _)).mpr (by
      rintro r f v s' ⟨⟩ - ⟨⟩ ⟨⟩
      rfl)

/-- The integer 256 is true, and the last of its bytes is 0. -/
theorem branch_ne_selected :
    selected (returning ⟨.integer, 256, 0⟩) (.rel .lt) (.other ()) (.other ()) () =
        .ok (true, ()) ∧
      branch (returning ⟨.integer, 256, 0⟩) .jumpIf (.rel .lt) (.other ()) (.other ()) () =
        .ok (false, ()) ∧
      branch (returning ⟨.integer, 256, 0⟩) .jumpIfNot (.rel .lt) (.other ()) (.other ()) () =
        .ok (false, ()) :=
  ⟨rfl, rfl, rfl⟩

end Agreement

end TyLang.Branch
