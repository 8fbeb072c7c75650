import TyLang.Fold.Zfold

/-!
Folding never changes what a program computes, but the compiler itself divides: it
is killed by the divisions that the run time would report, exactly when it gets to
see both operands.
-/
namespace TyLang.Fold
open Option

section Emission

lemma exec_append (code code' : List Instr) (stack : List Word) :
    exec (code ++ code') stack = exec code stack >>= exec code' := by
  induction code generalizing stack with
  | nil => rfl
  | cons i code ih =>
    rw [List.cons_append, exec, exec]
    cases execInstr i stack with
    | error f => rfl
    | ok stack => exact ih stack

lemma signExtend_setWidth {z : Word} (hlo : -128 ≤ z.toInt) (hhi : z.toInt ≤ 127) :
    (z.setWidth 8).signExtend 64 = z := by
  apply BitVec.eq_of_toInt_eq
  rw [BitVec.toInt_signExtend_of_le (by decide), BitVec.toInt_setWidth]
  rw [BitVec.toInt_eq_toNat_cond] at hlo hhi ⊢
  rw [Int.bmod_def]
  split at hlo <;> omega

lemma exec_emitExpr (e : Expr) (stack : List Word) :
    exec (emitExpr e) stack = (eval e).map (· :: stack) := by
  induction e generalizing stack with
  | integer z =>
    by_cases h : -128 ≤ z.toInt ∧ z.toInt ≤ 127
    · rw [emitExpr, if_pos h]
      exact congrArg (fun z => Except.ok (z :: stack)) (signExtend_setWidth h.1 h.2)
    · rw [emitExpr, if_neg h]
      rfl
  | prefixMinus operand ih | complement operand ih =>
    rw [emitExpr, exec_append, ih, eval]
    cases eval operand <;> rfl
  | binary op left right ihl ihr =>
    rw [emitExpr, exec_append, exec_append, ihl, eval]
    cases eval left with
    | error f => rfl
    | ok a =>
      have hright : (Except.ok a).map (· :: stack) >>= exec (emitExpr right) =
          (eval right).map (· :: a :: stack) := ihr (a :: stack)
      rw [hright]
      cases eval right with
      | error f => rfl
      | ok b =>
        change (opBuiltin op a b >>= fun z => .ok (z :: stack)) >>= exec [] =
          (opBuiltin op a b).map (· :: stack)
        generalize opBuiltin op a b = r
        cases r <;> rfl

end Emission

variable {op : BinOp} {e e' : Expr}

section Preservation

lemma opBuiltin_of_cOp {a b z : Word} (h : cOp op a b = some z) : opBuiltin op a b = .ok z := by
  have hnonzero : ¬ ((op = .div ∨ op = .percent) ∧ b = 0) := by
    rintro ⟨rfl | rfl, rfl⟩ <;> simp [cOp, Traps] at h
  rw [opBuiltin, if_neg hnonzero, h]

lemma eval_zfold (h : zfold e = some e') : eval e' = eval e := by
  unfold zfold at h
  split at h
  · cases h
    rfl
  · cases h
    rfl
  · obtain ⟨z, hz, rfl⟩ := map_eq_some_iff.mp h
    exact (opBuiltin_of_cOp hz).symm
  · cases h
    rfl

lemma eval_opt (h : opt e = some e') : eval e' = eval e := by
  induction e generalizing e' with
  | integer z => exact eval_zfold h
  | complement operand _ => exact eval_zfold h
  | prefixMinus operand ih =>
    obtain ⟨operand', hopt, hfold⟩ := bind_eq_some_iff.mp h
    rw [eval_zfold hfold, eval, eval, ih hopt]
  | binary op left right ihl ihr =>
    obtain ⟨left', hleft, h⟩ := bind_eq_some_iff.mp h
    obtain ⟨right', hright, hfold⟩ := bind_eq_some_iff.mp h
    rw [eval_zfold hfold, eval, eval, ihl hleft, ihr hright]

/-- A program that was compiled leaves the value of the tree on the stack, or fails
as the tree does. -/
lemma exec_compile {code : List Instr} (h : compile e = some code) :
    exec code [] = (eval e).map ([·]) := by
  obtain ⟨e', hopt, h⟩ := bind_eq_some_iff.mp h
  obtain ⟨t, -, hcode⟩ := bind_eq_some_iff.mp h
  cases hcode
  rw [exec_emitExpr, eval_opt hopt]

end Preservation

section Killed

/-- The type of an expression, where a division of literal types that traps counts
as the type of all integers. The signs are lost, and `~`, the bit operators and the
shifts give no literal type. -/
def literalType : Expr → IntType
  | .integer z => .lit z
  | .prefixMinus operand => literalType operand
  | .complement _ => .int
  | .binary op left right => (typeOf2Op op (literalType left) (literalType right)).getD .int

def TypesSafe : Expr → Prop
  | .integer _ => True
  | .prefixMinus operand => TypesSafe operand
  | .complement operand => TypesSafe operand
  | .binary op left right =>
    TypesSafe left ∧ TypesSafe right ∧
      (op = .div ∨ op = .percent → ∀ a b, literalType left = .lit a → literalType right = .lit b →
        ¬ Traps a b)

/-- Nothing is below `~` but a literal, so that the expression is folded. -/
def isConstant : Expr → Bool
  | .integer _ => true
  | .prefixMinus operand => isConstant operand
  | .complement (.integer _) => true
  | .complement _ => false
  | .binary _ left right => isConstant left && isConstant right

/-- No division of constants has operands, as the run time computes them, that trap;
below `~`, no division of literal types does. -/
def Safe : Expr → Prop
  | .integer _ => True
  | .prefixMinus operand => Safe operand
  | .complement operand => TypesSafe operand
  | .binary op left right =>
    Safe left ∧ Safe right ∧
      (op = .div ∨ op = .percent → isConstant left → isConstant right →
        ∀ a b, eval left = .ok a → eval right = .ok b → ¬ Traps a b)

lemma cOp_eq_none {a b : Word} : cOp op a b = none ↔ (op = .div ∨ op = .percent) ∧ Traps a b := by
  cases op <;> simp [cOp]

lemma typeOf2Op_isSome {t0 t1 : IntType} :
    (typeOf2Op op t0 t1).isSome ↔
      (op = .div ∨ op = .percent → ∀ a b, t0 = .lit a → t1 = .lit b → ¬ Traps a b) := by
  cases t0 with
  | int => simp [typeOf2Op]
  | lit a =>
    cases t1 with
    | int => simp [typeOf2Op]
    | lit b =>
      have hnone : (typeOf2Op op (.lit a) (.lit b)).isSome ↔ cOp op a b ≠ none := by
        cases op <;> simp [typeOf2Op, onTypes, cOp]
      rw [hnone, Ne, cOp_eq_none]
      simp

lemma symbolizeExpression_eq {t : IntType} (h : symbolizeExpression e = some t) :
    t = literalType e := by
  induction e generalizing t with
  | integer z =>
    cases h
    rfl
  | prefixMinus operand ih => exact ih h
  | complement operand _ =>
    obtain ⟨-, -, ht⟩ := bind_eq_some_iff.mp h
    cases ht
    rfl
  | binary op left right ihl ihr =>
    obtain ⟨t0, hleft, h⟩ := bind_eq_some_iff.mp h
    obtain ⟨t1, hright, h⟩ := bind_eq_some_iff.mp h
    obtain rfl := ihl hleft
    obtain rfl := ihr hright
    rw [literalType, h, getD_some]

lemma symbolizeExpression_isSome : (symbolizeExpression e).isSome ↔ TypesSafe e := by
  induction e with
  | integer z => exact ⟨fun _ => trivial, fun _ => rfl⟩
  | prefixMinus operand ih => exact ih
  | complement operand ih =>
    rw [TypesSafe, ← ih, symbolizeExpression]
    cases symbolizeExpression operand <;> simp
  | binary op left right ihl ihr =>
    rw [TypesSafe, ← ihl, ← ihr, symbolizeExpression]
    cases hl : symbolizeExpression left with
    | none => simp
    | some t0 =>
      cases hr : symbolizeExpression right with
      | none => simp
      | some t1 =>
        obtain rfl := symbolizeExpression_eq hl
        obtain rfl := symbolizeExpression_eq hr
        rw [← typeOf2Op_isSome]
        simp

lemma zfold_binary {left right : Expr} (h : (∀ a, left ≠ .integer a) ∨ ∀ b, right ≠ .integer b) :
    zfold (.binary op left right) = some (.binary op left right) := by
  unfold zfold
  split <;> simp_all

lemma opt_of_constant (h : opt e = some e') (hconst : isConstant e) :
    ∃ z, e' = .integer z := by
  induction e generalizing e' with
  | integer z => exact ⟨z, (some.inj h).symm⟩
  | prefixMinus operand ih =>
    obtain ⟨operand', hopt, hfold⟩ := bind_eq_some_iff.mp h
    obtain ⟨z, rfl⟩ := ih hopt hconst
    exact ⟨-z, (some.inj hfold).symm⟩
  | complement operand _ =>
    cases operand with
    | integer z => exact ⟨~~~ z, (some.inj h).symm⟩
    | _ => cases hconst
  | binary op left right ihl ihr =>
    rw [isConstant, Bool.and_eq_true] at hconst
    obtain ⟨left', hleft, h⟩ := bind_eq_some_iff.mp h
    obtain ⟨right', hright, hfold⟩ := bind_eq_some_iff.mp h
    obtain ⟨a, rfl⟩ := ihl hleft hconst.1
    obtain ⟨b, rfl⟩ := ihr hright hconst.2
    obtain ⟨z, -, rfl⟩ := map_eq_some_iff.mp hfold
    exact ⟨z, rfl⟩

lemma literalType_binary {left right : Expr}
    (h : literalType left = .int ∨ literalType right = .int) :
    literalType (.binary op left right) = .int := by
  rw [literalType]
  rcases h with h | h
  · rw [h]
    rfl
  · rw [h]
    cases literalType left <;> rfl

lemma opt_of_not_constant (h : opt e = some e') (hconst : isConstant e = false) :
    (∀ z, e' ≠ .integer z) ∧ literalType e' = .int := by
  induction e generalizing e' with
  | integer z => cases hconst
  | prefixMinus operand ih =>
    obtain ⟨operand', hopt, hfold⟩ := bind_eq_some_iff.mp h
    obtain ⟨hne, htype⟩ := ih hopt hconst
    have he' : e' = .prefixMinus operand' := by
      cases operand' with
      | integer z => exact absurd rfl (hne z)
      | _ => exact (some.inj hfold).symm
    rw [he']
    exact ⟨nofun, htype⟩
  | complement operand _ =>
    have he' : e' = .complement operand := by
      cases operand with
      | integer z => cases hconst
      | _ => exact (some.inj h).symm
    rw [he']
    exact ⟨nofun, rfl⟩
  | binary op left right ihl ihr =>
    rw [isConstant, Bool.and_eq_false_iff] at hconst
    obtain ⟨left', hleft, h⟩ := bind_eq_some_iff.mp h
    obtain ⟨right', hright, hfold⟩ := bind_eq_some_iff.mp h
    have hparts := hconst.imp (ihl hleft) (ihr hright)
    rw [zfold_binary (hparts.imp And.left And.left)] at hfold
    cases hfold
    exact ⟨nofun, literalType_binary (hparts.imp And.right And.right)⟩

/-- The binary operator case: of constants, the folder computes the operator; of
others, it is left to the types, which are not literal. -/
lemma safe_binary {left right left' right' : Expr} (hleft : opt left = some left')
    (hright : opt right = some right') :
    (∃ e', zfold (.binary op left' right') = some e' ∧ TypesSafe e') ↔
      TypesSafe left' ∧ TypesSafe right' ∧
        (op = .div ∨ op = .percent → isConstant left → isConstant right →
          ∀ a b, eval left = .ok a → eval right = .ok b → ¬ Traps a b) := by
  by_cases hconst : isConstant left ∧ isConstant right
  · obtain ⟨a, rfl⟩ := opt_of_constant hleft hconst.1
    obtain ⟨b, rfl⟩ := opt_of_constant hright hconst.2
    have hfold : (∃ e', zfold (.binary op (.integer a) (.integer b)) = some e' ∧ TypesSafe e') ↔
        cOp op a b ≠ none := by
      rw [zfold, ne_none_iff_exists']
      constructor
      · rintro ⟨e', he', -⟩
        obtain ⟨z, hz, -⟩ := map_eq_some_iff.mp he'
        exact ⟨z, hz⟩
      · rintro ⟨z, hz⟩
        exact ⟨.integer z, by rw [hz, map_some], trivial⟩
    rw [hfold, Ne, cOp_eq_none, ← eval_opt hleft, ← eval_opt hright]
    simp [hconst, eval, TypesSafe]
  · have hnot : isConstant left = false ∨ isConstant right = false := by
      cases hl : isConstant left <;> cases hr : isConstant right <;> simp_all
    have hparts := hnot.imp (opt_of_not_constant hleft) (opt_of_not_constant hright)
    rw [zfold_binary (hparts.imp And.left And.left)]
    constructor
    · rintro ⟨e', he', hsafe⟩
      cases he'
      exact ⟨hsafe.1, hsafe.2.1, fun _ hl hr => absurd ⟨hl, hr⟩ hconst⟩
    rintro ⟨hl, hr, -⟩
    refine ⟨_, rfl, hl, hr, fun _ a b hla hrb => ?_⟩
    rcases hparts with h | h
    · rw [h.2] at hla
      cases hla
    · rw [h.2] at hrb
      cases hrb

lemma safe_prefixMinus {operand : Expr} :
    (∃ e', zfold (.prefixMinus operand) = some e' ∧ TypesSafe e') ↔ TypesSafe operand := by
  cases operand with
  | integer z => exact ⟨fun _ => trivial, fun _ => ⟨_, rfl, trivial⟩⟩
  | _ => simp [zfold, TypesSafe]

lemma exists_opt_iff_safe : (∃ e', opt e = some e' ∧ TypesSafe e') ↔ Safe e := by
  induction e with
  | integer z => exact ⟨fun _ => trivial, fun _ => ⟨_, rfl, trivial⟩⟩
  | prefixMinus operand ih =>
    rw [Safe, ← ih]
    constructor
    · rintro ⟨e', h, hsafe⟩
      obtain ⟨operand', hopt, hfold⟩ := bind_eq_some_iff.mp h
      exact ⟨operand', hopt, safe_prefixMinus.mp ⟨e', hfold, hsafe⟩⟩
    · rintro ⟨operand', hopt, hsafe⟩
      obtain ⟨e', hfold, hsafe⟩ := safe_prefixMinus.mpr hsafe
      exact ⟨e', by simp [opt, hopt, hfold], hsafe⟩
  | complement operand _ =>
    cases operand with
    | integer z => exact ⟨fun _ => trivial, fun _ => ⟨_, rfl, trivial⟩⟩
    | _ => simp [opt, zfold, Safe, TypesSafe]
  | binary op left right ihl ihr =>
    rw [Safe, ← ihl, ← ihr]
    constructor
    · rintro ⟨e', h, hsafe⟩
      obtain ⟨left', hleft, h⟩ := bind_eq_some_iff.mp h
      obtain ⟨right', hright, hfold⟩ := bind_eq_some_iff.mp h
      obtain ⟨hl, hr, hop⟩ := (safe_binary hleft hright).mp ⟨e', hfold, hsafe⟩
      exact ⟨⟨left', hleft, hl⟩, ⟨right', hright, hr⟩, hop⟩
    · rintro ⟨⟨left', hleft, hl⟩, ⟨right', hright, hr⟩, hop⟩
      obtain ⟨e', hfold, hsafe⟩ := (safe_binary hleft hright).mpr ⟨hl, hr, hop⟩
      exact ⟨e', by simp [opt, hleft, hright, hfold], hsafe⟩

lemma compile_isSome : (compile e).isSome ↔ Safe e := by
  rw [← exists_opt_iff_safe, compile]
  cases hopt : opt e with
  | none => simp
  | some e' =>
    have htypes := symbolizeExpression_isSome (e := e')
    cases hsym : symbolizeExpression e' with
    | none => simp_all
    | some t => simp_all

end Killed

/-- Compiling terminates normally and the program does what the tree does with the
operators of the run time, exactly when no division that the compiler does traps. -/
theorem fold_correct_iff (e : Expr) :
    (∃ code, compile e = some code ∧ exec code [] = (eval e).map ([·])) ↔ Safe e := by
  rw [← compile_isSome, isSome_iff_exists]
  constructor
  · rintro ⟨code, hcode, -⟩
    exact ⟨code, hcode⟩
  · rintro ⟨code, hcode⟩
    exact ⟨code, hcode, exec_compile hcode⟩

/-- `1 / 0`, and `(-9223372036854775807 - 1) % -1`. -/
theorem compile_division_killed :
    compile (.binary .div (.integer 1) (.integer 0)) = none ∧
      eval (.binary .div (.integer 1) (.integer 0)) = .error .zeroDivide ∧
      compile (.binary .percent (.binary .minus (.prefixMinus (.integer 9223372036854775807))
        (.integer 1)) (.prefixMinus (.integer 1))) = none := by
  decide

end TyLang.Fold
