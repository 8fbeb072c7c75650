import TyLang.Classes.Table
import TyLang.Operators.Dispatch

/-!
Equality and comparison of objects (`src/value.c`). Both fall through to the operators
that a program defines for the classes of the two objects. When there is no `==`,
`value_test_equality` asks `<=>`, but gives it the first object twice.
-/
namespace TyLang.Compare
open Option

open Classes (Table Id classIsSubclass)
open Operators (OperatorSpec checkSlow checkSlowLoop areOrdered opNoImpl)

structure Object where
  p : Nat
  cls : BitVec 32
  tags : UInt16
  deriving DecidableEq, Repr

def classTop : BitVec 32 := -1

def toId (c : BitVec 32) : Id :=
  if c = classTop then .top
  else if c = -2 then .nil
  else if c = BitVec.intMin 32 then .bottom
  else .cls c.toNat

def isSubclass (t : Table) (c d : BitVec 32) : Bool := classIsSubclass t (toId c) (toId d)

/-- The class an object is dispatched with; the type of a tagged object has no case in `ClassOf`. -/
def classOf (v : Object) : BitVec 32 := if v.tags ≠ 0 then classTop else v.cls

inductive Result where
  | integer (z : BitVec 64)
  | other (truthy : Bool)
  deriving DecidableEq, Repr

def Result.truthy : Result → Bool
  | .integer z => z ≠ 0
  | .other b => b

/-- The classes and operators of a program. -/
structure Program where
  table : Table
  eql : List OperatorSpec
  cmp : List OperatorSpec
  /-- The global functions, by number. -/
  fn : Int → Object → Object → Result

/-- `vm_try_2op`, with the definitions of the operator. -/
def vmTry2op (r : Program) (defs : List OperatorSpec) (a b : Object) : Option Result :=
  let i := checkSlow (isSubclass r.table) defs (classOf a) (classOf b)
  if i = -1 then none else some (r.fn i a b)

/-- `check_cmp_result`, which returns an `int`; `none` is a panic. -/
def checkCmpResult : Option Result → Option Int
  | some (.integer z) => some (z.setWidth 32).toInt
  | some (.other _) => none
  | none => none

def valueCompare (r : Program) (v1 v2 : Object) : Option Int :=
  checkCmpResult (vmTry2op r r.cmp v1 v2)

def valueTestEquality (r : Program) (v1 v2 : Object) : Option Bool :=
  if v1.tags ≠ v2.tags then some false
  else if v1.p = v2.p then some true
  else
    match vmTry2op r r.eql v1 v2 with
    | some v => some v.truthy
    | none =>
      match vmTry2op r r.cmp v1 v1 with
      | none => some false
      | some v => (checkCmpResult (some v)).map (· = 0)

/-! ### No operator for tagged objects -/

/-- The definition is one of an operator with a body, for these classes. -/
def Applies (t : Table) (op : OperatorSpec) (c d : BitVec 32) : Prop :=
  op.ref ≠ -1 ∧ isSubclass t c op.t1 ∧ isSubclass t d op.t2

variable {t : Table} {c d : BitVec 32}

lemma checkSlowLoop_ne_of_best : ∀ (defs : List OperatorSpec) (m : OperatorSpec), m.ref ≠ -1 →
    checkSlowLoop (isSubclass t) c d defs (some m) ≠ opNoImpl := by
  intro defs
  induction defs with
  | nil => exact fun m hm => hm
  | cons op defs ih =>
    intro m hm
    rw [checkSlowLoop]
    split
    · exact ih m hm
    rename_i hop
    split
    · exact hop
    · split
      · exact ih op hop
      · exact ih m hm

lemma isSubclass_refl (t : Table) (c : BitVec 32) : isSubclass t c c := by
  unfold isSubclass classIsSubclass
  rw [if_pos (.inl rfl)]

/-- `check_slow` finds nothing exactly if no definition applies. -/
lemma checkSlow_eq_noImpl_iff (defs : List OperatorSpec) :
    checkSlow (isSubclass t) defs c d = opNoImpl ↔ ∀ op ∈ defs, ¬ Applies t op c d := by
  unfold checkSlow
  induction defs with
  | nil => exact ⟨fun _ op hop => absurd hop List.not_mem_nil, fun _ => rfl⟩
  | cons op defs ih =>
    rw [List.forall_mem_cons, checkSlowLoop]
    by_cases href : op.ref = -1
    · rw [if_pos href, ih]
      exact ⟨fun h => ⟨fun ha => ha.1 href, h⟩, fun h => h.2⟩
    rw [if_neg href]
    by_cases hexact : c = op.t1 ∧ d = op.t2
    · rw [if_pos hexact]
      refine ⟨fun h => absurd h href, fun h => absurd ?_ h.1⟩
      rw [hexact.1, hexact.2]
      exact ⟨href, isSubclass_refl t _, isSubclass_refl t _⟩
    · rw [if_neg hexact]
      by_cases hsub : isSubclass t c op.t1 ∧ isSubclass t d op.t2
      · rw [if_pos (by simp [hsub.1, hsub.2])]
        exact ⟨fun h => absurd h (checkSlowLoop_ne_of_best defs op href),
          fun h => absurd ⟨href, hsub⟩ h.1⟩
      · rw [if_neg (by simpa using hsub), ih]
        exact ⟨fun h => ⟨fun ha => hsub ha.2, h⟩, fun h => h.2⟩

lemma toId_eq_top : toId c = .top ↔ c = classTop := by
  unfold toId
  constructor
  · intro h
    by_contra hc
    rw [if_neg hc] at h
    split at h
    · cases h
    · split at h
      · cases h
      · cases h
  · rintro rfl
    rfl

lemma isSubclass_top (t : Table) (c : BitVec 32) : isSubclass t c classTop := by
  unfold isSubclass classIsSubclass
  rw [toId_eq_top.mpr rfl, if_pos (.inr (.inl rfl))]

lemma eq_top_of_isSubclass (h : isSubclass t classTop c) : c = classTop := by
  rw [← toId_eq_top]
  unfold isSubclass classIsSubclass at h
  split at h
  · rename_i hends
    rcases hends with heq | heq | hbot
    · exact heq.symm
    · exact heq
    · cases hbot
  · cases h

lemma Applies.of_top {op : OperatorSpec} (h : Applies t op classTop classTop) (c d : BitVec 32) :
    Applies t op c d := by
  obtain ⟨href, h1, h2⟩ := h
  refine ⟨href, ?_, ?_⟩
  · rw [eq_top_of_isSubclass h1]
    exact isSubclass_top t c
  · rw [eq_top_of_isSubclass h2]
    exact isSubclass_top t d

lemma vmTry2op_eq_none {r : Program} {defs : List OperatorSpec} {a b : Object}
    (htags : a.tags = b.tags)
    (hnone : checkSlow (isSubclass r.table) defs a.cls b.cls = opNoImpl) :
    vmTry2op r defs a b = none := by
  have hdispatch : checkSlow (isSubclass r.table) defs (classOf a) (classOf b) = opNoImpl := by
    unfold classOf
    rw [← htags]
    split
    · rw [checkSlow_eq_noImpl_iff] at hnone ⊢
      exact fun op hop ha => hnone op hop (ha.of_top _ _)
    · exact hnone
  exact if_pos hdispatch

/-- Without an `==`, two objects are equal exactly when `<=>` reports 0 for them, if and only
if it reports 0 for the first one with itself exactly when it does for the two. -/
theorem equality_agrees_iff (r : Program) (a b : Object) (hdistinct : a.p ≠ b.p)
    (htags : a.tags = b.tags)
    (heql : checkSlow (isSubclass r.table) r.eql a.cls b.cls = opNoImpl) :
    (∃ e, valueTestEquality r a b = some e ∧ (e ↔ valueCompare r a b = some 0)) ↔
      (vmTry2op r r.cmp a a ≠ none → valueCompare r a a ≠ none) ∧
        (valueCompare r a a = some 0 ↔ valueCompare r a b = some 0) := by
  have hrun : valueTestEquality r a b =
      match vmTry2op r r.cmp a a with
      | none => some false
      | some v => (checkCmpResult (some v)).map (· = 0) := by
    unfold valueTestEquality
    rw [if_neg (fun h => h htags), if_neg hdistinct, vmTry2op_eq_none htags heql]
  have hself : valueCompare r a a = checkCmpResult (vmTry2op r r.cmp a a) := rfl
  rw [hrun, hself]
  cases hcmp : vmTry2op r r.cmp a a with
  | none =>
    constructor
    · rintro ⟨e, he, hiff⟩
      obtain rfl : e = false := (some.inj he).symm
      refine ⟨fun h => absurd rfl h, ?_, ?_⟩
      · intro h
        cases h
      · intro h
        exact absurd (hiff.mpr h) Bool.false_ne_true
    · rintro ⟨-, hiff⟩
      refine ⟨false, rfl, ?_, ?_⟩
      · intro h
        cases h
      · intro h
        cases hiff.mpr h
  | some v =>
    simp only
    cases checkCmpResult (some v) with
    | none =>
      constructor
      · rintro ⟨e, he, -⟩
        cases he
      · rintro ⟨hpanic, -⟩
        exact absurd rfl (hpanic (some_ne_none v))
    | some z =>
      constructor
      · rintro ⟨e, he, hiff⟩
        obtain rfl : decide (z = 0) = e := some.inj he
        refine ⟨fun _ => some_ne_none z, ?_⟩
        rw [← hiff, some.injEq, decide_eq_true_eq]
      · rintro ⟨-, hiff⟩
        refine ⟨decide (z = 0), rfl, ?_⟩
        rw [← hiff, some.injEq, decide_eq_true_eq]

def byAddress : Program where
  table := Classes.classNew Classes.start
  eql := []
  cmp := [⟨1, 1, 7⟩]
  fn _ a b := .integer (BitVec.ofNat 64 a.p - BitVec.ofNat 64 b.p)

def allSame : Program := { byAddress with fn := fun _ _ _ => .integer 0 }

theorem equality_agrees_allSame :
    ∃ e, valueTestEquality allSame ⟨1, 1, 0⟩ ⟨2, 1, 0⟩ = some e ∧
      (e ↔ valueCompare allSame ⟨1, 1, 0⟩ ⟨2, 1, 0⟩ = some 0) :=
  (equality_agrees_iff allSame ⟨1, 1, 0⟩ ⟨2, 1, 0⟩ (by decide) rfl rfl).mpr
    ⟨by decide, by decide⟩

/-- Two different objects are equal, although `<=>` orders them. -/
theorem equality_disagrees :
    valueTestEquality byAddress ⟨1, 1, 0⟩ ⟨2, 1, 0⟩ = some true ∧
      valueCompare byAddress ⟨1, 1, 0⟩ ⟨2, 1, 0⟩ = some (-1) ∧
      checkSlow (isSubclass byAddress.table) byAddress.cmp 1 1 = 7 ∧
      checkSlow (isSubclass byAddress.table) byAddress.eql 1 1 = opNoImpl := by
  decide +kernel

end TyLang.Compare
