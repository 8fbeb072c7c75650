import Mathlib

/-!
The types and values that `type_check_x_` and `TypeCheckXD` of `src/types.c` compare:
unions, intersections, tuples and records, tagged types, literal types and the
classes `Int`, `String`, `Bool` and `Array`.
-/
namespace TyLang.Types
open List

inductive Cls where
  | int
  | string
  | bool
  | array
  deriving DecidableEq, Repr

inductive Typ where
  /-- `TYPE_BOTTOM`, which also stands for `UNKNOWN`. -/
  | bottom
  /-- `TYPE_OBJECT` of `CLASS_TOP`. -/
  | any
  | nil
  /-- `TYPE_OBJECT` of another class, with its arguments. -/
  | object (c : Cls) (args : List Typ)
  | intLit (z : Int)
  | strLit (s : String)
  | boolLit (b : Bool)
  /-- `TYPE_TUPLE` with the parallel vectors `names`, `required` and `types`: a tuple
  if no entry has a name, a record if every entry has one. -/
  | tuple (names : List (Option String)) (required : List Bool) (types : List Typ)
  | union (types : List Typ)
  | inter (types : List Typ)
  /-- `TYPE_OBJECT` of the class of a tag. -/
  | tagged (tag : Nat) (arg : Typ)
  /-- A function type, as members of classes have them. -/
  | function (id : Nat)
  deriving Repr

inductive Value where
  | nil
  | integer (z : Int)
  | string (s : String)
  | boolean (b : Bool)
  | array (items : List Value)
  | tuple (names : List (Option String)) (items : List Value)
  | tagged (tag : Nat) (inner : Value)
  /-- A value of no class that a type names. -/
  | other (id : Nat)
  deriving Repr

namespace Typ

/-- Induction on types with a hypothesis for every member of a list of types. -/
@[elab_as_elim, induction_eliminator]
lemma induct {motive : Typ → Prop} (bottom : motive .bottom) (any : motive .any)
    (nil : motive .nil)
    (object : ∀ c args, (∀ t ∈ args, motive t) → motive (.object c args))
    (intLit : ∀ z, motive (.intLit z)) (strLit : ∀ s, motive (.strLit s))
    (boolLit : ∀ b, motive (.boolLit b))
    (tuple : ∀ names required types, (∀ t ∈ types, motive t) → motive (.tuple names required types))
    (union : ∀ types, (∀ t ∈ types, motive t) → motive (.union types))
    (inter : ∀ types, (∀ t ∈ types, motive t) → motive (.inter types))
    (tagged : ∀ tag arg, motive arg → motive (.tagged tag arg))
    (function : ∀ id, motive (.function id)) (t : Typ) : motive t :=
  @Typ.rec motive (fun ts => ∀ t ∈ ts, motive t) bottom any nil object intLit strLit boolLit tuple
    union inter tagged function (by simp)
    (fun _ _ ht hts _ hmem => (mem_cons.mp hmem).elim (fun h => h ▸ ht) (hts _)) t

def intType : Typ := .object .int []

def stringType : Typ := .object .string []

def boolType : Typ := .object .bool []

mutual

def depth : Typ → Nat
  | .object _ args => depths args
  | .tuple _ _ types => depths types
  | .union types => depths types
  | .inter types => depths types
  | .tagged _ arg => depth arg + 1
  | _ => 0

def depths : List Typ → Nat
  | [] => 0
  | t :: ts => max (depth t + 1) (depths ts)

end

lemma depth_lt_depths {t : Typ} {ts : List Typ} (h : t ∈ ts) : depth t < depths ts := by
  induction ts with
  | nil => cases h
  | cons u us ih =>
    rw [depths]
    rcases mem_cons.mp h with rfl | h
    · omega
    · have := ih h
      omega

mutual

def sameType : Typ → Typ → Bool
  | .bottom, .bottom => true
  | .any, .any => true
  | .nil, .nil => true
  | .object c args, .object c' args' => decide (c = c') && sameTypes args args'
  | .intLit z, .intLit z' => decide (z = z')
  | .strLit s, .strLit s' => decide (s = s')
  | .boolLit b, .boolLit b' => decide (b = b')
  | .tuple names required types, .tuple names' required' types' =>
    decide (names = names') && decide (required = required') && sameTypes types types'
  | .union types, .union types' => sameTypes types types'
  | .inter types, .inter types' => sameTypes types types'
  | .tagged tag arg, .tagged tag' arg' => decide (tag = tag') && sameType arg arg'
  | .function id, .function id' => decide (id = id')
  | _, _ => false

def sameTypes : List Typ → List Typ → Bool
  | [], [] => true
  | t :: ts, t' :: ts' => sameType t t' && sameTypes ts ts'
  | _, _ => false

end

lemma sameType_refl (t : Typ) : sameType t t := by
  have hlist : ∀ ts : List Typ, (∀ t ∈ ts, sameType t t) → sameTypes ts ts := by
    intro ts hts
    induction ts with
    | nil => rfl
    | cons t ts ih =>
      rw [sameTypes, hts t mem_cons_self,
        ih fun s hs => hts s (mem_cons_of_mem t hs), Bool.and_self]
  induction t with
  | object c args ih | tuple names required types ih | union types ih | inter types ih =>
    simp [sameType, hlist _ ih]
  | tagged tag arg ih => simp [sameType, ih]
  | _ => simp [sameType]

lemma eq_of_sameTypes {ts ts' : List Typ} (h : sameTypes ts ts')
    (ih : ∀ t ∈ ts, ∀ t', sameType t t' → t = t') : ts = ts' := by
  induction ts generalizing ts' with
  | nil => cases ts' <;> simp_all [sameTypes]
  | cons t ts ihs =>
    cases ts' with
    | nil => simp [sameTypes] at h
    | cons t' ts' =>
      rw [sameTypes, Bool.and_eq_true] at h
      rw [ih t mem_cons_self t' h.1, ihs h.2 fun u hu => ih u (mem_cons_of_mem t hu)]

lemma eq_of_sameType {t t' : Typ} (h : sameType t t') : t = t' := by
  induction t generalizing t' with
    cases t' <;> simp only [sameType, Bool.and_eq_true, decide_eq_true_iff, Bool.false_eq_true] at h
  | object c args ih => rw [h.1, eq_of_sameTypes h.2 fun t ht _ => ih t ht]
  | tuple names required types ih => rw [h.1.1, h.1.2, eq_of_sameTypes h.2 fun t ht _ => ih t ht]
  | union types ih | inter types ih => rw [eq_of_sameTypes h fun t ht _ => ih t ht]
  | tagged tag arg ih => rw [h.1, ih h.2]
  | intLit | strLit | boolLit | function => rw [h]
  | _ => rfl

mutual

/-- `AlmostSameType`, which does not compare which entries of a tuple type are required. -/
def almostSameType : Typ → Typ → Bool
  | .bottom, .bottom => true
  | .any, .any => true
  | .nil, .nil => true
  | .object c args, .object c' args' => decide (c = c') && almostSameTypes args args'
  | .intLit z, .intLit z' => decide (z = z')
  | .strLit s, .strLit s' => decide (s = s')
  | .boolLit b, .boolLit b' => decide (b = b')
  | .tuple names _ types, .tuple names' _ types' =>
    decide (names = names') && almostSameTypes types types'
  | .union types, .union types' => almostSameTypes types types'
  | .inter types, .inter types' => almostSameTypes types types'
  | .tagged tag arg, .tagged tag' arg' => decide (tag = tag') && almostSameType arg arg'
  | .function id, .function id' => decide (id = id')
  | _, _ => false

def almostSameTypes : List Typ → List Typ → Bool
  | [], [] => true
  | t :: ts, t' :: ts' => almostSameType t t' && almostSameTypes ts ts'
  | _, _ => false

end

lemma depths_of_almostSameTypes {ts ts' : List Typ} (h : almostSameTypes ts ts')
    (ih : ∀ t ∈ ts, ∀ t', almostSameType t t' → depth t = depth t') :
    depths ts = depths ts' := by
  induction ts generalizing ts' with
  | nil => cases ts' <;> simp_all [almostSameTypes]
  | cons t ts ihs =>
    cases ts' with
    | nil => simp [almostSameTypes] at h
    | cons t' ts' =>
      rw [almostSameTypes, Bool.and_eq_true] at h
      rw [depths, depths, ih t mem_cons_self t' h.1,
        ihs h.2 fun u hu => ih u (mem_cons_of_mem t hu)]

/-- A type is not almost the same as one of its parts. -/
lemma depth_of_almostSameType {t t' : Typ} (h : almostSameType t t') :
    depth t = depth t' := by
  induction t generalizing t' with
    cases t' <;> simp only [almostSameType, Bool.and_eq_true, Bool.false_eq_true] at h
  | object c args ih | tuple names required types ih =>
    exact depths_of_almostSameTypes h.2 fun t ht _ => ih t ht
  | union types ih | inter types ih => exact depths_of_almostSameTypes h fun t ht _ => ih t ht
  | tagged tag arg ih => rw [depth, depth, ih h.2]
  | _ => rfl

end Typ

end TyLang.Types
