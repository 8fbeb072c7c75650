import TyLang.Lib.Forest

/-!
The class table of `class.c`. A class has a super class, walked when it is asked for,
and a table of the traits it implements, filled in eagerly: a trait brings its
super-traits with it, and a trait that is given a super-trait brings it to the classes
that implement it already. The table starts with `Object`; the other built-in
classes are made like those of a program.
-/
namespace TyLang.Classes
open List Forest

structure Class where
  isTrait : Bool
  ti : Nat
  super : Option Nat
  impls : List Bool
  traits : List Nat
  deriving DecidableEq, Repr, Inhabited

structure Table where
  classes : List Class
  /-- The vector `traits`. -/
  traits : List Nat
  deriving DecidableEq, Repr

def Class.has (c : Class) (ti : Nat) : Bool := c.impls.getD ti false

namespace Table

section
variable (t : Table) (c : Nat)

def get : Class := t.classes.getD c default
def isTrait : Bool := (t.get c).isTrait
def ti : Nat := (t.get c).ti
def super : Option Nat := (t.get c).super
def size (t : Table) : Nat := t.classes.length

end

def modify (t : Table) (c : Nat) (f : Class → Class) : Table :=
  { t with classes := t.classes.modify c f }

end Table

def object : Class := ⟨false, 0, none, [], []⟩

def start : Table := ⟨[object], []⟩

/-- `class_new` behind the built-in classes: `init` sets the super class to `Object`. -/
def classNew (t : Table) : Table :=
  { t with classes := t.classes ++ [⟨false, 0, some 0, [], []⟩] }

def traitNew (t : Table) : Table :=
  ⟨t.classes ++ [⟨true, t.traits.length, some 0, [], []⟩], t.traits ++ [t.size]⟩

/-- `ClassImplementsTrait`. -/
def classImplementsTrait (t : Table) (c ti : Nat) : Bool :=
  walk t.super (fun a => (t.get a).has ti) t.size c

/-- `class_implement_trait` on the class `c`; only this class changes. -/
def implementTrait (t : Table) : Nat → Class → Nat → Class
  | 0, c, _ => c
  | fuel + 1, c, u =>
    let padded := c.impls ++ replicate (t.ti u + 1 - c.impls.length) false
    if c.has (t.ti u) then { c with impls := padded }
    else
      let c := { c with impls := padded.set (t.ti u) true, traits := c.traits ++ [u] }
      match t.super u with
      | none => c
      | some v => if t.isTrait v then implementTrait t fuel c v else c

def classImplementTrait (t : Table) (c u : Nat) : Table :=
  t.modify c fun k => implementTrait t t.size k u

def classSetSuper (t : Table) (c d : Nat) : Table :=
  let t₁ := t.modify c fun k => { k with super := some d }
  if t.isTrait c && t.isTrait d then
    (List.range t.size).foldl (fun s i =>
      if classImplementsTrait s i (t.ti c) then classImplementTrait s i d else s) t₁
  else t₁

inductive Id where
  | bottom
  | nil
  | top
  | cls (c : Nat)
  deriving DecidableEq, Repr

def classIsSubclass (t : Table) (sub super : Id) : Bool :=
  if sub = super ∨ super = .top ∨ sub = .bottom then true
  else
    match sub, super with
    | .cls c, .cls d =>
      if !t.isTrait c && t.isTrait d then classImplementsTrait t c (t.ti d)
      else walk t.super (fun a => t.super a == some d) t.size c
    | _, _ => false

/-! ### Reading the table -/

variable {t : Table} {c : Nat} {f : Class → Class}

lemma Table.size_modify : (t.modify c f).size = t.size := length_modify ..

lemma Table.get_modify_of_ne {a : Nat} (h : c ≠ a) : (t.modify c f).get a = t.get a := by
  simp only [Table.get, Table.modify, getD_eq_getElem?_getD, getElem?_modify, if_neg h,
    id, Option.map_eq_map, Option.map_id_fun']

lemma Table.get_modify_self (h : c < t.size) : (t.modify c f).get c = f (t.get c) := by
  have hc : t.classes[c]? = some t.classes[c] := getElem?_eq_getElem h
  simp only [Table.get, Table.modify, getD_eq_getElem?_getD, getElem?_modify, if_pos,
    hc, Option.map_eq_map, Option.map_some, Option.getD_some]

lemma Table.get_of_le {a : Nat} (h : t.size ≤ a) : t.get a = default := by
  simp only [Table.get, getD_eq_getElem?_getD, getElem?_eq_none h, Option.getD_none]

lemma Table.get_append_lt {cs : List Class} {trs : List Nat} {a : Nat} (h : a < t.size) :
    Table.get ⟨t.classes ++ cs, trs⟩ a = t.get a := by
  simp only [Table.get, getD_eq_getElem?_getD, getElem?_append_left h]

lemma Table.get_append_self {k : Class} {trs : List Nat} :
    Table.get ⟨t.classes ++ [k], trs⟩ t.size = k := by
  simp [Table.get, Table.size]

lemma Class.has_pad (k : Class) (n i : Nat) :
    Class.has { k with impls := k.impls ++ replicate n false } i = k.has i := by
  simp only [Class.has, getD_eq_getElem?_getD]
  by_cases hi : i < k.impls.length
  · rw [getElem?_append_left hi]
  · rw [getElem?_append_right (by omega), getElem?_eq_none (l := k.impls) (by omega),
      getElem?_replicate]
    split <;> rfl

lemma Class.has_set (k : Class) {i j : Nat} (hi : i < k.impls.length) :
    Class.has { k with impls := k.impls.set i true } j = (i == j || k.has j) := by
  simp only [Class.has, getD_eq_getElem?_getD, getElem?_set]
  by_cases hij : i = j
  · subst hij
    simp [hi]
  · simp [hij]

end TyLang.Classes
