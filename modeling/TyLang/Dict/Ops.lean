import TyLang.Dict.Basic

/-!
The operations of `src/dict.c` that read or change a dict. User callbacks are
pure functions here; the one operation whose callback may change the dict under
its feet is modelled in `TyLang.Dict.GetOrPut`. The second dict of a binary
operation is `none` when it is the same object as the first, and is then read
in its current state at every step of the loop.
-/
namespace TyLang.Dict

variable {K V : Type} [Inhabited V] [BEq K] [Hashable K]

section
variable (d : Dict K V)

/-- The spot of a key under its own hash, as every operation first computes it. -/
def spotOf (k : K) : Option Spot := findSpot d.size d.items (hash k) k

def val (i : Nat) : V := (itemAt d.items i).v

def setVal (i : Nat) (v : V) : Dict K V :=
  write d i fun it => { it with v }

/-- `dict_get_value`. The answer is `none` for `NULL`; with a default function
the missing key is inserted. -/
def dictGetValue (key : K) : Option (Dict K V × Option V) := do
  let i ← spotOf d key
  match occupied d i, i with
  | true, .slot i => return (d, some (val d i))
  | _, _ =>
    match d.dflt with
    | none => return (d, none)
    | some f =>
      let d := ensureInit d
      let dflt := f key
      match ← spotOf d key with
      | .noSuchSpot => none
      | .slot i =>
        if occupied d (.slot i) then
          return (setVal d i dflt, some dflt)
        else
          let (d, j) ← put d i (hash key) key dflt
          return (d, some (val d j))

def dictHasValue (key : K) : Option Bool :=
  if d.size = 0 then some false
  else (spotOf d key).map (occupied d)

def dictPutValue (key : K) (value : V) : Option (Dict K V) := do
  let d := ensureInit d
  match ← spotOf d key with
  | .noSuchSpot => none
  | .slot i =>
    if occupied d (.slot i) then
      return setVal d i value
    else
      let (d, _) ← put d i (hash key) key value
      return d

def dictPutValueWith (key : K) (v : V) (f : V → V → V) : Option (Dict K V) := do
  let d := ensureInit d
  match ← spotOf d key with
  | .noSuchSpot => none
  | .slot i =>
    if occupied d (.slot i) then
      return setVal d i (f (val d i) v)
    else
      let (d, _) ← put d i (hash key) key v
      return d

/-- `dict_put_key_if_not_exists`, with the slot whose value it points to. -/
def dictPutKeyIfNotExists (key : K) : Option (Dict K V × Nat) := do
  let d := ensureInit d
  match ← spotOf d key with
  | .noSuchSpot => none
  | .slot i =>
    if occupied d (.slot i) then
      return (d, i)
    else
      match d.dflt with
      | none => put d i (hash key) key default
      | some f =>
        match ← spotOf d key with
        | .noSuchSpot => none
        | .slot i =>
          if occupied d (.slot i) then return (d, i)
          else put d i (hash key) key (f key)

def dictClear : Dict K V :=
  { d with items := List.replicate d.size DictItem.zero, last := none, count := 0, tombs := 0 }

/-- `dict_remove`: the removed value, or `NIL`. -/
def dictRemove (k : K) : Option (Dict K V × V) := do
  match ← spotOf d k with
  | .noSuchSpot => return (d, default)
  | .slot i =>
    if occupied d (.slot i) then return (delete d i, val d i)
    else return (d, default)

end

/-- `while (i --> 0) it = it->next` and its mirror image along `prev`. -/
def walk (step : Nat → Option Nat) : Nat → Nat → Option Nat
  | 0, it => some it
  | n + 1, it => (step it).bind (walk step n)

inductive PopResult (K V : Type) where
  | popped (d : Dict K V) (k : K) (v : V)
  | raised (message : String)

/-- The index that `dict_pop` is given, counted from the end when negative. -/
def popIndex (d : Dict K V) (arg : Option Int) : Int :=
  let i := arg.getD (-1)
  if i < 0 then i + d.count else i

/-- The walk of `dict_pop` to its item, from the nearer end of the list. -/
def popItem (d : Dict K V) (i : Nat) : Option Nat :=
  if i < d.count / 2 then
    match dictFirst d with
    | some (some it) => walk (fun s => (itemAt d.items s).next) i it
    | _ => none
  else
    match d.last with
    | some it => walk (fun s => (itemAt d.items s).prev) (d.count - i - 1) it
    | none => none

/-- `dict_pop`; `arg` is the optional index. -/
def dictPop (d : Dict K V) (arg : Option Int) : Option (PopResult K V) :=
  let i := popIndex d arg
  if i < 0 ∨ i ≥ d.count then
    some (.raised s!"index {i} out of range [0, {d.count})")
  else
    match popItem d i.toNat with
    | none => none
    | some it =>
      match (itemAt d.items it).k with
      | .key k => some (.popped (delete d it) k (val d it))
      | _ => none

def keepStep (f : K → V → Bool) (d : Dict K V) (i : Nat) : Dict K V :=
  match (itemAt d.items i).k with
  | .key k => if f k (val d i) then d else delete d i
  | _ => d

/-- `dict_keep_mut`. No round changes the size, so the bound is read once. -/
def dictKeepMut (d : Dict K V) (f : K → V → Bool) : Dict K V :=
  (List.range d.size).foldl (keepStep f) d

/-- The loop of `dict_intersect`. A deleted slot is looked at once more, since
`delete` returns its own index. The callback, if there is one, combines the
values of a key found in both. -/
def intersectLoop (u : Option (Dict K V)) (f : Option (V → V → V)) :
    Nat → Dict K V → Nat → Option (Dict K V)
  | 0, _, _ => none
  | fuel + 1, d, i =>
    if i < d.size then
      match (itemAt d.items i).k with
      | .key k =>
        let o := u.getD d
        match findSpot o.size o.items (itemAt d.items i).h k with
        | none => none
        | some j =>
          match occupied o j, j with
          | true, .slot j =>
            match f with
            | none => intersectLoop u f fuel d (i + 1)
            | some f => intersectLoop u (some f) fuel (setVal d i (f (val d i) (val o j))) (i + 1)
          | _, _ => intersectLoop u f fuel (delete d i) i
      | _ => intersectLoop u f fuel d (i + 1)
    else
      some d

def dictIntersect (d : Dict K V) (u : Option (Dict K V)) (f : Option (V → V → V)) :
    Option (Dict K V) :=
  intersectLoop u f (2 * d.size + 1) d 0

/-- The loop of `dict_subtract`. Its callback is called for effect only. -/
def subtractLoop (u : Option (Dict K V)) : Nat → Dict K V → Nat → Option (Dict K V)
  | 0, _, _ => none
  | fuel + 1, d, i =>
    let o := u.getD d
    if i < o.size then
      match (itemAt o.items i).k with
      | .key k =>
        match findSpot d.size d.items (itemAt o.items i).h k with
        | none => none
        | some j =>
          match occupied d j, j with
          | true, .slot j => subtractLoop u fuel (delete d j) (i + 1)
          | _, _ => subtractLoop u fuel d (i + 1)
      | _ => subtractLoop u fuel d (i + 1)
    else
      some d

def dictSubtract (d : Dict K V) (u : Option (Dict K V)) : Option (Dict K V) :=
  subtractLoop u ((u.getD d).size + 1) d 0

/-- The loop of `DictUpdate` and `DictUpdateWith`. The table of `u` can grow
under the loop when it is the table being updated, so the bound is the caller's. -/
def updateLoop (u : Option (Dict K V)) (f : Option (V → V → V)) :
    Nat → Dict K V → Nat → Option (Dict K V)
  | 0, _, _ => none
  | fuel + 1, d, i =>
    let o := u.getD d
    if i < o.size then
      match (itemAt o.items i).k with
      | .key k =>
        let d' := match f with
          | none => dictPutValue d k (val o i)
          | some f => dictPutValueWith d k (val o i) f
        match d' with
        | none => none
        | some d => updateLoop u f fuel d (i + 1)
      | _ => updateLoop u f fuel d (i + 1)
    else
      some d

end TyLang.Dict
