import TyLang.Lib.RedBlack

/-!
The class `Tree` of `lib/tree.ty`, with the objects of its nodes on a heap. The functions of the
source come in two mirror images, or have two branches that are; they are written here for the
side that they are about. The lines `@k = k` and `@v = v` of `Node.init` are read as assignments
to the members. That is what they are meant for, though the parser takes an `@` at the start of
a statement for a decorator and rejects them.
-/
namespace TyLang.Trees
open RedBlack

abbrev Addr := Nat

/-- The node `__null`, which `init` allocates first. -/
def null : Addr := 0

/-- An object of the class `Node`. The sentinel has no key and no value. -/
structure Node (K V : Type) where
  k : Option K
  v : Option V
  l : Addr
  r : Addr
  p : Addr
  c : Int
  seen : Bool

namespace Node

variable {K V : Type} (n : Node K V)

def child : Side → Addr
  | .left => n.l
  | .right => n.r

def setChild (d : Side) (y : Addr) : Node K V :=
  match d with
  | .left => { n with l := y }
  | .right => { n with r := y }

def setP (y : Addr) : Node K V := { n with p := y }
def setC (c : Int) : Node K V := { n with c := c }
def setV (v : V) : Node K V := { n with v := some v }
def setSeen (b : Bool) : Node K V := { n with seen := b }

end Node

structure Tree (K V : Type) where
  nodes : Addr → Node K V
  root : Addr
  /-- Where the next node is allocated. -/
  fresh : Nat

variable {K V : Type}

namespace Tree

section Fields

variable (t : Tree K V) (x : Addr)

def l : Addr := (t.nodes x).l
def r : Addr := (t.nodes x).r
def p : Addr := (t.nodes x).p
def c : Int := (t.nodes x).c
def child (d : Side) : Addr := (t.nodes x).child d

def modify (f : Node K V → Node K V) : Tree K V :=
  { t with nodes := fun a => if a = x then f (t.nodes a) else t.nodes a }

def setChild (d : Side) (y : Addr) : Tree K V := t.modify x fun n => n.setChild d y
def setL (y : Addr) : Tree K V := t.setChild x .left y
def setR (y : Addr) : Tree K V := t.setChild x .right y
def setP (y : Addr) : Tree K V := t.modify x fun n => n.setP y
def setC (c : Int) : Tree K V := t.modify x fun n => n.setC c
def setV (v : V) : Tree K V := t.modify x fun n => n.setV v
def setSeen (b : Bool) : Tree K V := t.modify x fun n => n.setSeen b

end Fields

def init : Tree K V where
  nodes _ := ⟨none, none, null, null, null, 0, false⟩
  root := null
  fresh := 1

section Rotations

/-- The pointer to `x`, in its parent or in `__root`, is set to `y`. The child on the side `d` of
the parent is compared with `x`. -/
def relink (t : Tree K V) (d : Side) (x y : Addr) : Tree K V :=
  if t.p x = null then { t with root := y }
  else if x = t.child (t.p x) d then t.setChild (t.p x) d y
  else t.setChild (t.p x) d.flip y

def rotate (t : Tree K V) (d : Side) (x : Addr) : Tree K V :=
  let y := t.child x d.flip
  let t := t.setChild x d.flip (t.child y d)
  let t := if t.child y d ≠ null then t.setP (t.child y d) x else t
  let t := t.setP y (t.p x)
  let t := t.relink d x y
  let t := t.setChild y d x
  t.setP x y

def leftRotate (t : Tree K V) (x : Addr) : Tree K V := t.rotate .left x

def rightRotate (t : Tree K V) (x : Addr) : Tree K V := t.rotate .right x

end Rotations

section Put

/-- The last lines of a round of `ifixup`: the parent of `z` takes the place of its own. -/
def liftParent (t : Tree K V) (d : Side) (z : Addr) : Tree K V :=
  let t := t.setC (t.p z) 0
  let t := t.setC (t.p (t.p z)) 1
  t.rotate d.flip (t.p (t.p z))

/-- One round of the loop of `ifixup`, with the parent of `z` on the side `d` of its own. -/
def ifixupRound (t : Tree K V) (d : Side) (z : Addr) : Tree K V × Addr :=
  let y := t.child (t.p (t.p z)) d.flip
  if t.c y ≠ 0 then
    let t := t.setC (t.p z) 0
    let t := t.setC y 0
    let t := t.setC (t.p (t.p z)) 1
    (t, t.p (t.p z))
  else
    let (t, z) := if z = t.child (t.p z) d.flip then (t.rotate d (t.p z), t.p z) else (t, z)
    (t.liftParent d z, z)

def ifixup : Nat → Tree K V → Addr → Option (Tree K V)
  | 0, _, _ => none
  | fuel + 1, t, z =>
    if t.c (t.p z) = 0 then some (t.setC t.root 0)
    else
      let d := if t.p z = t.l (t.p (t.p z)) then Side.left else Side.right
      let (t, z) := t.ifixupRound d z
      ifixup fuel t z

variable (cmp : K → K → Ordering)

/-- The loop of `put`: a node whose value has been replaced, or the last node of the path. -/
def putLoop (k : K) (v : V) : Nat → Tree K V → Addr → Addr → Option (Tree K V ⊕ Addr)
  | 0, _, _, _ => none
  | fuel + 1, t, y, x =>
    if x = null then some (.inr y)
    else
      match (t.nodes x).k with
      | none => none
      | some k' =>
        match cmp k k' with
        | .lt => putLoop k v fuel t x (t.l x)
        | .eq => some (.inl (t.setV x v))
        | .gt => putLoop k v fuel t x (t.r x)

/-- The node that `Node(k, v)` allocates, with the children that `put` gives it. Its parent is
still `nil`, but is not read before it is set. -/
def alloc (t : Tree K V) (k : K) (v : V) : Tree K V :=
  { t with
    nodes := fun a => if a = t.fresh then ⟨some k, some v, null, null, null, 0, false⟩
      else t.nodes a
    fresh := t.fresh + 1 }

/-- The lines of `put` after the loop: the node `z` becomes a red child of `y`. -/
def attach (t : Tree K V) (k : K) (z y : Addr) : Tree K V :=
  let t := t.setP z y
  let t :=
    if y = null then { t with root := z }
    else if (t.nodes y).k.map (cmp k) = some .lt then t.setL y z
    else t.setR y z
  t.setC z 1

def put (t : Tree K V) (fuel : Nat) (k : K) (v : V) : Option (Tree K V) :=
  let z := t.fresh
  let t := t.alloc k v
  match putLoop cmp k v fuel t null t.root with
  | none => none
  | some (.inl t) => some t
  | some (.inr y) => ifixup fuel (t.attach cmp k z y) z

end Put

section Find

variable (cmp : K → K → Ordering)

def findLoop (k : K) : Nat → Tree K V → Addr → Option Addr
  | 0, _, _ => none
  | fuel + 1, t, x =>
    if x = null then some x
    else
      match (t.nodes x).k with
      | none => none
      | some k' =>
        match cmp k k' with
        | .lt => findLoop k fuel t (t.l x)
        | .eq => some x
        | .gt => findLoop k fuel t (t.r x)

section
variable (t : Tree K V) (fuel : Nat) (k : K)

def findNode : Option Addr := findLoop cmp k fuel t t.root

def get : Option (Option V) :=
  (findNode cmp t fuel k).map fun x => if x ≠ null then (t.nodes x).v else none

def has : Option Bool :=
  (findNode cmp t fuel k).map fun x => decide (x ≠ null)

end

end Find

section Delete

def transplant (t : Tree K V) (u v : Addr) : Tree K V :=
  let t := t.relink .left u v
  t.setP v (t.p u)

/-- The loop of `treeMin` and `treeMax`. -/
def treeEnd (d : Side) : Nat → Tree K V → Addr → Option Addr
  | 0, _, _ => none
  | fuel + 1, t, x => if t.child x d ≠ null then treeEnd d fuel t (t.child x d) else some x

def treeMin : Nat → Tree K V → Addr → Option Addr := treeEnd .left

def treeMax : Nat → Tree K V → Addr → Option Addr := treeEnd .right

/-- The first half of a round of `dfixup`: a red sibling is rotated away. -/
def blackSibling (t : Tree K V) (d : Side) (x : Addr) : Tree K V × Addr :=
  let w := t.child (t.p x) d.flip
  if t.c w ≠ 0 then
    let t := t.setC w 0
    let t := t.setC (t.p x) 1
    let t := t.rotate d (t.p x)
    (t, t.child (t.p x) d.flip)
  else (t, w)

/-- The case of a black sibling whose child on the side of `x` may be its only red one. -/
def redNephew (t : Tree K V) (d : Side) (x w : Addr) : Tree K V × Addr :=
  if t.c (t.child w d.flip) = 0 then
    let t := t.setC (t.child w d) 0
    let t := t.setC w 1
    let t := t.rotate d.flip w
    (t, t.child (t.p x) d.flip)
  else (t, w)

/-- One round of the loop of `dfixup`, with `x` on the side `d` of its parent. -/
def dfixupRound (t : Tree K V) (d : Side) (x : Addr) : Tree K V × Addr :=
  let (t, w) := t.blackSibling d x
  if t.c (t.child w d) = 0 ∧ t.c (t.child w d.flip) = 0 then (t.setC w 1, t.p x)
  else
    let (t, w) := t.redNephew d x w
    let t := t.setC w (t.c (t.p x))
    let t := t.setC (t.p x) 0
    let t := t.setC (t.child w d.flip) 0
    let t := t.rotate d (t.p x)
    (t, t.root)

def dfixup : Nat → Tree K V → Addr → Option (Tree K V)
  | 0, _, _ => none
  | fuel + 1, t, x =>
    if x ≠ t.root ∧ t.c x = 0 then
      let d := if x = t.l (t.p x) then Side.left else Side.right
      let (t, x) := t.dfixupRound d x
      dfixup fuel t x
    else some (t.setC x 0)

/-- `deleteNode` for a node with two children: the least node `y` of the right subtree takes its
place. -/
def moveUp (t : Tree K V) (z y : Addr) : Tree K V :=
  let x := t.r y
  let t :=
    if t.p y = z then t.setP x y
    else
      let t := t.transplant y (t.r y)
      let t := t.setR y (t.r z)
      t.setP (t.r y) y
  let t := t.transplant z y
  let t := t.setL y (t.l z)
  let t := t.setP (t.l y) y
  t.setC y (t.c z)

def deleteNode (t : Tree K V) (fuel : Nat) (z : Addr) : Option (Tree K V) :=
  let fixup (t : Tree K V) (yoc : Int) (x : Addr) : Option (Tree K V) :=
    if yoc = 0 then dfixup fuel t x else some t
  if t.l z = null then fixup (t.transplant z (t.r z)) (t.c z) (t.r z)
  else if t.r z = null then fixup (t.transplant z (t.l z)) (t.c z) (t.l z)
  else
    match treeMin fuel t (t.r z) with
    | none => none
    | some y => fixup (t.moveUp z y) (t.c y) (t.r y)

def delete (cmp : K → K → Ordering) (t : Tree K V) (fuel : Nat) (k : K) : Option (Tree K V) :=
  match findNode cmp t fuel k with
  | none => none
  | some x => if x ≠ null then deleteNode t fuel x else some t

end Delete

section Neighbors

/-- The loop of `nextNode` and `prevNode`, with the parent that they return. -/
def climb (d : Side) : Nat → Tree K V → Addr → Option Addr
  | 0, _, _ => none
  | fuel + 1, t, x =>
    if x ≠ t.child (t.p x) d then climb d fuel t (t.p x) else some (t.p x)

def neighborNode (d : Side) (t : Tree K V) (fuel : Nat) (x : Addr) : Option Addr :=
  if t.child x d.flip ≠ null then treeEnd d fuel t (t.child x d.flip) else climb d fuel t x

def nextNode (t : Tree K V) (fuel : Nat) (x : Addr) : Option Addr := neighborNode .left t fuel x

def prevNode (t : Tree K V) (fuel : Nat) (x : Addr) : Option Addr := neighborNode .right t fuel x

variable (cmp : K → K → Ordering)

/-- `next` and `prev`, which return `nil` where there is no key. -/
def neighbor (d : Side) (t : Tree K V) (fuel : Nat) (k : K) : Option (Option K) :=
  match findNode cmp t fuel k with
  | none => none
  | some x =>
    if x = null then some none
    else (neighborNode d t fuel x).map fun x => if x ≠ null then (t.nodes x).k else none

def next (t : Tree K V) (fuel : Nat) (k : K) : Option (Option K) := neighbor cmp .left t fuel k

def prev (t : Tree K V) (fuel : Nat) (k : K) : Option (Option K) := neighbor cmp .right t fuel k

end Neighbors

section Iterate

/-- The first loop of `__iter__`, with the last element of the stack at the front. -/
def gather : Nat → Tree K V → List Addr → List Addr → Option (Tree K V × List Addr)
  | 0, _, _, _ => none
  | _ + 1, t, [], nodes => some (t, nodes)
  | fuel + 1, t, x :: s, nodes =>
    if x = null then gather fuel t s nodes
    else if (t.nodes x).seen then gather fuel t s (nodes ++ [x])
    else gather fuel (t.setSeen x true) (t.l x :: x :: t.r x :: s) nodes

/-- Where the generator of `__iter__` is: before its first line, after the `yield` for a node, or at
its end. -/
inductive Iter where
  | start
  | yielded (node : Addr) (nodes : List Addr)
  | done
  deriving DecidableEq, Repr

/-- The second loop up to its next `yield`. -/
def yieldNode (t : Tree K V) : List Addr → Iter × Option (Option K × Option V)
  | [] => (.done, none)
  | x :: nodes => (.yielded x nodes, some ((t.nodes x).k, (t.nodes x).v))

/-- The generator runs to its next `yield`, which gives the pair, or to its end. -/
def resume (t : Tree K V) (fuel : Nat) :
    Iter → Option (Tree K V × Iter × Option (Option K × Option V))
  | .start => (gather fuel t [t.root] []).map fun (t, nodes) => (t, t.yieldNode nodes)
  | .yielded x nodes =>
    let t := t.setSeen x false
    some (t, t.yieldNode nodes)
  | .done => some (t, .done, none)

/-- What is left of an iteration, run to its end with nothing in between. -/
def drain : Nat → Tree K V → Iter → Option (Tree K V × List (Option K × Option V))
  | 0, _, _ => none
  | fuel + 1, t, it =>
    match t.resume (fuel + 1) it with
    | none => none
    | some (t, _, none) => some (t, [])
    | some (t, it, some p) => (drain fuel t it).map fun (t, ps) => (t, p :: ps)

def pairs (t : Tree K V) (fuel : Nat) : Option (Tree K V × List (Option K × Option V)) :=
  drain fuel t .start

end Iterate

end Tree

end TyLang.Trees
