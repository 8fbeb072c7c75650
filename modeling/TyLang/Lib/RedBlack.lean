import Mathlib

/-!
Binary trees with red and black nodes, and the paths that lead to a place in them. Everything is
said for both sides at once: `fork d` is a node whose child on the side `d` is named first.
-/
namespace TyLang.RedBlack
open List
variable {c : Color}

section Trees

inductive Side where
  | left
  | right
  deriving DecidableEq, Repr

def Side.flip : Side → Side
  | .left => .right
  | .right => .left

lemma Side.eq_or_eq_flip (d e : Side) : e = d ∨ e = d.flip := by cases d <;> cases e <;> decide

inductive Color where
  | red
  | black
  deriving DecidableEq, Repr

inductive Tree (α : Type) where
  | leaf
  | node (c : Color) (a : α) (l r : Tree α)

/-- A step of a path: the node that it leaves, the side on which it goes on, and the other child. -/
structure Frame (α : Type) where
  side : Side
  color : Color
  label : α
  sib : Tree α

variable {α : Type}

namespace Tree

def fork (d : Side) (c : Color) (a : α) (near far : Tree α) : Tree α :=
  match d with
  | .left => .node c a near far
  | .right => .node c a far near

@[simp] lemma fork_flip (d : Side) (c : Color) (a : α) (x y : Tree α) :
    fork d.flip c a x y = fork d c a y x := by cases d <;> rfl

def rootColor : Tree α → Color
  | .leaf => .black
  | .node c _ _ _ => c

@[simp] lemma rootColor_fork (d : Side) (c : Color) (a : α) (x y : Tree α) :
    (fork d c a x y).rootColor = c := by cases d <;> rfl

lemma exists_fork_of_red {t : Tree α} (d : Side) (h : t.rootColor = .red) :
    ∃ a x y, t = fork d .red a x y := by
  cases t with
  | leaf => cases h
  | node c a l r =>
    obtain rfl : c = .red := h
    cases d with
    | left => exact ⟨a, l, r, rfl⟩
    | right => exact ⟨a, r, l, rfl⟩

lemma eq_leaf_or_fork (t : Tree α) (d : Side) : t = .leaf ∨ ∃ c a x y, t = fork d c a x y := by
  cases t with
  | leaf => exact .inl rfl
  | node c a l r =>
    cases d with
    | left => exact .inr ⟨c, a, l, r, rfl⟩
    | right => exact .inr ⟨c, a, r, l, rfl⟩

def blacken : Tree α → Tree α
  | .leaf => .leaf
  | .node _ a l r => .node .black a l r

@[simp] lemma rootColor_blacken (t : Tree α) : t.blacken.rootColor = .black := by
  cases t <;> rfl

lemma blacken_of_black {t : Tree α} (h : t.rootColor = .black) : t.blacken = t := by
  cases t with
  | leaf => rfl
  | node c a l r =>
    obtain rfl : c = .black := h
    rfl

@[simp] lemma blacken_fork (d : Side) (c : Color) (a : α) (x y : Tree α) :
    (fork d c a x y).blacken = fork d .black a x y := by cases d <;> rfl

def toList : Tree α → List α
  | .leaf => []
  | .node _ a l r => toList l ++ a :: toList r

@[simp] lemma toList_blacken (t : Tree α) : t.blacken.toList = t.toList := by
  cases t <;> rfl

lemma toList_fork_congr (d : Side) (c c' : Color) (a : α) {x x' y y' : Tree α}
    (hx : x.toList = x'.toList) (hy : y.toList = y'.toList) :
    (fork d c a x y).toList = (fork d c' a x' y').toList := by
  cases d <;> simp [fork, toList, hx, hy]

lemma toList_rotate (d : Side) (c c' : Color) (a b : α) (x y z : Tree α) :
    (fork d c a x (fork d c' b y z)).toList = (fork d c' b (fork d c a x y) z).toList := by
  cases d <;> simp [fork, toList]

lemma perm_fork (d : Side) (c : Color) (a : α) (x y : Tree α) :
    (fork d c a x y).toList.Perm (a :: (x.toList ++ y.toList)) := by
  cases d with
  | left => exact perm_middle
  | right => exact perm_middle.trans (perm_append_comm.cons a)

lemma mem_fork {d : Side} {a b : α} {x y : Tree α} :
    b ∈ (fork d c a x y).toList ↔ b = a ∨ b ∈ x.toList ∨ b ∈ y.toList := by
  rw [(perm_fork d c a x y).mem_iff, mem_cons, mem_append]

/-- The tree with other labels. -/
def map (f : α → α) : Tree α → Tree α
  | .leaf => .leaf
  | .node c a l r => .node c (f a) (l.map f) (r.map f)

@[simp] lemma rootColor_map (f : α → α) (t : Tree α) : (t.map f).rootColor = t.rootColor := by
  cases t <;> rfl

@[simp] lemma toList_map (f : α → α) (t : Tree α) : (t.map f).toList = t.toList.map f := by
  induction t with
  | leaf => rfl
  | node c a l r ihl ihr => rw [map, toList, toList, ihl, ihr, map_append, map_cons]

end Tree

end Trees

section Paths

variable {α : Type}
open TyLang.RedBlack.Tree

def plug : List (Frame α) → Tree α → Tree α
  | [], t => t
  | f :: ctx, t => plug ctx (fork f.side f.color f.label t f.sib)

def earlier : List (Frame α) → List α
  | [] => []
  | f :: ctx =>
    match f.side with
    | .left => earlier ctx
    | .right => earlier ctx ++ (f.sib.toList ++ [f.label])

def later : List (Frame α) → List α
  | [] => []
  | f :: ctx =>
    match f.side with
    | .left => f.label :: f.sib.toList ++ later ctx
    | .right => later ctx

lemma toList_plug (ctx : List (Frame α)) (t : Tree α) :
    (plug ctx t).toList = earlier ctx ++ (t.toList ++ later ctx) := by
  induction ctx generalizing t with
  | nil => simp [plug, earlier, later]
  | cons f ctx ih =>
    rw [plug, ih]
    cases hside : f.side <;> simp [earlier, later, hside, fork, toList]

lemma toList_plug_congr (ctx : List (Frame α)) {t t' : Tree α} (h : t.toList = t'.toList) :
    (plug ctx t).toList = (plug ctx t').toList := by
  rw [toList_plug, toList_plug, h]

def around : List (Frame α) → List α
  | [] => []
  | f :: ctx => f.label :: (f.sib.toList ++ around ctx)

lemma perm_plug (ctx : List (Frame α)) (t : Tree α) :
    (plug ctx t).toList.Perm (t.toList ++ around ctx) := by
  induction ctx generalizing t with
  | nil =>
    rw [around, append_nil]
    exact .refl _
  | cons f ctx ih =>
    have hperm : (fork f.side f.color f.label t f.sib).toList.Perm
        (t.toList ++ f.label :: f.sib.toList) :=
      (perm_fork ..).trans perm_middle.symm
    refine (ih _).trans ((hperm.append_right _).trans ?_)
    rw [around, append_assoc]
    exact .refl _

lemma plug_append (p ctx : List (Frame α)) (t : Tree α) :
    plug (p ++ ctx) t = plug ctx (plug p t) := by
  induction p generalizing t with
  | nil => rfl
  | cons f p ih => exact ih _

lemma earlier_eq_nil {p : List (Frame α)} (h : ∀ f ∈ p, f.side = .left) : earlier p = [] := by
  induction p with
  | nil => rfl
  | cons f p ih =>
    rw [earlier, h f mem_cons_self]
    exact ih fun g hg => h g (.tail _ hg)

lemma mem_plug {ctx : List (Frame α)} {t : Tree α} {a : α} :
    a ∈ (plug ctx t).toList ↔ a ∈ t.toList ∨ a ∈ around ctx :=
  (perm_plug ctx t).mem_iff.trans mem_append

def seq (d : Side) (t : Tree α) : List α :=
  match d with
  | .left => t.toList
  | .right => t.toList.reverse

@[simp] lemma seq_leaf (d : Side) : seq d (.leaf : Tree α) = [] := by cases d <;> rfl

lemma seq_fork (d : Side) (c : Color) (a : α) (x y : Tree α) :
    seq d (fork d c a x y) = seq d x ++ a :: seq d y := by
  cases d <;> simp [seq, fork, toList]

lemma mem_seq {d : Side} {t : Tree α} {a : α} : a ∈ seq d t ↔ a ∈ t.toList := by
  cases d with
  | left => rfl
  | right => exact mem_reverse

def beyond (d : Side) : List (Frame α) → List α
  | [] => []
  | f :: ctx => if f.side = d then f.label :: (seq d f.sib ++ beyond d ctx) else beyond d ctx

lemma exists_seq_plug (d : Side) (ctx : List (Frame α)) (t : Tree α) :
    ∃ l, seq d (plug ctx t) = l ++ (seq d t ++ beyond d ctx) := by
  induction ctx generalizing t with
  | nil => exact ⟨[], by rw [beyond, append_nil]; rfl⟩
  | cons f ctx ih =>
    obtain ⟨l, hl⟩ := ih (fork f.side f.color f.label t f.sib)
    rw [plug, hl, beyond]
    by_cases hside : f.side = d
    · refine ⟨l, ?_⟩
      rw [if_pos hside, hside, seq_fork, append_assoc]
      rfl
    · refine ⟨l ++ (seq d f.sib ++ [f.label]), ?_⟩
      have hflip : f.side = d.flip := (d.eq_or_eq_flip f.side).resolve_left hside
      rw [if_neg hside, hflip, fork_flip, seq_fork]
      simp only [append_assoc, cons_append, nil_append]

lemma head?_seq_plug {d : Side} {p : List (Frame α)} (h : ∀ f ∈ p, f.side = d) (c : Color) (a : α)
    (y : Tree α) : (seq d (plug p (fork d c a .leaf y))).head? = some a := by
  suffices hmore : ∀ {t : Tree α} {l : List α}, seq d t = a :: l →
      ∃ l', seq d (plug p t) = a :: l' by
    obtain ⟨l', hl'⟩ := hmore (t := fork d c a .leaf y) (by rw [seq_fork, seq_leaf, nil_append])
    rw [hl', head?_cons]
  induction p with
  | nil => exact fun hl => ⟨_, hl⟩
  | cons f p ih =>
    intro t l hl
    refine ih (fun g hg => h g (.tail _ hg)) (l := l ++ f.label :: seq d f.sib) ?_
    rw [h f mem_cons_self, seq_fork, hl, cons_append]

end Paths

section Balance

variable {α : Type}
open TyLang.RedBlack.Tree

/-- No red node has a red child, and each path to a leaf has the given number of black nodes. -/
inductive RB : Nat → Tree α → Prop where
  | leaf : RB 0 .leaf
  | red {h : Nat} {a : α} {l r : Tree α} (hl : RB h l) (hr : RB h r)
      (cl : l.rootColor = .black) (cr : r.rootColor = .black) : RB h (.node .red a l r)
  | black {h : Nat} {a : α} {l r : Tree α} (hl : RB h l) (hr : RB h r) :
      RB (h + 1) (.node .black a l r)

lemma RB.map {h : Nat} {t : Tree α} (ht : RB h t) (f : α → α) : RB h (t.map f) := by
  induction ht with
  | leaf => exact .leaf
  | red _ _ cl cr ihl ihr => exact .red ihl ihr (by rwa [rootColor_map]) (by rwa [rootColor_map])
  | black _ _ ihl ihr => exact .black ihl ihr

/-- At the end of the path a black tree with the given number of black nodes fits. -/
inductive RBPath : Nat → List (Frame α) → Prop where
  | nil {h : Nat} : RBPath h []
  | red {h : Nat} {d : Side} {a : α} {sib : Tree α} {f : Frame α} {ctx : List (Frame α)}
      (hs : RB h sib) (cs : sib.rootColor = .black) (cf : f.color = .black)
      (hctx : RBPath h (f :: ctx)) : RBPath h (⟨d, .red, a, sib⟩ :: f :: ctx)
  | black {h : Nat} {d : Side} {a : α} {sib : Tree α} {ctx : List (Frame α)}
      (hs : RB h sib) (hctx : RBPath (h + 1) ctx) : RBPath h (⟨d, .black, a, sib⟩ :: ctx)

variable {h : Nat} {d : Side} {a : α} {x y t : Tree α} {ctx : List (Frame α)}

lemma RB.fork_red (hx : RB h x) (hy : RB h y) (cx : x.rootColor = .black)
    (cy : y.rootColor = .black) : RB h (fork d .red a x y) := by
  cases d with
  | left => exact .red hx hy cx cy
  | right => exact .red hy hx cy cx

lemma RB.fork_black (hx : RB h x) (hy : RB h y) : RB (h + 1) (fork d .black a x y) := by
  cases d with
  | left => exact .black hx hy
  | right => exact .black hy hx

lemma RB.of_fork_red (ht : RB h (fork d .red a x y)) :
    RB h x ∧ RB h y ∧ x.rootColor = .black ∧ y.rootColor = .black := by
  cases d with
  | left =>
    cases ht with
    | red hl hr cl cr => exact ⟨hl, hr, cl, cr⟩
  | right =>
    cases ht with
    | red hl hr cl cr => exact ⟨hr, hl, cr, cl⟩

lemma RB.of_fork_black (ht : RB h (fork d .black a x y)) : ∃ n, h = n + 1 ∧ RB n x ∧ RB n y := by
  cases d with
  | left =>
    cases ht with
    | black hl hr => exact ⟨_, rfl, hl, hr⟩
  | right =>
    cases ht with
    | black hl hr => exact ⟨_, rfl, hr, hl⟩

lemma RB.exists_fork (ht : RB (h + 1) t) (d : Side) : ∃ c a x y, t = fork d c a x y := by
  cases ht with
  | red hl hr cl cr | black hl hr =>
    cases d with
    | left => exact ⟨_, _, _, _, rfl⟩
    | right => exact ⟨_, _, _, _, rfl⟩

lemma RB.blacken_of_red (ht : RB h t) (c : t.rootColor = .red) : RB (h + 1) t.blacken := by
  cases ht with
  | leaf => cases c
  | red hl hr cl cr => exact .black hl hr
  | black hl hr => cases c

def Fits (ctx : List (Frame α)) (t : Tree α) : Prop :=
  ∃ h, RBPath h ctx ∧ RB h t ∧ (t.rootColor = .red → ∃ f, ctx.head? = some f ∧ f.color = .black)

/-- A red-black tree, with a black root. -/
lemma fits_nil : Fits [] t ↔ ∃ h, RB h t ∧ t.rootColor = .black := by
  constructor
  · rintro ⟨h, -, ht, hred⟩
    refine ⟨h, ht, ?_⟩
    cases hc : t.rootColor with
    | black => rfl
    | red =>
      obtain ⟨f, hf, -⟩ := hred hc
      cases hf
  · rintro ⟨h, ht, hc⟩
    exact ⟨h, .nil, ht, fun hred => by rw [hc] at hred; cases hred⟩

lemma Fits.relabel (b : α) (ht : Fits ctx (fork d c a x y)) : Fits ctx (fork d c b x y) := by
  obtain ⟨h, hctx, ht, hred⟩ := ht
  rw [rootColor_fork] at hred
  refine ⟨h, hctx, ?_, by rwa [rootColor_fork]⟩
  cases c with
  | red =>
    obtain ⟨hx, hy, cx, cy⟩ := ht.of_fork_red
    exact hx.fork_red hy cx cy
  | black =>
    obtain ⟨n, rfl, hx, hy⟩ := ht.of_fork_black
    exact hx.fork_black hy

lemma Fits.blacken (ht : Fits [] t) : Fits [] t.blacken := by
  obtain ⟨h, -, hc⟩ := fits_nil.mp ht
  rwa [blacken_of_black hc]

lemma Fits.down (ht : Fits ctx (fork d c a x y)) : Fits (⟨d, c, a, y⟩ :: ctx) x := by
  obtain ⟨h, hctx, ht, hred⟩ := ht
  cases c with
  | red =>
    obtain ⟨hx, hy, cx, cy⟩ := ht.of_fork_red
    obtain ⟨f, hf, cf⟩ := hred (rootColor_fork ..)
    cases ctx with
    | nil => cases hf
    | cons g ctx =>
      cases hf
      exact ⟨h, .red hy cy cf hctx, hx, fun hred => by rw [cx] at hred; cases hred⟩
  | black =>
    obtain ⟨n, rfl, hx, hy⟩ := ht.of_fork_black
    exact ⟨n, .black hy hctx, hx, fun _ => ⟨_, rfl, rfl⟩⟩

lemma Fits.up {f : Frame α} (ht : Fits (f :: ctx) t) :
    Fits ctx (fork f.side f.color f.label t f.sib) := by
  obtain ⟨h, hctx, ht, hred⟩ := ht
  cases hctx with
  | red hs cs cf hctx =>
    have ct : t.rootColor = .black := by
      cases hc : t.rootColor with
      | black => rfl
      | red =>
        obtain ⟨f, hf, hblack⟩ := hred hc
        cases hf
        cases hblack
    exact ⟨h, hctx, ht.fork_red hs ct cs, fun _ => ⟨_, rfl, cf⟩⟩
  | black hs hctx =>
    exact ⟨h + 1, hctx, ht.fork_black hs, fun hred => by rw [rootColor_fork] at hred; cases hred⟩

lemma Fits.plug (ht : Fits ctx t) : Fits [] (plug ctx t) := by
  induction ctx generalizing t with
  | nil => exact ht
  | cons f ctx ih => exact ih ht.up

/-- The tree has one black node less on its paths than fit, unless its root can be made black. -/
structure Short (h : Nat) (t : Tree α) : Prop where
  black : t.rootColor = .black → RB h t
  red : t.rootColor = .red → RB (h + 1) t.blacken

lemma RB.short (ht : RB h t) : Short h t := ⟨fun _ => ht, ht.blacken_of_red⟩

lemma Short.rb_blacken (ht : Short h t) : ∃ n, RB n t.blacken := by
  cases hc : t.rootColor with
  | red => exact ⟨h + 1, ht.red hc⟩
  | black => exact ⟨h, by rw [blacken_of_black hc]; exact ht.black hc⟩

lemma Fits.remove_red (ht : Fits ctx (fork d .red a x .leaf)) : Fits ctx x := by
  obtain ⟨h, hctx, ht, -⟩ := ht
  obtain ⟨hx, -, cx, -⟩ := ht.of_fork_red
  exact ⟨h, hctx, hx, fun hred => by rw [cx] at hred; cases hred⟩

lemma Fits.remove_black (ht : Fits ctx (fork d .black a x .leaf)) :
    ∃ h, RBPath (h + 1) ctx ∧ Short h x := by
  obtain ⟨h, hctx, ht, -⟩ := ht
  obtain ⟨n, rfl, hx, -⟩ := ht.of_fork_black
  exact ⟨n, hctx, hx.short⟩

lemma RBPath.relabel {p : List (Frame α)} (b : α)
    (hp : RBPath h (p ++ ⟨d, c, a, x⟩ :: ctx)) : RBPath h (p ++ ⟨d, c, b, x⟩ :: ctx) := by
  induction p generalizing h with
  | nil =>
    cases hp with
    | red hs cs cf hctx => exact .red hs cs cf hctx
    | black hs hctx => exact .black hs hctx
  | cons f p ih =>
    cases p with
    | nil | cons g p =>
      cases hp with
      | red hs cs cf hctx => exact .red hs cs cf (ih hctx)
      | black hs hctx => exact .black hs (ih hctx)

lemma Fits.relabel_path {p : List (Frame α)} (b : α)
    (ht : Fits (p ++ ⟨d, c, a, x⟩ :: ctx) t) : Fits (p ++ ⟨d, c, b, x⟩ :: ctx) t := by
  obtain ⟨h, hctx, ht, hred⟩ := ht
  refine ⟨h, hctx.relabel b, ht, fun hc => ?_⟩
  obtain ⟨f, hf, hblack⟩ := hred hc
  cases p with
  | nil =>
    cases hf
    exact ⟨_, rfl, hblack⟩
  | cons g p => exact ⟨f, hf, hblack⟩

lemma Fits.descend {p : List (Frame α)} (ht : Fits ctx (RedBlack.plug p t)) :
    Fits (p ++ ctx) t := by
  induction p generalizing t with
  | nil => exact ht
  | cons f p ih => exact (ih ht).down

def Tree.depth : Tree α → Nat
  | .leaf => 0
  | .node _ _ l r => max l.depth r.depth + 1

lemma RB.depth_le (ht : RB h t) : t.depth ≤ 2 * h + if t.rootColor = .red then 1 else 0 := by
  induction ht with
  | leaf => exact Nat.zero_le _
  | red | black => grind [depth, rootColor]

lemma RB.two_pow_le (ht : RB h t) : 2 ^ h ≤ t.toList.length + 1 := by
  induction ht with
  | leaf => exact Nat.le_refl 1
  | red _ _ _ _ ihl ihr | black _ _ ihl ihr =>
    rw [toList, length_append, length_cons]
    omega

/-- A red-black tree is at most twice as deep as a full tree with as many entries. -/
lemma RB.depth_le_log (ht : RB h t) (hc : t.rootColor = .black) :
    t.depth ≤ 2 * (t.toList.length + 1).log2 := by
  have hdepth := ht.depth_le
  have hlog := (Nat.le_log2 (by omega)).mpr ht.two_pow_le
  rw [hc, if_neg nofun] at hdepth
  omega

end Balance

end TyLang.RedBlack
