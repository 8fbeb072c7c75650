import TyLang.Trees.Model

/-!
How the nodes on the heap stand for a tree. A path and the tree at its end are kept apart, so that
a change of the heap is described where it happens.
-/
namespace TyLang.Trees
open List (mem_append_left mem_append_right mem_cons_of_mem mem_cons_self map_cons
  nodup_cons mem_map)
open RedBlack
open RedBlack.Tree (fork toList rootColor perm_fork mem_fork fork_flip toList_rotate)

/-- A node of the tree, without its colour. -/
structure Entry (K V : Type) where
  addr : Addr
  k : K
  v : V
  seen : Bool

abbrev Shape (K V : Type) := RedBlack.Tree (Entry K V)

abbrev Path (K V : Type) := List (Frame (Entry K V))

variable {K V : Type}

section Cells

def addrOf : Shape K V → Addr
  | .leaf => null
  | .node _ e _ _ => e.addr

@[simp] lemma addrOf_fork (d : Side) (c : Color) (e : Entry K V) (x y : Shape K V) :
    addrOf (fork d c e x y) = e.addr := by cases d <;> rfl

def parent : Path K V → Addr
  | [] => null
  | f :: _ => f.label.addr

def colorInt : Color → Int
  | .red => 1
  | .black => 0

@[simp] lemma colorInt_eq_zero {c : Color} : colorInt c = 0 ↔ c = .black := by
  cases c <;> decide

/-- What the node of an entry holds, with the child on the given side first. -/
def cell (d : Side) (c : Color) (e : Entry K V) (near far p : Addr) : Node K V :=
  match d with
  | .left => ⟨some e.k, some e.v, near, far, p, colorInt c, e.seen⟩
  | .right => ⟨some e.k, some e.v, far, near, p, colorInt c, e.seen⟩

variable (d : Side) (c : Color) (e : Entry K V) (near far p : Addr)

@[simp] lemma cell_flip : cell d.flip c e near far p = cell d c e far near p := by
  cases d <;> rfl

@[simp] lemma cell_child : (cell d c e near far p).child d = near := by cases d <;> rfl

@[simp] lemma cell_child_flip : (cell d c e near far p).child d.flip = far := by cases d <;> rfl

@[simp] lemma cell_p : (cell d c e near far p).p = p := by cases d <;> rfl

@[simp] lemma cell_c : (cell d c e near far p).c = colorInt c := by cases d <;> rfl

@[simp] lemma cell_k : (cell d c e near far p).k = some e.k := by cases d <;> rfl

@[simp] lemma cell_v : (cell d c e near far p).v = some e.v := by cases d <;> rfl

@[simp] lemma cell_setChild (y : Addr) :
    (cell d c e near far p).setChild d y = cell d c e y far p := by cases d <;> rfl

@[simp] lemma cell_setChild_flip (y : Addr) :
    (cell d c e near far p).setChild d.flip y = cell d c e near y p := by cases d <;> rfl

@[simp] lemma setP_p (n : Node K V) (y : Addr) : (n.setP y).p = y := rfl

@[simp] lemma cell_setP (q : Addr) : (cell d c e near far p).setP q = cell d c e near far q := by
  cases d <;> rfl

@[simp] lemma cell_setC (c' : Color) :
    (cell d c e near far p).setC (colorInt c') = cell d c' e near far p := by cases d <;> rfl

end Cells

section Rotate

open TyLang.Trees.Tree

@[simp] lemma nodes_modify (t : Tree K V) (x o : Addr) (f : Node K V → Node K V) :
    (t.modify x f).nodes o = if o = x then f (t.nodes o) else t.nodes o := rfl

variable {t : Tree K V} {d : Side} {cx cy : Color} {ex ey : Entry K V} {a b c q : Addr}

@[simp] lemma root_modify (t : Tree K V) (x : Addr) (f : Node K V → Node K V) :
    (t.modify x f).root = t.root := rfl

@[simp] lemma fresh_modify (t : Tree K V) (x : Addr) (f : Node K V → Node K V) :
    (t.modify x f).fresh = t.fresh := rfl

lemma root_relink (t : Tree K V) (d : Side) (x y : Addr) :
    (t.relink d x y).root = if t.p x = null then y else t.root := by
  unfold relink
  split
  · rfl
  · split <;> rfl

lemma fresh_relink (t : Tree K V) (d : Side) (x y : Addr) : (t.relink d x y).fresh = t.fresh := by
  unfold relink
  split
  · rfl
  · split <;> rfl

lemma nodes_relink (t : Tree K V) (d : Side) (x y o : Addr) :
    (t.relink d x y).nodes o =
      if o = t.p x ∧ t.p x ≠ null then
        (t.nodes o).setChild (if x = t.child (t.p x) d then d else d.flip) y
      else t.nodes o := by
  unfold relink
  split
  · next hnull => rw [if_neg fun h => h.2 hnull]
  · next hnull =>
      simp only [ne_eq, hnull, not_false_iff, and_true]
      split <;> rfl

lemma rotate_assigns (hx : t.nodes ex.addr = cell d cx ex a ey.addr q)
    (hy : t.nodes ey.addr = cell d cy ey b c ex.addr) (hne : ex.addr ≠ ey.addr)
    (hbx : b ≠ ex.addr) (hby : b ≠ ey.addr) (hqx : q ≠ ex.addr) (hqy : q ≠ ey.addr)
    (hqb : q ≠ null → q ≠ b) :
    (∀ o, (t.rotate d ex.addr).nodes o =
      if o = ex.addr then cell d cx ex a b ey.addr
      else if o = ey.addr then cell d cy ey ex.addr c q
      else if o = b ∧ b ≠ null then (t.nodes o).setP ex.addr
      else if o = q ∧ q ≠ null then
        (t.nodes o).setChild (if ex.addr = (t.nodes q).child d then d else d.flip) ey.addr
      else t.nodes o) ∧
    (t.rotate d ex.addr).root = (if q = null then ey.addr else t.root) ∧
    (t.rotate d ex.addr).fresh = t.fresh := by
  have hchild : t.child ex.addr d.flip = ey.addr := by rw [Tree.child, hx, cell_child_flip]
  have hb : t.child ey.addr d = b := by rw [Tree.child, hy, cell_child]
  unfold rotate
  dsimp only
  rw [hchild, hb]
  -- the heap after the assignments to `x.r` and `y.l.p` of the left rotation
  generalize ht1 : t.setChild ex.addr d.flip b = t1
  have hb1 : t1.child ey.addr d = b := by
    rwa [← ht1, Tree.child, setChild, nodes_modify, if_neg hne.symm]
  rw [hb1]
  generalize ht2 : (if b ≠ null then t1.setP b ex.addr else t1) = t2
  have hnodes : ∀ o, t2.nodes o = if o = ex.addr then cell d cx ex a b q
      else if o = b ∧ b ≠ null then (t.nodes o).setP ex.addr else t.nodes o := by
    intro o
    rw [← ht2, ← ht1]
    split
    · next hnull =>
        simp only [setP, setChild, nodes_modify, ne_eq, hnull, not_false_iff, and_true]
        by_cases hox : o = ex.addr
        · rw [if_neg (hox ▸ hbx.symm), if_pos hox, if_pos hox, hox, hx, cell_setChild_flip]
        · simp only [hox, if_false]
    · next hnull =>
        simp only [setChild, nodes_modify, hnull, and_false, if_false]
        by_cases hox : o = ex.addr
        · rw [if_pos hox, if_pos hox, hox, hx, cell_setChild_flip]
        · simp only [hox, if_false]
  have hp : t2.p ex.addr = q := by rw [Tree.p, hnodes, if_pos rfl, cell_p]
  rw [hp]
  generalize ht3 : t2.setP ey.addr q = t3
  have hnodes3 : ∀ o, t3.nodes o = if o = ey.addr then cell d cy ey b c q else t2.nodes o := by
    intro o
    rw [← ht3, setP, nodes_modify]
    by_cases hoy : o = ey.addr
    · rw [if_pos hoy, if_pos hoy, hoy, hnodes, if_neg hne.symm, if_neg fun h => hby h.1.symm, hy,
        cell_setP]
    · rw [if_neg hoy, if_neg hoy]
  have hp3 : t3.p ex.addr = q := by rw [Tree.p, hnodes3, if_neg hne, ← hp, Tree.p]
  have hkept : t3.root = t.root ∧ t3.fresh = t.fresh := by
    rw [← ht3, ← ht2, ← ht1]
    split <;> exact ⟨rfl, rfl⟩
  refine ⟨fun o => ?_, ?_, ?_⟩
  rotate_left
  · simp only [setP, setChild, root_modify, root_relink, hp3, hkept.1]
  · simp only [setP, setChild, fresh_modify, fresh_relink, hkept.2]
  simp only [setP, setChild, nodes_modify, nodes_relink, hp3]
  by_cases hox : o = ex.addr
  · simp only [hox, hqx.symm, hne, false_and, if_true, if_false, hnodes3, hnodes, cell_setP]
  by_cases hoy : o = ey.addr
  · simp only [hoy, hqy.symm, hne.symm, false_and, if_true, if_false, hnodes3, cell_setChild]
  simp only [hox, hoy, if_false, hnodes3, hnodes]
  by_cases hoq : o = q ∧ q ≠ null
  · have hqb : ¬ (q = b ∧ b ≠ null) := fun h => hqb hoq.2 h.1
    have hside : t3.child q d = (t.nodes q).child d := by
      rw [Tree.child, hnodes3, if_neg hqy, hnodes, if_neg hqx, if_neg hqb]
    rw [if_pos hoq, if_pos hoq, hoq.1, if_neg hqb, if_neg hqb, hside]
  · rw [if_neg hoq, if_neg hoq]

end Rotate

section Represents

/-- The sentinel is black and has no children. Its parent field may be anything. -/
structure Sentinel (n : Node K V) : Prop where
  black : n.c = 0
  left : n.l = null
  right : n.r = null

lemma Sentinel.setP {n : Node K V} (h : Sentinel n) (q : Addr) : Sentinel (n.setP q) :=
  ⟨h.black, h.left, h.right⟩

variable (t : Tree K V)

/-- The nodes of a tree, below the given parent. -/
def Holds : Addr → Shape K V → Prop
  | _, .leaf => True
  | p, .node c e l r =>
    t.nodes e.addr = cell .left c e (addrOf l) (addrOf r) p ∧ Holds e.addr l ∧ Holds e.addr r

/-- The nodes along a path that ends at the given address. -/
def HoldsPath : Addr → Path K V → Prop
  | x, [] => t.root = x
  | x, f :: ctx =>
    t.nodes f.label.addr = cell f.side f.color f.label x (addrOf f.sib) (parent ctx) ∧
      Holds t f.label.addr f.sib ∧ HoldsPath f.label.addr ctx

/-- The heap holds the path and the tree at its end. -/
structure Rep (ctx : Path K V) (s : Shape K V) : Prop where
  path : HoldsPath t (addrOf s) ctx
  tree : Holds t (parent ctx) s
  nodup : ((plug ctx s).toList.map Entry.addr).Nodup
  bound : ∀ e ∈ (plug ctx s).toList, null < e.addr ∧ e.addr < t.fresh
  sentinel : Sentinel (t.nodes null)
  fresh_pos : null < t.fresh

variable {t} {t' : Tree K V} {d : Side} {c : Color} {e : Entry K V} {x y s : Shape K V} {p q : Addr}
  {ctx : Path K V} {a : Addr}

lemma holds_fork : Holds t p (fork d c e x y) ↔
    t.nodes e.addr = cell d c e (addrOf x) (addrOf y) p ∧ Holds t e.addr x ∧ Holds t e.addr y := by
  cases d with
  | left => rfl
  | right =>
    change t.nodes e.addr = cell .left c e (addrOf y) (addrOf x) p ∧ _ ∧ _ ↔ _
    rw [and_comm (a := Holds t e.addr y)]
    rfl

/-- One can look at the same heap from one node further up or down. -/
lemma rep_cons {f : Frame (Entry K V)} :
    Rep t (f :: ctx) s ↔ Rep t ctx (fork f.side f.color f.label s f.sib) := by
  constructor
  · rintro ⟨⟨hnode, hsib, hpath⟩, htree, hnodup, hbound, hnull, hpos⟩
    refine ⟨?_, holds_fork.mpr ⟨hnode, htree, hsib⟩, hnodup, hbound, hnull, hpos⟩
    rwa [addrOf_fork]
  · rintro ⟨hpath, htree, hnodup, hbound, hnull, hpos⟩
    obtain ⟨hnode, htree, hsib⟩ := holds_fork.mp htree
    rw [addrOf_fork] at hpath
    exact ⟨⟨hnode, hsib, hpath⟩, htree, hnodup, hbound, hnull, hpos⟩

lemma Holds.congr (h : Holds t p s) (heq : ∀ e ∈ s.toList, t'.nodes e.addr = t.nodes e.addr) :
    Holds t' p s := by
  induction s generalizing p with
  | leaf => trivial
  | node c e l r ihl ihr =>
    obtain ⟨hnode, hl, hr⟩ := h
    refine ⟨(heq e (by simp [toList])).trans hnode, ihl hl fun e he => heq e ?_,
      ihr hr fun e he => heq e ?_⟩
    · exact mem_append_left _ he
    · exact mem_append_right _ (.tail _ he)

lemma HoldsPath.congr (h : HoldsPath t a ctx) (hroot : t'.root = t.root)
    (heq : ∀ e ∈ around ctx, t'.nodes e.addr = t.nodes e.addr) : HoldsPath t' a ctx := by
  induction ctx generalizing a with
  | nil => exact hroot.trans h
  | cons f ctx ih =>
    obtain ⟨hnode, hsib, hpath⟩ := h
    refine ⟨(heq f.label mem_cons_self).trans hnode, hsib.congr fun e he => heq e ?_,
      ih hpath fun e he => heq e ?_⟩
    · exact mem_cons_of_mem _ (mem_append_left _ he)
    · exact mem_cons_of_mem _ (mem_append_right _ he)

lemma addrOf_mem (s : Shape K V) : addrOf s = null ∨ ∃ e ∈ s.toList, addrOf s = e.addr := by
  cases s with
  | leaf => exact .inl rfl
  | node c e l r => exact .inr ⟨e, by simp [toList], rfl⟩

lemma parent_mem (ctx : Path K V) : parent ctx = null ∨ ∃ e ∈ around ctx, parent ctx = e.addr := by
  cases ctx with
  | nil => exact .inl rfl
  | cons f ctx => exact .inr ⟨f.label, (.head _), rfl⟩

lemma addrOf_ne (ha : a ≠ null) (h : ∀ e ∈ s.toList, e.addr ≠ a) : addrOf s ≠ a := by
  rcases addrOf_mem s with hnull | ⟨e, he, heq⟩
  · exact hnull ▸ ha.symm
  · exact heq ▸ h e he

lemma parent_ne (ha : a ≠ null) (h : ∀ e ∈ around ctx, e.addr ≠ a) : parent ctx ≠ a := by
  rcases parent_mem ctx with hnull | ⟨e, he, heq⟩
  · exact hnull ▸ ha.symm
  · exact heq ▸ h e he

lemma not_addrOf {o : Addr} (h : ∀ e ∈ s.toList, o ≠ e.addr) :
    ¬ (o = addrOf s ∧ addrOf s ≠ null) := by
  rintro ⟨rfl, hs⟩
  obtain ⟨e, he, heq⟩ := (addrOf_mem s).resolve_left hs
  exact h e he heq

lemma not_parent {o : Addr} (h : ∀ e ∈ around ctx, o ≠ e.addr) :
    ¬ (o = parent ctx ∧ parent ctx ≠ null) := by
  rintro ⟨rfl, hctx⟩
  obtain ⟨e, he, heq⟩ := (parent_mem ctx).resolve_left hctx
  exact h e he heq

lemma Holds.adopt (h : Holds t p s) (hnodup : (s.toList.map Entry.addr).Nodup)
    (hnodes : ∀ e ∈ s.toList, t'.nodes e.addr =
      if e.addr = addrOf s then (t.nodes e.addr).setP q else t.nodes e.addr) : Holds t' q s := by
  cases s with
  | leaf => trivial
  | node c e l r =>
    obtain ⟨hnode, hl, hr⟩ := h
    have hapart : ∀ e' ∈ l.toList ++ r.toList, e'.addr ≠ e.addr := by
      have hperm := ((perm_fork .left c e l r).map Entry.addr).nodup hnodup
      rw [map_cons, nodup_cons] at hperm
      intro e' he' heq
      exact hperm.1 (heq ▸ List.mem_map_of_mem he')
    refine ⟨?_, hl.congr fun e' he' => ?_, hr.congr fun e' he' => ?_⟩
    · rw [hnodes e (by simp [toList]), addrOf, if_pos rfl, hnode, cell_setP]
    · rw [hnodes e' (mem_append_left _ he'), addrOf, if_neg (hapart e' (mem_append_left _ he'))]
    · rw [hnodes e' (mem_append_right _ (mem_cons_of_mem _ he')), addrOf,
        if_neg (hapart e' (mem_append_right _ he'))]

/-- The side of its parent on which the end of a path is. -/
def endSide : Path K V → Side
  | [] => .left
  | f :: _ => f.side

lemma HoldsPath.attach {a b : Addr} (h : HoldsPath t a ctx)
    (hnodup : ((around ctx).map Entry.addr).Nodup) (hpos : ∀ e ∈ around ctx, e.addr ≠ null)
    (hroot : t'.root = if parent ctx = null then b else t.root)
    (hside : parent ctx ≠ null → d = endSide ctx)
    (hnodes : ∀ e ∈ around ctx, t'.nodes e.addr =
      if e.addr = parent ctx ∧ parent ctx ≠ null then (t.nodes e.addr).setChild d b
      else t.nodes e.addr) : HoldsPath t' b ctx := by
  cases ctx with
  | nil => rwa [parent, if_pos rfl] at hroot
  | cons f ctx =>
    obtain ⟨hnode, hsib, hpath⟩ := h
    have hf := hpos f.label mem_cons_self
    have hself : ∀ e ∈ f.sib.toList ++ around ctx, e.addr ≠ f.label.addr := by
      rw [around, map_cons, nodup_cons] at hnodup
      intro e he heq
      exact hnodup.1 (heq ▸ List.mem_map_of_mem he)
    have hsame : ∀ e ∈ f.sib.toList ++ around ctx, t'.nodes e.addr = t.nodes e.addr := by
      intro e he
      rw [hnodes e (mem_cons_of_mem _ he), parent, if_neg fun h => hself e he h.1]
    refine ⟨?_, hsib.congr fun e he => hsame e (mem_append_left _ he),
      hpath.congr ?_ fun e he => hsame e (mem_append_right _ he)⟩
    · rw [hnodes f.label mem_cons_self, parent, if_pos ⟨rfl, hf⟩, hnode, hside hf, endSide,
        cell_setChild]
    · rw [hroot, parent, if_neg hf]

lemma HoldsPath.side_eq (d : Side) (h : HoldsPath t a ctx) (hctx : parent ctx ≠ null)
    (ha : a ≠ null) (hapart : ∀ e ∈ around ctx, e.addr ≠ a) :
    (if a = (t.nodes (parent ctx)).child d then d else d.flip) = endSide ctx := by
  cases ctx with
  | nil => exact absurd rfl hctx
  | cons f ctx =>
    have hsib : addrOf f.sib ≠ a :=
      addrOf_ne ha fun e he => hapart e (.tail _ (mem_append_left _ he))
    rw [parent, h.1, endSide]
    rcases d.eq_or_eq_flip f.side with hside | hside
    · rw [hside, cell_child, if_pos rfl]
    · rw [hside, cell_flip, cell_child, if_neg hsib.symm]

lemma Rep.apart (h : Rep t ctx s) : ((s.toList ++ around ctx).map Entry.addr).Nodup :=
  ((perm_plug ctx s).map Entry.addr).nodup h.nodup

lemma Rep.null_black (h : Rep t ctx s) : t.c null = 0 := h.sentinel.black

lemma Rep.bounds (h : Rep t ctx s) :
    ∀ e ∈ s.toList ++ around ctx, e.addr ≠ null ∧ e.addr < t.fresh := by
  intro e he
  have hbound := h.bound e ((perm_plug ctx s).mem_iff.mpr he)
  exact ⟨Nat.ne_of_gt hbound.1, hbound.2⟩

lemma Rep.node_bounds (h : Rep t ctx (fork d c e x y)) : e.addr ≠ null ∧ e.addr < t.fresh :=
  h.bounds e (mem_append_left _ (mem_fork.mpr (.inl rfl)))

/-- The nodes of two trees or paths are different objects. -/
def Apart (l l' : List (Entry K V)) : Prop := ∀ e ∈ l, ∀ e' ∈ l', e.addr ≠ e'.addr

/-- A node, its subtrees and the path to it are apart. -/
structure ApartAt (ctx : Path K V) (e : Entry K V) (x y : Shape K V) : Prop where
  near : ∀ e' ∈ x.toList, e'.addr ≠ e.addr
  far : ∀ e' ∈ y.toList, e'.addr ≠ e.addr
  path : ∀ e' ∈ around ctx, e'.addr ≠ e.addr
  near_far : Apart x.toList y.toList
  near_path : Apart x.toList (around ctx)
  far_path : Apart y.toList (around ctx)
  nodup_near : (x.toList.map Entry.addr).Nodup
  nodup_path : ((around ctx).map Entry.addr).Nodup

lemma rep_apartAt (h : Rep t ctx (fork d c e x y)) : ApartAt ctx e x y := by
  have hperm := (((perm_fork d c e x y).append_right (around ctx)).map Entry.addr).nodup
    h.apart
  simp only [map_cons, List.map_append, List.nodup_append, nodup_cons, List.mem_append,
    mem_map, List.cons_append, List.append_assoc] at hperm
  obtain ⟨hself, hx, ⟨hy, hctx, hyctx⟩, hxy⟩ := hperm
  exact ⟨fun e' he' heq => hself (.inl ⟨e', he', heq⟩),
    fun e' he' heq => hself (.inr (.inl ⟨e', he', heq⟩)),
    fun e' he' heq => hself (.inr (.inr ⟨e', he', heq⟩)),
    fun a ha b hb => hxy _ ⟨a, ha, rfl⟩ _ (.inl ⟨b, hb, rfl⟩),
    fun a ha b hb => hxy _ ⟨a, ha, rfl⟩ _ (.inr ⟨b, hb, rfl⟩),
    fun a ha b hb => hyctx _ ⟨a, ha, rfl⟩ _ ⟨b, hb, rfl⟩, hx, hctx⟩

end Represents

section Operations

open TyLang.Trees.Tree

variable {t t' : Tree K V} {d : Side} {cx cy : Color} {ex ey : Entry K V} {A B C : Shape K V}
  {ctx : Path K V}

variable (t t') in
/-- What the operations below leave as it is. -/
structure Keeps : Prop where
  fresh : t'.fresh = t.fresh
  null : t'.p null = t.p null

/-- A rotation of the tree at the end of a path. -/
lemma rep_rotate (h : Rep t ctx (fork d cx ex A (fork d cy ey B C))) :
    Rep (t.rotate d ex.addr) ctx (fork d cy ey (fork d cx ex A B) C) ∧
    Keeps t (t.rotate d ex.addr) := by
  obtain ⟨hx, hA, hyB⟩ := holds_fork.mp h.tree
  obtain ⟨hy, hB, hC⟩ := holds_fork.mp hyB
  rw [addrOf_fork] at hx
  have hdown : Rep t (⟨d.flip, cx, ex, A⟩ :: ctx) (fork d cy ey B C) := by
    rwa [rep_cons, fork_flip]
  obtain ⟨hxA, hxY, hxctx, hAY, hActx, hYctx, -, hctx⟩ := rep_apartAt h
  obtain ⟨hyB, hyC, hypath, hBC, hBpath, hCpath, hnodup, -⟩ := rep_apartAt hdown
  have hbounds := h.bounds
  simp only [Apart, around, List.mem_append, List.mem_cons, mem_fork] at *
  have hx0 : ex.addr ≠ null := (hbounds ex (.inl (.inl rfl))).1
  have hy0 : ey.addr ≠ null := (hbounds ey (.inl (.inr (.inr (.inl rfl))))).1
  have hctx0 : ∀ e ∈ around ctx, e.addr ≠ null := fun e he => (hbounds e (.inr he)).1
  have hxB : ∀ e ∈ B.toList, e.addr ≠ ex.addr := fun e he => hxY e (.inr (.inl he))
  have hyctx : ∀ e ∈ around ctx, e.addr ≠ ey.addr := fun e he => hypath e (.inr (.inr he))
  have hBctx : Apart B.toList (around ctx) := fun e he e' he' => hYctx e (.inr (.inl he)) e' he'
  have hqb : parent ctx ≠ null → parent ctx ≠ addrOf B := by
    intro hq heq
    obtain ⟨e, he, hqe⟩ := (parent_mem ctx).resolve_left hq
    exact not_addrOf (fun e' he' => hqe ▸ (hBctx e' he' e he).symm) ⟨heq, heq ▸ hq⟩
  obtain ⟨hnodes, hroot, hnext⟩ := rotate_assigns hx hy (hypath ex (.inl rfl)) (addrOf_ne hx0 hxB)
    (addrOf_ne hy0 hyB) (parent_ne hx0 hxctx) (parent_ne hy0 hyctx) hqb
  -- the nodes that are not assigned to
  have hsame : ∀ o, o ≠ ex.addr → o ≠ ey.addr → (∀ e ∈ B.toList, o ≠ e.addr) →
      (∀ e ∈ around ctx, o ≠ e.addr) → (t.rotate d ex.addr).nodes o = t.nodes o := by
    intro o hox hoy hoB hoctx
    rw [hnodes, if_neg hox, if_neg hoy, if_neg (not_addrOf hoB), if_neg (not_parent hoctx)]
  have hnull : (t.rotate d ex.addr).nodes null = t.nodes null :=
    hsame null hx0.symm hy0.symm (fun e he =>
      ((hbounds e (.inl (.inr (.inr (.inr (.inl he)))))).1).symm)
      fun e he => (hctx0 e he).symm
  have hlist : (plug ctx (fork d cy ey (fork d cx ex A B) C)).toList =
      (plug ctx (fork d cx ex A (fork d cy ey B C))).toList :=
    toList_plug_congr ctx (toList_rotate ..).symm
  refine ⟨⟨?_, ?_, ?_, ?_, ?_, hnext ▸ h.fresh_pos⟩, hnext, ?_⟩
  · have hpath := h.path
    rw [addrOf_fork] at hpath ⊢
    refine hpath.attach hctx hctx0 hroot (hpath.side_eq d · hx0 hxctx) fun e he => ?_
    rw [hnodes, if_neg (hxctx e he), if_neg (hyctx e he),
      if_neg (not_addrOf fun e' he' => (hBctx e' he' e he).symm)]
  · refine holds_fork.mpr ⟨?_, holds_fork.mpr
      ⟨?_, hA.congr fun e he => ?_, hB.adopt hnodup fun e he => ?_⟩, hC.congr fun e he => ?_⟩
    · rw [hnodes, if_neg (hypath ex (.inl rfl)).symm, if_pos rfl, addrOf_fork]
    · rw [hnodes, if_pos rfl]
    · exact hsame e.addr (hxA e he) (hypath e (.inr (.inl he)))
        (fun e' he' => hAY e he e' (.inr (.inl he'))) (hActx e he)
    · rw [hnodes, if_neg (hxB e he), if_neg (hyB e he)]
      by_cases heq : e.addr = addrOf B
      · have hb : addrOf B ≠ null := heq ▸ (hbounds e (.inl (.inr (.inr (.inr (.inl he)))))).1
        rw [if_pos ⟨heq, hb⟩, if_pos heq]
      · rw [if_neg fun h => heq h.1, if_neg (not_parent (hBctx e he)), if_neg heq]
    · exact hsame e.addr (hxY e (.inr (.inr he))) (hyC e he)
        (fun e' he' => (hBC e' he' e he).symm) (hYctx e (.inr (.inr he)))
  · rw [hlist]
    exact h.nodup
  · rw [hlist, hnext]
    exact h.bound
  · rw [hnull]
    exact h.sentinel
  · rw [Tree.p, hnull, Tree.p]

/-- A node gets another colour or another value. -/
lemma rep_modify {c : Color} {e : Entry K V} (c' : Color) (e' : Entry K V)
    {f : Node K V → Node K V} (h : Rep t ctx (fork d c e A B))
    (hf : ∀ near far p, f (cell d c e near far p) = cell d c' e' near far p)
    (ha : e'.addr = e.addr) :
    Rep (t.modify e.addr f) ctx (fork d c' e' A B) ∧ Keeps t (t.modify e.addr f) := by
  obtain ⟨hnode, hA, hB⟩ := holds_fork.mp h.tree
  have hat := rep_apartAt h
  have hnull : null ≠ e.addr := h.node_bounds.1.symm
  have hsame : ∀ o, o ≠ e.addr → (t.modify e.addr f).nodes o = t.nodes o := fun o ho => if_neg ho
  have hlist : (plug ctx (fork d c' e' A B)).toList.map Entry.addr =
      (plug ctx (fork d c e A B)).toList.map Entry.addr := by
    rw [toList_plug, toList_plug]
    cases d <;> simp [fork, toList, ha]
  refine ⟨⟨?_, ?_, ?_, ?_, ?_, h.fresh_pos⟩, rfl, ?_⟩
  · have hpath := h.path
    rw [addrOf_fork] at hpath ⊢
    rw [ha]
    exact hpath.congr rfl fun o ho => hsame _ (hat.path o ho)
  · refine holds_fork.mpr ⟨?_, ?_, ?_⟩
    · rw [ha, nodes_modify, if_pos rfl, hnode, hf]
    · rw [ha]
      exact hA.congr fun o ho => hsame _ (hat.near o ho)
    · rw [ha]
      exact hB.congr fun o ho => hsame _ (hat.far o ho)
  · rw [hlist]
    exact h.nodup
  · intro o ho
    obtain ⟨o', ho', heq⟩ := mem_map.mp (hlist ▸ List.mem_map_of_mem (f := Entry.addr) ho)
    rw [← heq]
    exact h.bound o' ho'
  · rw [hsame null hnull]
    exact h.sentinel
  · rw [Tree.p, hsame null hnull, Tree.p]

lemma rep_setC {c : Color} {e : Entry K V} (c' : Color) (h : Rep t ctx (fork d c e A B)) :
    Rep (t.setC e.addr (colorInt c')) ctx (fork d c' e A B) ∧
    Keeps t (t.setC e.addr (colorInt c')) :=
  rep_modify c' e h (fun near far p => cell_setC d c e near far p c') rfl

end Operations

end TyLang.Trees
