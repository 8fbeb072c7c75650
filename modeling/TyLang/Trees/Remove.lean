import TyLang.Trees.Delete

/-!
`delete`: a node with at most one child is replaced by it, and one with two children by the least
node of its right subtree. The place that this leaves is what `dfixup` repairs.
-/
namespace TyLang.Trees
open List RedBlack Std
open RedBlack.Tree (fork toList rootColor fork_flip rootColor_fork mem_fork perm_fork)

variable {K V : Type} {t : Tree K V} {ctx : Path K V} {x L R : Shape K V} {d : Side} {c cy : Color}
  {e ey : Entry K V}

section Transplant

lemma transplant_assigns {u v q : Addr} (hu : t.p u = q) (huq : u ≠ q) (hvq : v = null ∨ v ≠ q) :
    (∀ o, (t.transplant u v).nodes o =
      if o = v then (t.nodes o).setP q
      else if o = q ∧ q ≠ null then
        (t.nodes o).setChild (if u = t.child q .left then .left else .right) v
      else t.nodes o) ∧
    (t.transplant u v).root = (if q = null then v else t.root) ∧
    (t.transplant u v).fresh = t.fresh := by
  have hp : (t.relink .left u v).p u = q := by
    rw [Tree.p, nodes_relink, hu, if_neg fun h => huq h.1, ← hu, Tree.p]
  refine ⟨fun o => ?_, ?_, ?_⟩
  · unfold Tree.transplant
    dsimp only
    rw [hp, Tree.setP, nodes_modify, nodes_relink, hu]
    by_cases ho : o = v
    · have hoq : ¬ (o = q ∧ q ≠ null) := by
        rintro ⟨hq, hnull⟩
        rcases hvq with hv | hv
        · exact hnull (hq.symm.trans (ho.trans hv))
        · exact hv (ho.symm.trans hq)
      rw [if_pos ho, if_pos ho, if_neg hoq]
    · rw [if_neg ho, if_neg ho]
      rfl
  · unfold Tree.transplant
    dsimp only
    rw [Tree.setP, root_modify, root_relink, hu]
  · unfold Tree.transplant
    dsimp only
    rw [Tree.setP, fresh_modify, fresh_relink]

variable (t ctx x e) in
/-- What `transplant` leaves when the node of an entry is replaced by its only child. -/
structure Transplanted (t' : Tree K V) : Prop where
  rep : Rep t' ctx x
  fresh : t'.fresh = t.fresh
  root : parent ctx ≠ null → t'.root = t.root
  moved : t'.nodes (addrOf x) = (t.nodes (addrOf x)).setP (parent ctx)
  node : t'.nodes e.addr = t.nodes e.addr
  other : ∀ o, o ≠ addrOf x → o ≠ parent ctx → t'.nodes o = t.nodes o

lemma rep_transplant (h : Rep t ctx (fork d c e x .leaf)) :
    Transplanted t ctx x e (t.transplant e.addr (addrOf x)) := by
  obtain ⟨hnode, hx, -⟩ := holds_fork.mp h.tree
  have hdown : Rep t (⟨d, c, e, .leaf⟩ :: ctx) x := rep_cons.mpr h
  obtain ⟨hnear, -, hpath, -, hnearPath, -⟩ := rep_apartAt h
  have he := h.node_bounds.1
  have hu : t.p e.addr = parent ctx := by rw [Tree.p, hnode, cell_p]
  have huq : e.addr ≠ parent ctx := (parent_ne he hpath).symm
  have huv : e.addr ≠ addrOf x := (addrOf_ne he hnear).symm
  have hctx0 : ∀ o ∈ around ctx, o.addr ≠ null := fun o ho =>
    (h.bounds o (mem_append_right _ ho)).1
  have hvq : addrOf x = null ∨ addrOf x ≠ parent ctx := by
    rcases addrOf_mem x with hnull | ⟨o, ho, heq⟩
    · exact .inl hnull
    · have ho0 := (hdown.bounds o (mem_append_left _ ho)).1
      rw [heq]
      exact .inr (parent_ne ho0 fun e' he' => (hnearPath o ho e' he').symm).symm
  obtain ⟨hnodes, hroot, hnext⟩ := transplant_assigns hu huq hvq
  have hother : ∀ o, o ≠ addrOf x → o ≠ parent ctx →
      (t.transplant e.addr (addrOf x)).nodes o = t.nodes o := by
    intro o hx hq
    rw [hnodes, if_neg hx, if_neg fun h => hq h.1]
  have hmem : ∀ o ∈ (plug ctx x).toList, o ∈ (plug ctx (fork d c e x .leaf)).toList := by
    intro o ho
    rw [mem_plug] at ho ⊢
    exact ho.imp_left fun ho => mem_fork.mpr (.inr (.inl ho))
  refine ⟨⟨?_, ?_, ?_, ?_, ?_, hnext ▸ h.fresh_pos⟩, hnext, fun hq => ?_, ?_,
    hother _ huv huq, hother⟩
  · have hpathAt := h.path
    rw [addrOf_fork] at hpathAt
    refine hpathAt.attach (rep_apartAt h).nodup_path hctx0 hroot (hpathAt.side_eq .left · he hpath)
      fun o ho => ?_
    rw [hnodes, if_neg (addrOf_ne (hctx0 o ho) fun o' ho' => hnearPath o' ho' o ho).symm]
    rfl
  · refine hx.adopt (rep_apartAt h).nodup_near fun o ho => ?_
    rw [hnodes, if_neg (not_parent (hnearPath o ho))]
  · have hnodup := ((perm_plug _ x).map Entry.addr).nodup hdown.nodup
    refine ((perm_plug ctx x).map Entry.addr).nodup_iff.mpr (hnodup.sublist (Sublist.map _ ?_))
    exact Sublist.append_left (sublist_cons_self _ _) _
  · intro o ho
    rw [hnext]
    exact h.bound o (hmem o ho)
  · rw [hnodes]
    by_cases hnull : null = addrOf x
    · rw [if_pos hnull]
      exact h.sentinel.setP _
    · rw [if_neg hnull, if_neg (not_parent fun o ho => (hctx0 o ho).symm)]
      exact h.sentinel
  · rw [hroot, if_neg hq]
  · rw [hnodes, if_pos rfl]

lemma Transplanted.place {t' : Tree K V} (h : Transplanted t ctx x e t') :
    t'.p (addrOf x) = parent ctx := by
  rw [Tree.p, h.moved, setP_p]

end Transplant

section TakePlace

/-- The last lines of `moveUp`: the node `y` is put where `z` was. -/
def takePlace (t : Tree K V) (z y : Addr) : Tree K V :=
  let t := t.transplant z y
  let t := t.setL y (t.l z)
  let t := t.setP (t.l y) y
  t.setC y (t.c z)

lemma moveUp_eq (t : Tree K V) (z y : Addr) :
    t.moveUp z y = takePlace
      (if t.p y = z then t.setP (t.r y) y
      else
        ((t.transplant y (t.r y)).setR y ((t.transplant y (t.r y)).r z)).setP
          (((t.transplant y (t.r y)).setR y ((t.transplant y (t.r y)).r z)).r y) y) z y := rfl

lemma takePlace_assigns {l r r' l' p' q : Addr} (hz : t.nodes e.addr = cell .left c e l r' q)
    (hy : t.nodes ey.addr = cell .left cy ey l' r p') (hzy : e.addr ≠ ey.addr) (hlz : l ≠ e.addr)
    (hly : l ≠ ey.addr) (hlq : l ≠ q) (hqz : q ≠ e.addr) (hqy : q ≠ ey.addr) :
    (∀ o, (takePlace t e.addr ey.addr).nodes o =
      if o = ey.addr then cell .left c ey l r q
      else if o = l then (t.nodes o).setP ey.addr
      else if o = q ∧ q ≠ null then
        (t.nodes o).setChild (if e.addr = t.child q .left then .left else .right) ey.addr
      else t.nodes o) ∧
    (takePlace t e.addr ey.addr).root = (if q = null then ey.addr else t.root) ∧
    (takePlace t e.addr ey.addr).fresh = t.fresh := by
  have hp : t.p e.addr = q := by rw [Tree.p, hz, cell_p]
  obtain ⟨hnodes, hroot, hnext⟩ := transplant_assigns hp hqz.symm (.inr hqy.symm)
  have hz' : (t.transplant e.addr ey.addr).nodes e.addr = cell .left c e l r' q := by
    rw [hnodes, if_neg hzy, if_neg fun h => hqz h.1.symm, hz]
  have hy' : (t.transplant e.addr ey.addr).nodes ey.addr = cell .left cy ey l' r q := by
    rw [hnodes, if_pos rfl, hy, cell_setP]
  have hl : (t.transplant e.addr ey.addr).l e.addr = l := by rw [Tree.l, hz', cell]
  unfold takePlace
  dsimp only
  generalize t.transplant e.addr ey.addr = t1 at *
  have hyl : (t1.setL ey.addr l).l ey.addr = l := by
    simp [Tree.l, Tree.setL, Tree.setChild, Node.setChild]
  have hcz : ((t1.setL ey.addr l).setP l ey.addr).c e.addr = colorInt c := by
    simp only [Tree.c, Tree.setP, Tree.setL, Tree.setChild, nodes_modify, if_neg hlz.symm,
      if_neg hzy, hz', cell_c]
  rw [hl, hyl, hcz]
  refine ⟨fun o => ?_, hroot, hnext⟩
  simp only [Tree.setC, Tree.setP, Tree.setL, Tree.setChild, nodes_modify]
  by_cases hoy : o = ey.addr
  · subst hoy
    rw [if_pos rfl, if_pos rfl, if_neg hly.symm, if_pos rfl, hy', cell_setChild, cell_setC]
  · rw [if_neg hoy, if_neg hoy, if_neg hoy, hnodes, if_neg hoy]
    by_cases hol : o = l
    · rw [if_pos hol, if_pos hol, if_neg fun h => hlq (hol.symm.trans h.1)]
    · rw [if_neg hol, if_neg hol]

variable (ctx L R c e ey) in
/-- The heap `t` is the one of a tree without the node `ey`, apart from the fields that are going to
be assigned to and the parent of the tree that `ey` takes over. -/
structure Detached (t₀ t : Tree K V) : Prop where
  rep : Rep t₀ ctx (.node c e L R)
  apart : ∀ o ∈ (plug ctx (.node c e L R)).toList, o.addr ≠ ey.addr
  pos : ey.addr ≠ null
  bound : ey.addr < t.fresh
  left : addrOf L ≠ null
  old : ∃ r', t.nodes e.addr = cell .left c e (addrOf L) r' (parent ctx)
  new : ∃ cy l' p', t.nodes ey.addr = cell .left cy ey l' (addrOf R) p'
  right : ∀ o ∈ R.toList, t.nodes o.addr =
    if o.addr = addrOf R then (t₀.nodes o.addr).setP ey.addr else t₀.nodes o.addr
  same : ∀ o ∈ L.toList ++ around ctx, t.nodes o.addr = t₀.nodes o.addr
  root : t.root = t₀.root
  fresh : t.fresh = t₀.fresh
  sentinel : Sentinel (t.nodes null)

lemma rep_takePlace {t₀ : Tree K V} (h : Detached ctx L R c e ey t₀ t) :
    Rep (takePlace t e.addr ey.addr) ctx (.node c ey L R) ∧
    Keeps t (takePlace t e.addr ey.addr) := by
  have hfork : Rep t₀ ctx (fork .left c e L R) := h.rep
  obtain ⟨hLe, hRe, hpathe, hLR, hLpath, hRpath, hnodupL, hnodupPath⟩ := rep_apartAt hfork
  have hnodupR := (rep_apartAt (d := .right) (x := R) (y := L) h.rep).nodup_near
  have hbounds := hfork.bounds
  have hmem {o : Entry K V} (ho : o ∈ (fork .left c e L R).toList) : o.addr ≠ ey.addr :=
    h.apart o (mem_plug.mpr (.inl ho))
  simp only [mem_append, mem_fork] at hbounds hmem
  have he0 : e.addr ≠ null := (hbounds e (.inl (.inl rfl))).1
  have hctx0 : ∀ o ∈ around ctx, o.addr ≠ null := fun o ho => (hbounds o (.inr ho)).1
  have hey : e.addr ≠ ey.addr := hmem (.inl rfl)
  have hctxy : ∀ o ∈ around ctx, o.addr ≠ ey.addr := fun o ho =>
    h.apart o (mem_plug.mpr (.inr ho))
  have hsame := h.same
  simp only [mem_append] at hsame
  obtain ⟨r', hz⟩ := h.old
  obtain ⟨cy, l', p', hy⟩ := h.new
  have hlq : addrOf L ≠ parent ctx := by
    obtain ⟨o, ho, heq⟩ := (addrOf_mem L).resolve_left h.left
    have ho0 := (hbounds o (.inl (.inr (.inl ho)))).1
    rw [heq]
    exact (parent_ne ho0 fun o' ho' => (hLpath o ho o' ho').symm).symm
  have hly : addrOf L ≠ ey.addr := addrOf_ne h.pos fun o ho => hmem (.inr (.inl ho))
  obtain ⟨hnodes, hroot, hnext⟩ := takePlace_assigns hz hy hey (addrOf_ne he0 hLe) hly hlq
    (parent_ne he0 hpathe) (parent_ne h.pos hctxy)
  have hnull : (takePlace t e.addr ey.addr).nodes null = t.nodes null := by
    rw [hnodes, if_neg h.pos.symm, if_neg h.left.symm,
      if_neg (not_parent fun o ho => (hctx0 o ho).symm)]
  have hperm := (perm_plug ctx (.node c ey L R)).trans
    ((perm_fork .left c ey L R).append_right (around ctx))
  have hperm0 := (perm_plug ctx (.node c e L R)).trans
    ((perm_fork .left c e L R).append_right (around ctx))
  refine ⟨⟨?_, ⟨?_, ?_, ?_⟩, ?_, ?_, ?_, ?_⟩, hnext, ?_⟩
  · have hpath : HoldsPath t e.addr ctx :=
      HoldsPath.congr h.rep.path h.root fun o ho => hsame o (.inr ho)
    refine hpath.attach hnodupPath hctx0 hroot (hpath.side_eq .left · he0 hpathe) fun o ho => ?_
    rw [hnodes, if_neg (hctxy o ho),
      if_neg (addrOf_ne (hctx0 o ho) fun o' ho' => hLpath o' ho' o ho).symm]
    rfl
  · rw [hnodes, if_pos rfl]
  · refine h.rep.tree.2.1.adopt hnodupL fun o ho => ?_
    rw [hnodes, if_neg (hmem (.inr (.inl ho))), if_neg (not_parent (hLpath o ho)),
      hsame o (.inl ho)]
  · refine h.rep.tree.2.2.adopt hnodupR fun o ho => ?_
    have ho0 := (hbounds o (.inl (.inr (.inr ho)))).1
    rw [hnodes, if_neg (hmem (.inr (.inr ho))),
      if_neg (addrOf_ne ho0 fun o' ho' => hLR o' ho' o ho).symm, if_neg (not_parent (hRpath o ho)),
      h.right o ho]
  · have hnodup := (hperm0.map Entry.addr).nodup_iff.mp h.rep.nodup
    refine (hperm.map Entry.addr).nodup_iff.mpr (nodup_cons.mpr ⟨fun hy => ?_, ?_⟩)
    · obtain ⟨o, ho, heq⟩ := mem_map.mp hy
      exact h.apart o (hperm0.mem_iff.mpr (.tail _ ho)) heq
    · exact (nodup_cons.mp hnodup).2
  · intro o ho
    rw [hnext]
    rcases mem_cons.mp (hperm.mem_iff.mp ho) with rfl | ho
    · exact ⟨Nat.pos_of_ne_zero h.pos, h.bound⟩
    · rw [h.fresh]
      exact h.rep.bound o (hperm0.mem_iff.mpr (.tail _ ho))
  · rw [hnull]
    exact h.sentinel
  · rw [hnext, h.fresh]
    exact h.rep.fresh_pos
  · rw [Tree.p, hnull, Tree.p]

end TakePlace

section MoveUp

variable {p : Path K V} {Y : Shape K V}

lemma rep_append : Rep t (p ++ ctx) x ↔ Rep t ctx (plug p x) := by
  induction p generalizing x with
  | nil => rfl
  | cons f p ih => exact rep_cons.trans ih

/-- The replacing node is the right child. -/
lemma detached_child (h : Rep t ctx (.node c e L (.node cy ey .leaf Y))) (hL : addrOf L ≠ null) :
    Detached ctx L Y c e ey (t.transplant ey.addr (addrOf Y)) (t.setP (addrOf Y) ey.addr) := by
  have hdown : Rep t (⟨.right, c, e, L⟩ :: ctx) (fork .right cy ey Y .leaf) := rep_cons.mpr h
  have ht := rep_transplant hdown
  have hrep : Rep (t.transplant ey.addr (addrOf Y)) ctx (.node c e L Y) := rep_cons.mp ht.rep
  have hapart : ∀ o ∈ around (⟨.right, c, e, L⟩ :: ctx), o.addr ≠ ey.addr :=
    (rep_apartAt hdown).path
  have hpos := hdown.node_bounds.1
  have hother : ∀ o ∈ around (⟨.right, c, e, L⟩ :: ctx), o.addr ≠ addrOf Y := fun o ho =>
    (addrOf_ne_around ht.rep ho).symm
  have hsame : ∀ o, o ≠ addrOf Y → (t.setP (addrOf Y) ey.addr).nodes o = t.nodes o :=
    fun o ho => if_neg ho
  have hold : t.nodes e.addr = _ := h.tree.1
  have hnew : t.nodes ey.addr = _ := h.tree.2.2.1
  have hyY : ey.addr ≠ addrOf Y := (addrOf_ne hpos (rep_apartAt hdown).near).symm
  have hnear : ∀ o ∈ Y.toList, o.addr ≠ e.addr := fun o ho =>
    (rep_apartAt (d := .left) hrep).far o ho
  have hmem : ∀ o ∈ L.toList ++ around ctx, o ∈ around (⟨.right, c, e, L⟩ :: ctx) := fun o ho =>
    .tail _ ho
  refine ⟨hrep, fun o ho => ?_, hpos, ?_, hL, ⟨ey.addr, ?_⟩, ⟨cy, null, e.addr, ?_⟩, fun o ho => ?_,
    fun o ho => ?_, ?_, ht.fresh.symm, ?_⟩
  · have ho' : o ∈ (plug (⟨.right, c, e, L⟩ :: ctx) Y).toList := ho
    exact (mem_plug.mp ho').elim ((rep_apartAt hdown).near o) (hapart o)
  · exact hdown.node_bounds.2
  · rw [hsame _ (hother e mem_cons_self), hold]
    rfl
  · rw [hsame _ hyY, hnew]
    rfl
  · rw [Tree.setP, nodes_modify]
    by_cases heq : o.addr = addrOf Y
    · rw [if_pos heq, if_pos heq, heq, ht.moved]
      rfl
    · rw [if_neg heq, if_neg heq, ht.other _ heq (hnear o ho)]
  · have hoe : o.addr ≠ e.addr := (mem_append.mp ho).elim ((rep_apartAt (d := .left) hrep).near o)
      ((rep_apartAt (d := .left) hrep).path o)
    rw [hsame _ (hother o (hmem o ho)), ht.other _ (hother o (hmem o ho)) hoe]
  · exact (ht.root (Rep.node_bounds (d := .left) hrep).1).symm
  · rw [Tree.setP, nodes_modify]
    split
    · exact h.sentinel.setP _
    · exact h.sentinel

/-- The replacing node has been taken out deeper in the right subtree. -/
lemma detached_deep {t1 : Tree K V} (h : Rep t1 ctx (.node c e L R)) (hL : addrOf L ≠ null)
    (hR : addrOf R ≠ null) (hapart : ∀ o ∈ (plug ctx (.node c e L R)).toList, o.addr ≠ ey.addr)
    (hpos : ey.addr ≠ null) (hbound : ey.addr < t1.fresh) {l' r' p' : Addr}
    (hy : t1.nodes ey.addr = cell .left cy ey l' r' p') :
    Detached ctx L R c e ey t1 ((t1.setR ey.addr (addrOf R)).setP (addrOf R) ey.addr) := by
  have hfork : Rep t1 ctx (fork .left c e L R) := h
  obtain ⟨-, hRe, -, hLR, -, hRpath, -, -⟩ := rep_apartAt hfork
  have he0 := hfork.node_bounds.1
  have hmem {o : Entry K V} (ho : o ∈ (fork .left c e L R).toList) : o.addr ≠ ey.addr :=
    hapart o (mem_plug.mpr (.inl ho))
  simp only [mem_fork] at hmem
  have hRy : addrOf R ≠ ey.addr := addrOf_ne hpos fun o ho => hmem (.inr (.inr ho))
  have hsame : ∀ o, o ≠ ey.addr → o ≠ addrOf R →
      ((t1.setR ey.addr (addrOf R)).setP (addrOf R) ey.addr).nodes o = t1.nodes o := by
    intro o hoy hoR
    rw [Tree.setP, nodes_modify, if_neg hoR, Tree.setR, Tree.setChild, nodes_modify, if_neg hoy]
  refine ⟨h, hapart, hpos, hbound, hL, ⟨addrOf R, ?_⟩, ⟨cy, l', p', ?_⟩, fun o ho => ?_,
    fun o ho => ?_, rfl, rfl, ?_⟩
  · rw [hsame _ (hmem (.inl rfl)) (addrOf_ne he0 hRe).symm]
    exact h.tree.1
  · rw [Tree.setP, nodes_modify, if_neg hRy.symm, Tree.setR, Tree.setChild, nodes_modify,
      if_pos rfl, hy]
    rfl
  · rw [Tree.setP, nodes_modify, Tree.setR, Tree.setChild, nodes_modify,
      if_neg (hmem (.inr (.inr ho)))]
  · have ho' : o ∈ (plug ctx (.node c e L R)).toList :=
      mem_plug.mpr ((mem_append.mp ho).imp_left fun ho =>
        mem_fork (d := .left).mpr (.inr (.inl ho)))
    have hoR : o.addr ≠ addrOf R := by
      rcases mem_append.mp ho with ho | ho
      · have ho0 := (hfork.bounds o (mem_append_left _ (mem_fork.mpr (.inr (.inl ho))))).1
        exact (addrOf_ne ho0 fun o' ho' => (hLR o ho o' ho').symm).symm
      · have ho0 := (hfork.bounds o (mem_append_right _ ho)).1
        exact (addrOf_ne ho0 fun o' ho' => hRpath o' ho' o ho).symm
    exact hsame _ (hapart o ho') hoR
  · rw [hsame null hpos.symm hR.symm]
    exact h.sentinel

/-- The place that a node leaves when it is moved up. -/
lemma rep_moveUp (h : Rep t ctx (.node c e L (plug p (.node cy ey .leaf Y))))
    (hL : addrOf L ≠ null) :
    Rep (t.moveUp e.addr ey.addr) (p ++ ⟨.right, c, ey, L⟩ :: ctx) Y ∧
      (t.moveUp e.addr ey.addr).fresh = t.fresh ∧
      (t.moveUp e.addr ey.addr).p (addrOf Y) = parent (p ++ ⟨.right, c, ey, L⟩ :: ctx) := by
  have hdown : Rep t (p ++ ⟨.right, c, e, L⟩ :: ctx) (fork .right cy ey Y .leaf) :=
    rep_append.mpr (rep_cons.mpr h)
  have ht := rep_transplant hdown
  have hnode : t.nodes ey.addr = _ := hdown.tree.1
  have hY : t.r ey.addr = addrOf Y := by rw [Tree.r, hnode, cell]
  have hpar : t.p ey.addr = parent (p ++ ⟨.right, c, e, L⟩ :: ctx) := by rw [Tree.p, hnode, cell]
  have hpos := hdown.node_bounds.1
  -- it suffices to know the heap before the last lines
  have hfinish : ∀ {t1 t2 : Tree K V}, Detached ctx L (plug p Y) c e ey t1 t2 →
      t.moveUp e.addr ey.addr = takePlace t2 e.addr ey.addr → t2.fresh = t.fresh →
      (addrOf Y = null → t2.p null = parent (p ++ ⟨.right, c, ey, L⟩ :: ctx)) →
      Rep (t.moveUp e.addr ey.addr) (p ++ ⟨.right, c, ey, L⟩ :: ctx) Y ∧
        (t.moveUp e.addr ey.addr).fresh = t.fresh ∧
        (t.moveUp e.addr ey.addr).p (addrOf Y) = parent (p ++ ⟨.right, c, ey, L⟩ :: ctx) := by
    intro t1 t2 hdet hrun hnext hplace
    obtain ⟨hrep, hkeeps⟩ := rep_takePlace hdet
    have hrep' : Rep (takePlace t2 e.addr ey.addr) (p ++ ⟨.right, c, ey, L⟩ :: ctx) Y :=
      rep_append.mpr (rep_cons.mpr hrep)
    rw [hrun]
    refine ⟨hrep', hkeeps.fresh.trans hnext, ?_⟩
    by_cases hnull : addrOf Y = null
    · rw [hnull, hkeeps.null, hplace hnull]
    · exact p_addrOf hrep'.tree hnull
  cases p with
  | nil =>
    refine hfinish (detached_child h hL) ?_ rfl fun hnull => ?_
    · rw [moveUp_eq, hpar, hY]
      exact congrArg (fun t => takePlace t e.addr ey.addr) (if_pos rfl)
    · rw [plug, hnull, Tree.p, Tree.setP, nodes_modify, if_pos rfl, setP_p]
      rfl
  | cons f p =>
    have hrep : Rep (t.transplant ey.addr (addrOf Y)) ctx (.node c e L (plug (f :: p) Y)) :=
      rep_cons.mp (rep_append.mp ht.rep)
    have hf : f.label ∈ (plug (f :: p) Y).toList := mem_plug.mpr (.inr mem_cons_self)
    have hR : addrOf (plug (f :: p) Y) ≠ null :=
      addrOf_ne_null_of_mem (rep_cons (f := ⟨.right, c, e, L⟩) |>.mpr hrep) hf
    have hne : f.label.addr ≠ e.addr := (rep_apartAt (d := .left) hrep).far _ hf
    have hz : (t.transplant ey.addr (addrOf Y)).r e.addr = addrOf (plug (f :: p) Y) := by
      have hz : (t.transplant ey.addr (addrOf Y)).nodes e.addr = _ := hrep.tree.1
      rw [Tree.r, hz, cell]
    have hapart : ∀ o ∈ (plug ctx (.node c e L (plug (f :: p) Y))).toList, o.addr ≠ ey.addr := by
      intro o ho
      have ho' : o ∈ (plug (f :: p ++ ⟨.right, c, e, L⟩ :: ctx) Y).toList := by
        rwa [plug_append]
      exact (mem_plug.mp ho').elim ((rep_apartAt hdown).near o) ((rep_apartAt hdown).path o)
    have hbound : ey.addr < (t.transplant ey.addr (addrOf Y)).fresh := by
      rw [ht.fresh]
      exact hdown.node_bounds.2
    have hdet := detached_deep hrep hL hR hapart hpos hbound (ht.node.trans hnode)
    refine hfinish hdet ?_ ht.fresh fun hnull => ?_
    · rw [moveUp_eq, hpar, hY, hz]
      refine congrArg (fun t => takePlace t e.addr ey.addr) ((if_neg hne).trans ?_)
      have hr : ((t.transplant ey.addr (addrOf Y)).setR ey.addr (addrOf (plug (f :: p) Y))).r
        ey.addr =
          addrOf (plug (f :: p) Y) := by
        simp [Tree.r, Tree.setR, Tree.setChild, Node.setChild]
      rw [hr]
    · rw [Tree.p, Tree.setP, nodes_modify, if_neg hR.symm, Tree.setR, Tree.setChild, nodes_modify,
        if_neg hpos.symm, ← hnull, ht.moved, setP_p]
      rfl

end MoveUp

section Delete

variable {fuel : Nat}

/-- The first node of a tree on one side is at the end of a path to that side. -/
lemma treeEnd_spec {y : Shape K V} (hrep : Rep t ctx (fork d c e x y))
    (hfuel : x.toList.length < fuel) :
    ∃ p cy ey Y, plug p (fork d cy ey .leaf Y) = fork d c e x y ∧ (∀ f ∈ p, f.side = d) ∧
      Tree.treeEnd d fuel t e.addr = some ey.addr := by
  induction fuel generalizing ctx c e x y with
  | zero => omega
  | succ fuel ih =>
    have hchild : t.child e.addr d = addrOf x := by
      rw [Tree.child, (holds_fork.mp hrep.tree).1, cell_child]
    rw [Tree.treeEnd, hchild]
    rcases x.eq_leaf_or_fork d with rfl | ⟨c', e', x', y', rfl⟩
    · exact ⟨[], c, e, y, rfl, forall_mem_nil _, if_neg fun h => h rfl⟩
    have hdown : Rep t (⟨d, c, e, y⟩ :: ctx) (fork d c' e' x' y') := rep_cons.mpr hrep
    have hlength := (perm_fork d c' e' x' y').length_eq
    rw [length_cons, length_append] at hlength
    obtain ⟨p, cy, ey, Y, hplug, hside, hrun⟩ := ih hdown (by omega)
    refine ⟨p ++ [⟨d, c, e, y⟩], cy, ey, Y, ?_, ?_, ?_⟩
    · rw [plug_append, hplug]
      rfl
    · intro f hf
      rcases mem_append.mp hf with hf | hf
      · exact hside f hf
      · rw [mem_singleton.mp hf]
    · rwa [addrOf_fork, if_pos hdown.node_bounds.1]

/-- What is left is a tree with these entries. -/
def Rebuilt (run : Option (Tree K V)) (l : List (Entry K V)) (fresh : Nat) : Prop :=
  ∃ t' s', run = some t' ∧ Rep t' [] s' ∧ Fits [] s' ∧ s'.toList = l ∧ t'.fresh = fresh

lemma fixup_spec (hrep : Rep t ctx x) (hplace : t.p (addrOf x) = parent ctx)
    (hfits : Fits ctx (fork d c e x .leaf)) (hfuel : 2 * t.fresh + 1 < fuel) :
    Rebuilt (if colorInt c = 0 then Tree.dfixup fuel t (addrOf x) else some t)
      (plug ctx x).toList t.fresh := by
  cases c with
  | red => exact ⟨t, _, if_neg (by decide), rep_plug hrep, hfits.remove_red.plug, rfl, rfl⟩
  | black =>
    obtain ⟨h, hpath, hshort⟩ := hfits.remove_black
    have hlength := Nat.le_trans (length_path_le ctx x) hrep.length_le
    have hsteps : steps ctx x < fuel := by
      rw [steps]
      split <;> omega
    obtain ⟨t', s', hrun, hrep', hfits', hlist, hkeeps⟩ :=
      dfixup_spec hsteps ⟨hrep, hplace, hpath, hshort⟩
    exact ⟨t', s', (if_pos rfl).trans hrun, hrep', hfits', hlist, hkeeps.fresh⟩

lemma delete_single (hrep : Rep t ctx (fork d c e x .leaf))
    (hfits : Fits ctx (fork d c e x .leaf)) (hfuel : 2 * t.fresh + 1 < fuel) :
    Rebuilt (if colorInt c = 0 then
        Tree.dfixup fuel (t.transplant e.addr (addrOf x)) (addrOf x)
      else some (t.transplant e.addr (addrOf x))) (plug ctx x).toList t.fresh := by
  have ht := rep_transplant hrep
  have hfixup := fixup_spec ht.rep ht.place hfits (by rwa [ht.fresh])
  rwa [ht.fresh] at hfixup

lemma deleteNode_spec {l r : Shape K V} (hrep : Rep t ctx (.node c e l r))
    (hfits : Fits ctx (.node c e l r)) (hfuel : 2 * t.fresh + 1 < fuel) :
    Rebuilt (Tree.deleteNode t fuel e.addr) (earlier ctx ++ (l.toList ++ (r.toList ++ later ctx)))
      t.fresh := by
  obtain ⟨hnull, -, hl, hr⟩ := node_step hrep
  have hc : t.c e.addr = colorInt c := c_addrOf (s := .node c e l r) hrep.tree hrep.null_black
  unfold Tree.deleteNode
  dsimp only
  rw [hl, hr, hc]
  cases l with
  | leaf =>
    have hsingle := delete_single (d := .right) hrep hfits hfuel
    rwa [toList_plug] at hsingle
  | node cl el ll rl =>
    have hleft : Rep t (⟨.left, c, e, r⟩ :: ctx) (.node cl el ll rl) := rep_cons.mpr hrep
    rw [addrOf, if_neg (node_step hleft).1]
    cases r with
    | leaf =>
      have hsingle := delete_single (d := .left) hrep hfits hfuel
      rwa [toList_plug] at hsingle
    | node cr er lr rr =>
      have hright : Rep t (⟨.right, c, e, .node cl el ll rl⟩ :: ctx) (.node cr er lr rr) :=
        rep_cons.mpr hrep
      have hlength : lr.toList.length < fuel := by
        have hle := hright.length_le
        rw [(perm_plug _ _).length_eq] at hle
        simp only [toList, length_append, length_cons] at hle
        omega
      obtain ⟨p, cy, ey, Y, hplug, hside, hmin⟩ := treeEnd_spec (d := .left) hright hlength
      have hearlier := earlier_eq_nil hside
      dsimp only [fork] at hplug
      rw [← hplug] at hrep hfits
      have hdown : Rep t (p ++ ⟨.right, c, e, .node cl el ll rl⟩ :: ctx)
        (fork .right cy ey Y .leaf) :=
        rep_append.mpr (rep_cons.mpr hrep)
      have hfitsDown : Fits (p ++ ⟨.right, c, e, .node cl el ll rl⟩ :: ctx)
          (fork .right cy ey Y .leaf) :=
        Fits.descend (Fits.down (d := .right) hfits)
      have hcy : t.c ey.addr = colorInt cy := by
        rw [Tree.c, (holds_fork.mp hdown.tree).1, cell_c]
      have hry : t.r ey.addr = addrOf Y := by
        rw [Tree.r, (holds_fork.mp hdown.tree).1, cell]
      obtain ⟨hmoved, hmovedNext, hplace⟩ := rep_moveUp hrep (node_step hleft).1
      obtain ⟨t', s', hrun, hrep', hfits', hlist, hnext⟩ :=
        fixup_spec hmoved hplace (hfitsDown.relabel_path ey) (by rwa [hmovedNext])
      refine ⟨t', s', ?_, hrep', hfits', ?_, hnext.trans hmovedNext⟩
      · rw [addrOf, if_neg (node_step hright).1, Tree.treeMin, hmin]
        dsimp only
        rwa [hcy, hry]
      · rw [hlist, plug_append, toList_plug, ← hplug, toList_plug, hearlier]
        simp [toList_plug, hearlier, earlier, later, toList]

variable {cmp : K → K → Ordering} {k : K}

variable (cmp k) in
/-- What `delete` does to the entries. -/
inductive DeleteList : List (Entry K V) → List (Entry K V) → Prop where
  | remove {a b : List (Entry K V)} {e : Entry K V} (h : cmp k e.k = .eq) :
      DeleteList (a ++ e :: b) (a ++ b)
  | absent {l : List (Entry K V)} (h : ∀ e ∈ l, cmp k e.k ≠ .eq) : DeleteList l l

lemma DeleteList.sorted {l l' : List (Entry K V)} (h : DeleteList cmp k l l')
    (hsorted : Sorted cmp l) : Sorted cmp l' := by
  cases h with
  | remove h => exact hsorted.sublist (Sublist.append_left (sublist_cons_self _ _) _)
  | absent h => exact hsorted

lemma delete_spec [TransCmp cmp] {s : Shape K V} (h : IsTree cmp t s)
    (hfuel : 2 * t.fresh + 1 < fuel) :
    ∃ t' s', t.delete cmp fuel k = some t' ∧ IsTree cmp t' s' ∧
    DeleteList cmp k s.toList s'.toList ∧
      t'.fresh = t.fresh := by
  obtain ⟨ctx, u, hu⟩ := h.located k
  rw [Tree.delete, hu.findNode_eq h (by omega)]
  cases u with
  | leaf => exact ⟨t, _, if_neg fun hne => hne rfl, h, .absent hu.ne_of_leaf, rfl⟩
  | node c e l r =>
    obtain ⟨-, rfl, hrep, hfits, -, hfound⟩ := hu
    obtain ⟨t', s', hrun, hrep', hfits', hlist, hnext⟩ := deleteNode_spec hrep hfits hfuel
    have hdelete : DeleteList cmp k (plug ctx (.node c e l r)).toList s'.toList := by
      have hremove := DeleteList.remove (a := earlier ctx ++ l.toList) (b := r.toList ++ later ctx)
        (hfound c e l r rfl)
      rw [hlist]
      simpa [toList_plug, toList] using hremove
    exact ⟨t', s', (if_pos (node_step hrep).1).trans hrun, ⟨hrep', hfits', hdelete.sorted h.sorted⟩,
      hdelete, hnext⟩

end Delete

end TyLang.Trees
