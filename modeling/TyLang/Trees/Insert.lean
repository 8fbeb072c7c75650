import TyLang.Trees.Heap

/-!
`ifixup`: a red node below a red one is moved up until the tree is red-black again. Each round is
one of three changes of the tree, and the heap follows them.
-/
namespace TyLang.Trees
open RedBlack
open RedBlack.Tree (fork toList rootColor fork_flip rootColor_fork exists_fork_of_red
  toList_fork_congr toList_rotate toList_blacken mem_fork rootColor_blacken)

variable {K V : Type} {t : Tree K V} {ctx : Path K V} {s S U : Shape K V} {d e : Side}
  {P G z : Entry K V} {h : Nat}

section Reading

@[simp] lemma p_setC (t : Tree K V) (x o : Addr) (c : Int) : (t.setC x c).p o = t.p o := by
  simp only [Tree.p, Tree.setC, nodes_modify]
  split <;> rfl

@[simp] lemma child_setC (t : Tree K V) (x o : Addr) (c : Int) (d : Side) :
    (t.setC x c).child o d = t.child o d := by
  simp only [Tree.child, Tree.setC, nodes_modify]
  split
  · cases d <;> rfl
  · rfl

lemma c_addrOf {p : Addr} (hs : Holds t p s) (hnull : t.c null = 0) :
    t.c (addrOf s) = colorInt s.rootColor := by
  cases s with
  | leaf => exact hnull
  | node c e l r => rw [addrOf, Tree.c, hs.1, cell_c, rootColor]

lemma p_addrOf {p : Addr} (hs : Holds t p s) (hnull : addrOf s ≠ null) : t.p (addrOf s) = p := by
  cases s with
  | leaf => exact absurd rfl hnull
  | node c e l r => rw [addrOf, Tree.p, hs.1, cell_p]

lemma addrOf_ne_null (hrep : Rep t ctx s) (hred : s.rootColor = .red) : addrOf s ≠ null := by
  obtain ⟨a, x, y, rfl⟩ := exists_fork_of_red .left hred
  rw [addrOf_fork]
  exact hrep.node_bounds.1

lemma Keeps.trans {t t' t'' : Tree K V} (h : Keeps t t') (h' : Keeps t' t'') : Keeps t t'' :=
  ⟨h'.fresh.trans h.fresh, h'.null.trans h.null⟩

end Reading

section Rounds

variable (t ctx s h) in
/-- A red node that may have a red parent. -/
structure Inserted : Prop where
  rep : Rep t ctx s
  red : s.rootColor = .red
  path : RBPath h ctx
  tree : RB h s

/-- With a red uncle the parent and the uncle get the colour of the grandparent. -/
lemma recolor_uncle (hrep : Rep t (⟨e, .red, P, S⟩ :: ⟨d, .black, G, U⟩ :: ctx) s)
    (hU : U.rootColor = .red) :
    Rep (((t.setC P.addr 0).setC (addrOf U) 0).setC G.addr 1) ctx
      (fork d .red G (fork e .black P s S) U.blacken) ∧
    Keeps t (((t.setC P.addr 0).setC (addrOf U) 0).setC G.addr 1) := by
  obtain ⟨u, x, y, rfl⟩ := exists_fork_of_red .left hU
  obtain ⟨hP, hkP⟩ := rep_setC .black (rep_cons.mp hrep)
  have hside : Rep (t.setC P.addr 0) (⟨d.flip, .black, G, fork e .black P s S⟩ :: ctx)
      (fork .left .red u x y) := by
    rw [rep_cons, fork_flip]
    exact rep_cons.mp hP
  obtain ⟨hu, hku⟩ := rep_setC .black hside
  rw [rep_cons, fork_flip] at hu
  obtain ⟨hG, hkG⟩ := rep_setC .red hu
  rw [addrOf_fork, RedBlack.Tree.blacken_fork]
  exact ⟨hG, hkP.trans (hku.trans hkG)⟩

/-- With the node on the inner side its parent is rotated to the outside. -/
lemma rotate_inner {B C : Shape K V}
    (hrep : Rep t (⟨d.flip, .red, P, S⟩ :: ctx) (fork d .red z B C)) :
    Rep (t.rotate d P.addr) (⟨d, .red, z, C⟩ :: ctx) (fork d .red P S B) ∧
      Keeps t (t.rotate d P.addr) := by
  rw [rep_cons, fork_flip] at hrep
  obtain ⟨hrot, hkeeps⟩ := rep_rotate hrep
  exact ⟨rep_cons.mpr hrot, hkeeps⟩

/-- With the node on the outer side its parent takes the place of the grandparent. -/
lemma liftParent_outer (hrep : Rep t (⟨d, .red, P, S⟩ :: ⟨d, .black, G, U⟩ :: ctx) s)
    (hs : addrOf s ≠ null) :
    Rep (t.liftParent d (addrOf s)) (⟨d, .black, P, fork d .red G S U⟩ :: ctx) s ∧
      Keeps t (t.liftParent d (addrOf s)) := by
  have hp : t.p (addrOf s) = P.addr := p_addrOf hrep.tree hs
  have hpp : t.p P.addr = G.addr := by rw [Tree.p, hrep.path.1, cell_p, parent]
  have hrun : t.liftParent d (addrOf s) =
      ((t.setC P.addr 0).setC G.addr 1).rotate d.flip G.addr := by
    simp only [Tree.liftParent, hp, hpp, p_setC]
  obtain ⟨hP, hkP⟩ := rep_setC .black (rep_cons.mp hrep)
  obtain ⟨hG, hkG⟩ := rep_setC .red (rep_cons.mp hP)
  dsimp only at hG
  rw [← fork_flip, ← fork_flip d .black] at hG
  obtain ⟨hrot, hkrot⟩ := rep_rotate hG
  rw [fork_flip, fork_flip] at hrot
  rw [hrun]
  exact ⟨rep_cons.mpr hrot, hkP.trans (hkG.trans hkrot)⟩

variable (t ctx s) in
/-- What a round of `ifixup` makes of a red node with a red parent. -/
structure Round (t' : Tree K V) (z' : Addr) (ctx' : Path K V) (s' : Shape K V) (h' : Nat) :
    Prop where
  inserted : Inserted t' ctx' s' h'
  addr : z' = addrOf s'
  shorter : ctx'.length < ctx.length
  list : (plug ctx' s').toList = (plug ctx s).toList
  keeps : Keeps t t'

/-- The outer case leaves a red node below a black one. -/
lemma Inserted.outer (hins : Inserted t (⟨d, .red, P, S⟩ :: ⟨d, .black, G, U⟩ :: ctx) s h)
    (hU : U.rootColor = .black) :
    Round t (⟨d, .red, P, S⟩ :: ⟨d, .black, G, U⟩ :: ctx) s (t.liftParent d (addrOf s)) (addrOf s)
      (⟨d, .black, P, fork d .red G S U⟩ :: ctx) s h := by
  obtain ⟨hrep, hkeeps⟩ := liftParent_outer hins.rep (addrOf_ne_null hins.rep hins.red)
  refine ⟨⟨hrep, hins.red, ?_, hins.tree⟩, rfl, Nat.lt_succ_self _, ?_, hkeeps⟩
  · cases hins.path with
    | red hS cS _ hctx =>
      cases hctx with
      | black hU' hctx => exact .black (hS.fork_red hU' cS hU) hctx
  · refine toList_plug_congr ctx ?_
    dsimp only
    rw [toList_rotate]
    exact toList_fork_congr _ _ _ _ (toList_fork_congr _ _ _ _ rfl rfl) rfl

/-- The inner case becomes the outer one. -/
lemma Inserted.inner {f : Frame (Entry K V)} {B C : Shape K V}
    (hins : Inserted t (⟨d.flip, .red, P, S⟩ :: f :: ctx) (fork d .red z B C) h) :
    Inserted (t.rotate d P.addr) (⟨d, .red, z, C⟩ :: f :: ctx) (fork d .red P S B) h := by
  obtain ⟨hB, hC, cB, cC⟩ := hins.tree.of_fork_red
  cases hins.path with
  | red hS cS cf hctx =>
    exact ⟨(rotate_inner hins.rep).1, rootColor_fork .., .red hC cC cf hctx, hS.fork_red hB cS cB⟩

lemma ifixupRound_inserted (hins : Inserted t (⟨e, .red, P, S⟩ :: ⟨d, .black, G, U⟩ :: ctx) s h) :
    ∃ ctx' s' h', Round t (⟨e, .red, P, S⟩ :: ⟨d, .black, G, U⟩ :: ctx) s
      (t.ifixupRound d (addrOf s)).1 (t.ifixupRound d (addrOf s)).2 ctx' s' h' := by
  have hrep := hins.rep
  have hz := addrOf_ne_null hrep hins.red
  have hzP : t.p (addrOf s) = P.addr := p_addrOf hrep.tree hz
  have hPG : t.p P.addr = G.addr := by rw [Tree.p, hrep.path.1, cell_p, parent]
  have hGU : t.child G.addr d.flip = addrOf U := by
    rw [Tree.child, hrep.path.2.2.1, cell_child_flip]
  have hUc : t.c (addrOf U) = colorInt U.rootColor := c_addrOf hrep.path.2.2.2.1 hrep.null_black
  unfold Tree.ifixupRound
  simp only [hzP, hPG, hGU, hUc, p_setC]
  cases hins.path with
  | red hS cS _ hctx =>
  cases hctx with
  | black hU' hctx =>
  cases hU : U.rootColor with
  | red =>
    obtain ⟨hrep', hkeeps⟩ := recolor_uncle hrep hU
    have hlist : (plug ctx (fork d .red G (fork e .black P s S) U.blacken)).toList =
        (plug ctx (fork d .black G (fork e .red P s S) U)).toList :=
      toList_plug_congr ctx (toList_fork_congr _ _ _ _ (toList_fork_congr _ _ _ _ rfl rfl)
        (toList_blacken U))
    have htree : RB (h + 1) (fork d .red G (fork e .black P s S) U.blacken) :=
      (hins.tree.fork_black hS).fork_red (hU'.blacken_of_red hU) (rootColor_fork ..)
        (rootColor_blacken U)
    rw [if_pos (by decide)]
    exact ⟨ctx, _, h + 1, ⟨hrep', rootColor_fork .., hctx, htree⟩, (addrOf_fork ..).symm,
      Nat.lt_succ_of_lt (Nat.lt_succ_self _), hlist, hkeeps⟩
  | black =>
    rw [if_neg (by decide)]
    rcases d.eq_or_eq_flip e with rfl | rfl
    · have hne : addrOf s ≠ t.child P.addr e.flip := by
        rw [Tree.child, hrep.path.1, cell_child_flip]
        have hapart := (rep_apartAt (rep_cons.mp hrep)).near_far
        obtain ⟨o, ho, heq⟩ := (addrOf_mem s).resolve_left hz
        rw [heq] at hz ⊢
        exact (addrOf_ne hz fun o' ho' => (hapart o ho o' ho').symm).symm
      rw [if_neg hne]
      exact ⟨_, _, _, hins.outer hU⟩
    · have heq : addrOf s = t.child P.addr d.flip := by
        rw [Tree.child, hrep.path.1, cell_child]
      rw [if_pos heq]
      obtain ⟨z, B, C, rfl⟩ := exists_fork_of_red d hins.red
      have hround := hins.inner.outer hU
      rw [addrOf_fork] at hround
      refine ⟨_, _, _, hround.inserted, hround.addr, hround.shorter, ?_,
        (rotate_inner hrep).2.trans hround.keeps⟩
      rw [hround.list]
      refine toList_plug_congr ctx (toList_fork_congr _ _ _ _ ?_ rfl)
      dsimp only
      rw [fork_flip, toList_rotate]

end Rounds

section Loop

lemma rep_plug (hrep : Rep t ctx s) : Rep t [] (plug ctx s) := by
  induction ctx generalizing s with
  | nil => exact hrep
  | cons f ctx ih => exact ih (rep_cons.mp hrep)

lemma rep_blacken (hrep : Rep t ctx s) :
    Rep (t.setC (addrOf s) 0) ctx s.blacken ∧ Keeps t (t.setC (addrOf s) 0) := by
  cases s with
  | node c e l r => exact rep_setC (d := .left) .black hrep
  | leaf =>
    have hsame : ∀ o, o ≠ null → (t.setC null 0).nodes o = t.nodes o := fun o ho => if_neg ho
    refine ⟨⟨?_, trivial, hrep.nodup, hrep.bound, ?_, hrep.fresh_pos⟩, rfl, p_setC ..⟩
    · exact hrep.path.congr rfl fun e he => hsame _ (hrep.bounds e (List.mem_append_right _ he)).1
    · rw [addrOf, Tree.setC, nodes_modify, if_pos rfl]
      exact ⟨rfl, hrep.sentinel.left, hrep.sentinel.right⟩

lemma ifixup_spec {fuel : Nat} (hfuel : ctx.length < fuel) (hins : Inserted t ctx s h) :
    ∃ t' s', Tree.ifixup fuel t (addrOf s) = some t' ∧ Rep t' [] s' ∧ Fits [] s' ∧
      s'.toList = (plug ctx s).toList ∧ Keeps t t' := by
  induction fuel generalizing t ctx s h with
  | zero => omega
  | succ fuel ih =>
    have hrep := hins.rep
    have hz := addrOf_ne_null hrep hins.red
    have hp : t.p (addrOf s) = parent ctx := p_addrOf hrep.tree hz
    have hstop : t.c (parent ctx) = 0 → Fits [] (plug ctx s).blacken →
        ∃ t' s', Tree.ifixup (fuel + 1) t (addrOf s) = some t' ∧ Rep t' [] s' ∧ Fits [] s' ∧
          s'.toList = (plug ctx s).toList ∧ Keeps t t' := by
      intro hc hfits
      obtain ⟨hrep', hkeeps⟩ := rep_blacken (rep_plug hrep)
      have hroot : t.root = addrOf (plug ctx s) := (rep_plug hrep).path
      refine ⟨_, _, ?_, hrep', hfits, RedBlack.Tree.toList_blacken _, hkeeps⟩
      rw [Tree.ifixup, hp, if_pos hc, hroot]
    cases hins.path with
    | nil =>
      refine hstop hrep.null_black (fits_nil.mpr ⟨h + 1, hins.tree.blacken_of_red hins.red, ?_⟩)
      exact rootColor_blacken s
    | black hS hctx =>
      refine hstop ?_ (Fits.blacken (Fits.plug ⟨h, hins.path, hins.tree, fun _ => ⟨_, rfl, rfl⟩⟩))
      rw [parent, Tree.c, hrep.path.1, cell_c, colorInt]
    | @red _ e P S g ctx hS cS cf hctx =>
      obtain ⟨d, c, G, U⟩ := g
      obtain rfl : c = .black := cf
      have hc : t.c P.addr ≠ 0 := by
        rw [Tree.c, hrep.path.1, cell_c, colorInt]
        decide
      have hpp : t.p P.addr = G.addr := by rw [Tree.p, hrep.path.1, cell_p, parent]
      have hup := rep_cons.mp hrep
      have hG : G.addr ≠ null := (hup.bounds G (List.mem_append_right _ List.mem_cons_self)).1
      have hpath := hup.path
      rw [addrOf_fork] at hpath
      have hside : (if P.addr = t.l G.addr then Side.left else Side.right) = d :=
        hpath.side_eq .left hG hup.node_bounds.1 (rep_apartAt hup).path
      obtain ⟨ctx', s', h', hround⟩ := ifixupRound_inserted hins
      have hshorter := hround.shorter
      obtain ⟨t', u, hrun, hu, hfits, hlist, hkeeps⟩ := ih (by omega) hround.inserted
      refine ⟨t', u, ?_, hu, hfits, hlist.trans hround.list, hround.keeps.trans hkeeps⟩
      rw [← hround.addr] at hrun
      rw [Tree.ifixup, hp, parent, if_neg hc, hpp]
      dsimp only
      rwa [hside]

end Loop

end TyLang.Trees
