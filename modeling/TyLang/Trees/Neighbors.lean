import TyLang.Trees.Allocated
import TyLang.Trees.Runs

/-!
`next` and `prev`: the way up from a node without a subtree on the side of its neighbour. From the
last key the loop goes on from the sentinel to the sentinel's parent, which a deletion leaves set.
-/
namespace TyLang.Trees
open List RedBlack Std Option
open RedBlack.Tree (fork toList rootColor fork_flip mem_fork perm_fork)

variable {K V : Type} {cmp : K → K → Ordering} {t : Tree K V} {ctx : Path K V}
    {s near far : Shape K V}
  {d : Side} {c : Color} {e : Entry K V} {k : K} {fuel : Nat}

section Climb

variable {f : Frame (Entry K V)}

lemma climb_turn (hrep : Rep t (f :: ctx) s) (hs : addrOf s ≠ null) (hside : f.side = d) :
    Tree.climb d (fuel + 1) t (addrOf s) = some f.label.addr := by
  have hp : t.p (addrOf s) = f.label.addr := p_addrOf hrep.tree hs
  have hchild : t.child f.label.addr d = addrOf s := by
    rw [Tree.child, hrep.path.1, hside, cell_child]
  rw [Tree.climb, hp, hchild, if_neg fun h => h rfl]

lemma climb_up (hrep : Rep t (f :: ctx) s) (hs : addrOf s ≠ null) (hside : f.side ≠ d) :
    Tree.climb d (fuel + 1) t (addrOf s) = Tree.climb d fuel t f.label.addr := by
  have hp : t.p (addrOf s) = f.label.addr := p_addrOf hrep.tree hs
  have hflip : f.side = d.flip := (d.eq_or_eq_flip f.side).resolve_left hside
  have hchild : t.child f.label.addr d = addrOf f.sib := by
    rw [Tree.child, hrep.path.1, hflip, cell_flip, cell_child]
  have hapart := (rep_apartAt (rep_cons.mp hrep)).near_far
  obtain ⟨a, ha, heq⟩ := (addrOf_mem s).resolve_left hs
  have hne : addrOf s ≠ addrOf f.sib := by
    rw [heq] at hs ⊢
    exact (addrOf_ne hs fun b hb => (hapart a ha b hb).symm).symm
  rw [Tree.climb, hp, hchild, if_pos hne]

lemma child_null (hrep : Rep t ctx s) (d : Side) : t.child null d = null := by
  cases d with
  | left => exact hrep.sentinel.left
  | right => exact hrep.sentinel.right

lemma climb_some {o : Entry K V} (hrep : Rep t ctx s) (hs : addrOf s ≠ null)
    (hfuel : ctx.length ≤ fuel) (ho : (beyond d ctx).head? = some o) :
    Tree.climb d fuel t (addrOf s) = some o.addr := by
  induction ctx generalizing s fuel with
  | nil => cases ho
  | cons f ctx ih =>
    obtain ⟨n, rfl⟩ := Nat.exists_eq_add_of_le' hfuel
    rw [beyond] at ho
    by_cases hside : f.side = d
    · rw [if_pos hside, head?_cons, some_inj] at ho
      rw [← ho]
      exact climb_turn hrep hs hside
    rw [if_neg hside] at ho
    have hup := rep_cons.mp hrep
    have hnull := addrOf_ne_null_of_mem hup (mem_fork.mpr (.inl rfl))
    have hrun := ih hup hnull (Nat.le_add_left ctx.length n) ho
    rw [addrOf_fork] at hrun
    exact (climb_up hrep hs hside).trans hrun

/-- Without such a step it goes on at the sentinel. -/
lemma climb_none (hrep : Rep t ctx s) (hs : addrOf s ≠ null) (hnone : beyond d ctx = []) (n : Nat) :
    Tree.climb d (n + (ctx.length + 1)) t (addrOf s) = Tree.climb d n t null := by
  induction ctx generalizing s with
  | nil =>
    have hp : t.p (addrOf s) = null := p_addrOf hrep.tree hs
    rw [length_nil, Tree.climb, hp, child_null hrep, if_pos hs]
  | cons f ctx ih =>
    rw [beyond] at hnone
    by_cases hside : f.side = d
    · rw [if_pos hside] at hnone
      cases hnone
    rw [if_neg hside] at hnone
    have hup := rep_cons.mp hrep
    have hnull := addrOf_ne_null_of_mem hup (mem_fork.mpr (.inl rfl))
    have hrun := ih hup hnull hnone
    rw [addrOf_fork] at hrun
    exact (climb_up hrep hs hside).trans hrun

/-- The sentinel is returned only when it is its own parent. -/
lemma climb_ne_null (hrep : Rep t ctx s) (hp : t.p null ≠ null) (x : Addr) :
    Tree.climb d fuel t x ≠ some null := by
  induction fuel generalizing x with
  | zero => exact nofun
  | succ fuel ih =>
    rw [Tree.climb]
    by_cases hx : x = t.child (t.p x) d
    · rw [if_neg fun h => h hx, ne_eq, some_inj]
      intro hpx
      rw [hpx, child_null hrep] at hx
      rw [hx] at hpx
      exact hp hpx
    · rw [if_pos hx]
      exact ih _

end Climb

section Neighbor

lemma neighborNode_some {o : Entry K V} (hrep : Rep t ctx (fork d c e near far))
    (hfuel : t.fresh < fuel) (ho : (seq d far ++ beyond d ctx).head? = some o) :
    Tree.neighborNode d t fuel e.addr = some o.addr := by
  have hchild : t.child e.addr d.flip = addrOf far := by
    rw [Tree.child, (holds_fork.mp hrep.tree).1, cell_child_flip]
  have hlength := hrep.length_le
  have hpath := length_path_le ctx (fork d c e near far)
  rw [Tree.neighborNode, hchild]
  rcases far.eq_leaf_or_fork d with rfl | ⟨c', e', x, y, rfl⟩
  · rw [seq_leaf, nil_append] at ho
    have hnull := addrOf_ne_null_of_mem hrep (mem_fork.mpr (.inl rfl))
    have hrun := climb_some hrep hnull (Nat.le_of_lt (by omega : ctx.length < fuel)) ho
    rw [addrOf_fork] at hrun
    rw [addrOf, if_neg fun h => h rfl, hrun]
  · have hdown : Rep t (⟨d.flip, c, e, near⟩ :: ctx) (fork d c' e' x y) := by
      rwa [rep_cons, fork_flip]
    have hnull := addrOf_ne_null_of_mem hdown (mem_fork.mpr (.inl rfl))
    have hx : x.toList.length < fuel := by
      have hle := hdown.length_le
      rw [(perm_plug _ _).length_eq, length_append,
        (perm_fork d c' e' x y).length_eq, length_cons, length_append] at hle
      omega
    obtain ⟨p, cy, ey, Y, hplug, hside, hrun⟩ := treeEnd_spec hdown hx
    rw [← hplug, head?_append, head?_seq_plug hside, some_or, some_inj] at ho
    rw [if_pos hnull, addrOf_fork, hrun, ho]

/-- From the last node the sentinel's parent decides. -/
lemma neighborNode_none (hrep : Rep t ctx (fork d c e near far)) (hfuel : t.fresh + 2 < fuel)
    (hnone : seq d far ++ beyond d ctx = []) :
    Tree.neighborNode d t fuel e.addr = some null ↔ t.p null = null := by
  obtain ⟨hfar, hbeyond⟩ := append_eq_nil_iff.mp hnone
  rcases far.eq_leaf_or_fork d with rfl | ⟨c', e', x, y, rfl⟩
  · have hchild : t.child e.addr d.flip = null := by
      rw [Tree.child, (holds_fork.mp hrep.tree).1, cell_child_flip, addrOf]
    have hnull := addrOf_ne_null_of_mem hrep (mem_fork.mpr (.inl rfl))
    have hlength := Nat.le_trans (length_path_le ctx (fork d c e near .leaf)) hrep.length_le
    obtain ⟨n, rfl⟩ := Nat.exists_eq_add_of_le' (by omega : ctx.length + 2 ≤ fuel)
    have hrun := climb_none hrep hnull hbeyond (n + 1)
    rw [addrOf_fork] at hrun
    have hsum : n + 1 + (ctx.length + 1) = n + (ctx.length + 2) := by omega
    rw [Tree.neighborNode, hchild, if_neg fun h => h rfl, ← hsum, hrun]
    constructor
    · intro heq
      by_contra hp
      exact climb_ne_null hrep hp null heq
    · intro hp
      rw [Tree.climb, hp, child_null hrep, if_neg fun h => h rfl]
  · rw [seq_fork] at hfar
    simp at hfar

end Neighbor

section Keys

variable {m : K → Option V}

variable (cmp d) in
/-- The second key comes after the first on the way from the given side. -/
def Ahead (i j : K) : Prop :=
  match d with
  | .left => cmp i j = .lt
  | .right => cmp j i = .lt

lemma Ahead.asymm [TransCmp cmp] {i j : K} (h : Ahead cmp d i j) : ¬ Ahead cmp d j i := by
  intro h'
  cases d with
  | left | right =>
    dsimp only [Ahead] at h h'
    rw [OrientedCmp.gt_iff_lt.mpr h] at h'
    cases h'

lemma ahead_congr [TransCmp cmp] {i i' j j' : K} (hi : cmp i i' = .eq) (hj : cmp j j' = .eq) :
    Ahead cmp d i j ↔ Ahead cmp d i' j' := by
  cases d with
  | left => rw [Ahead, Ahead, TransCmp.congr_left hi, TransCmp.congr_right hj]
  | right => rw [Ahead, Ahead, TransCmp.congr_left hj, TransCmp.congr_right hi]

lemma Sorted.seq (hsorted : Sorted cmp s.toList) (d : Side) :
    (seq d s).Pairwise fun a b => Ahead cmp d a.k b.k := by
  cases d with
  | left => exact hsorted
  | right => exact pairwise_reverse.mpr hsorted

variable (cmp d k m) in
/-- The least key of the map after the given one, or `nil` when there is none. -/
def IsNeighbor : Option K → Prop
  | none => ∀ j, (m j).isSome → ¬ Ahead cmp d k j
  | some i => (m i).isSome ∧ Ahead cmp d k i ∧ ∀ j, (m j).isSome → Ahead cmp d k j →
      ¬ Ahead cmp d j i

lemma Maps.isSome_iff (hm : Maps cmp s.toList m) (d : Side) (j : K) :
    (m j).isSome ↔ ∃ o ∈ seq d s, cmp j o.k = .eq := by
  rw [isSome_iff_exists]
  constructor
  · rintro ⟨v, hv⟩
    obtain ⟨o, ho, hj, -⟩ := (hm j v).mp hv
    exact ⟨o, mem_seq.mpr ho, hj⟩
  · rintro ⟨o, ho, hj⟩
    exact ⟨o.v, (hm j o.v).mpr ⟨o, mem_seq.mp ho, hj, rfl⟩⟩

lemma mem_of_ahead [TransCmp cmp] {l l' : List (Entry K V)} {o : Entry K V} {j : K}
    (hpair : (l ++ e :: l').Pairwise fun a b => Ahead cmp d a.k b.k) (hk : cmp k e.k = .eq)
    (ho : o ∈ l ++ e :: l') (hj : cmp j o.k = .eq) (hahead : Ahead cmp d k j) : o ∈ l' := by
  have heo : Ahead cmp d e.k o.k := (ahead_congr hk hj).mp hahead
  rcases mem_append.mp ho with ho | ho
  · exact absurd ((pairwise_append.mp hpair).2.2 o ho e mem_cons_self) heo.asymm
  · rcases mem_cons.mp ho with rfl | ho
    · exact absurd heo heo.asymm
    · exact ho

lemma isNeighbor_head [TransCmp cmp] {l l' : List (Entry K V)} (hm : Maps cmp s.toList m)
    (hseq : seq d s = l ++ e :: l') (hsorted : Sorted cmp s.toList) (hk : cmp k e.k = .eq) :
    IsNeighbor cmp d k m (l'.head?.map Entry.k) := by
  have hpair := hsorted.seq d
  rw [hseq] at hpair
  have hlater : ∀ j, (m j).isSome → Ahead cmp d k j → ∃ o ∈ l', cmp j o.k = .eq := by
    intro j hmj hahead
    obtain ⟨o, ho, hj⟩ := (hm.isSome_iff d j).mp hmj
    rw [hseq] at ho
    exact ⟨o, mem_of_ahead hpair hk ho hj hahead, hj⟩
  cases l' with
  | nil =>
    intro j hmj hahead
    obtain ⟨o, ho, -⟩ := hlater j hmj hahead
    cases ho
  | cons a l' =>
    have hpair' := pairwise_cons.mp (pairwise_append.mp hpair).2.1
    refine ⟨(hm.isSome_iff d a.k).mpr ⟨a, ?_, ReflCmp.compare_self⟩, ?_, fun j hmj hahead hja => ?_⟩
    · rw [hseq]
      exact mem_append_right _ (.tail _ mem_cons_self)
    · exact (ahead_congr hk ReflCmp.compare_self).mpr (hpair'.1 a mem_cons_self)
    · obtain ⟨o, ho, hj⟩ := hlater j hmj hahead
      have hoa : Ahead cmp d o.k a.k := (ahead_congr hj ReflCmp.compare_self).mp hja
      rcases mem_cons.mp ho with rfl | ho
      · exact hoa.asymm hoa
      · exact hoa.asymm ((pairwise_cons.mp hpair'.2).1 o ho)

/-- The neighbour is found if there is one or if the sentinel is still its own parent. -/
lemma neighbor_iff [TransCmp cmp] (h : IsTree cmp t s) (hm : Maps cmp s.toList m)
    (halloc : t.Allocated t.fresh) (hfuel : t.fresh + 2 < fuel) (hk : (m k).isSome) :
    (∃ r, t.neighbor cmp d fuel k = some r ∧ IsNeighbor cmp d k m r) ↔
      (∃ j, (m j).isSome ∧ Ahead cmp d k j) ∨ t.p null = null := by
  obtain ⟨ctx, u, hu⟩ := h.located k
  have hfind := hu.findNode_eq h (Nat.lt_of_le_of_lt (Nat.le_add_right ..) hfuel)
  rcases u.eq_leaf_or_fork d with rfl | ⟨c, e, near, far, rfl⟩
  · obtain ⟨e, he, hke⟩ := (hm.isSome_iff .left k).mp hk
    exact absurd hke (hu.ne_of_leaf e (mem_seq.mp he))
  have hke : cmp k e.k = .eq := by
    cases d with
    | left | right => exact hu.found _ _ _ _ rfl
  have hnull := addrOf_ne_null_of_mem hu.rep (mem_fork.mpr (.inl rfl))
  rw [addrOf_fork] at hfind hnull
  obtain ⟨l, hl⟩ := exists_seq_plug d ctx (fork d c e near far)
  have hseq : seq d s = (l ++ seq d near) ++ e :: (seq d far ++ beyond d ctx) := by
    rw [← hu.plug_eq, hl, seq_fork]
    simp only [append_assoc, cons_append]
  have hneighbor := isNeighbor_head hm hseq h.sorted hke
  rw [Tree.neighbor, hfind]
  dsimp only
  rw [if_neg hnull]
  cases hhead : (seq d far ++ beyond d ctx).head? with
  | some o =>
    have ho : o ∈ s.toList := by
      rw [← mem_seq (d := d), hseq]
      exact mem_append_right _ (.tail _ (mem_of_mem_head? hhead))
    rw [hhead] at hneighbor
    have hrun := neighborNode_some hu.rep (Nat.lt_of_le_of_lt (Nat.le_add_right ..) hfuel) hhead
    have ho0 := (h.rep.bound o ho).1
    have hread : (if o.addr ≠ null then (t.nodes o.addr).k else none) = some o.k := by
      rw [if_pos (Nat.ne_of_gt ho0), (holds_mem h.rep.tree ho).1]
    refine iff_of_true ⟨some o.k, ?_, hneighbor⟩ (.inl ⟨o.k, hneighbor.1, hneighbor.2.1⟩)
    rw [hrun, map_some, hread]
  | none =>
    rw [hhead] at hneighbor
    have hnone : ¬ ∃ j, (m j).isSome ∧ Ahead cmp d k j :=
      fun ⟨j, hj, hahead⟩ => hneighbor j hj hahead
    rw [or_iff_right hnone, ← neighborNode_none hu.rep hfuel (head?_eq_none_iff.mp hhead)]
    constructor
    · rintro ⟨r, hr, hright⟩
      obtain ⟨x, hx, hxr⟩ := map_eq_some_iff.mp hr
      rw [hx, some_inj]
      by_contra hx0
      obtain ⟨i, hi⟩ := isSome_iff_exists.mp (halloc.key x hx0 (halloc.neighborNode hx))
      rw [if_pos hx0, hi] at hxr
      rw [← hxr] at hright
      exact hnone ⟨i, hright.1, hright.2.1⟩
    · intro hrun
      exact ⟨none, by rw [hrun, map_some, if_neg fun h => h rfl], hneighbor⟩

end Keys

section Reachable

lemma step_allocated [TransCmp cmp] {t' : Tree K V} (h : IsTree cmp t s)
    (halloc : t.Allocated t.fresh)
    (hfuel : 2 * t.fresh + 1 < fuel) {op : Op K V} (hstep : step cmp fuel t op = some t') :
    t'.Allocated t'.fresh := by
  cases op with
  | put k v =>
    have hlt : t.fresh < fuel := by omega
    obtain ⟨t1, s1, hrun, -, -, -, hfresh⟩ := put_spec (k := k) (v := v) h hlt
    obtain rfl : t1 = t' := some_inj.mp (hrun.symm.trans hstep)
    rw [hfresh]
    exact halloc.put hrun
  | delete k =>
    obtain ⟨t1, s1, hrun, -, -, hfresh⟩ := delete_spec (k := k) h hfuel
    obtain rfl : t1 = t' := some_inj.mp (hrun.symm.trans hstep)
    rw [hfresh]
    exact halloc.delete hrun

lemma run_allocated [TransCmp cmp] {m : K → Option V} {t' : Tree K V} (h : IsTree cmp t s)
    (hm : Maps cmp s.toList m) (halloc : t.Allocated t.fresh) {ops : List (Op K V)}
    (hfuel : 2 * (t.fresh + ops.length) + 1 < fuel) (hrun : run cmp fuel t ops = some t') :
    t'.Allocated t'.fresh := by
  induction ops generalizing t s m with
  | nil =>
    cases hrun
    exact halloc
  | cons op ops ih =>
    rw [length_cons] at hfuel
    have hlt : 2 * t.fresh + 1 < fuel := by omega
    obtain ⟨t1, s1, hstep, h1, hm1, hfresh⟩ := step_spec h hm hlt op
    rw [run, hstep] at hrun
    exact ih h1 hm1 (step_allocated h halloc hlt hstep) (by omega) hrun

lemma allocated_init : (Tree.init : Tree K V).Allocated (Tree.init : Tree K V).fresh :=
  ⟨fun _ ha hlt => absurd (Nat.lt_one_iff.mp hlt) ha,
    fun _ d => by cases d <;> exact Nat.zero_lt_one, fun _ => Nat.zero_lt_one, Nat.zero_lt_one⟩

/-- In every state reached, `next` and `prev` of a key in the tree find its neighbour, if there is
one or if the sentinel is still its own parent, and only then. -/
theorem run_neighbors_iff [TransCmp cmp] (ops : List (Op K V)) (fuel : Nat)
    (hfuel : 2 * ops.length + 3 < fuel) :
    ∃ t, run cmp fuel .init ops = some t ∧ ∀ k, (replay cmp ops k).isSome →
      ((∃ r, t.next cmp fuel k = some r ∧ IsNeighbor cmp .left k (replay cmp ops) r) ↔
        (∃ j, (replay cmp ops j).isSome ∧ cmp k j = .lt) ∨ t.p null = null) ∧
      ((∃ r, t.prev cmp fuel k = some r ∧ IsNeighbor cmp .right k (replay cmp ops) r) ↔
        (∃ j, (replay cmp ops j).isSome ∧ cmp j k = .lt) ∨ t.p null = null) := by
  obtain ⟨t, s, hrun, h, hm, hfresh⟩ := run_init cmp ops hfuel
  have hone : (Tree.init : Tree K V).fresh = 1 := rfl
  have hlt : 2 * ((Tree.init : Tree K V).fresh + ops.length) + 1 < fuel := by omega
  have halloc := run_allocated isTree_init (maps_nil cmp) allocated_init hlt hrun
  exact ⟨t, hrun, fun k hk => ⟨neighbor_iff h hm halloc (by omega) hk,
    neighbor_iff h hm halloc (by omega) hk⟩⟩

theorem run_neighbors_iff_nat :
    ∃ t, run compare 20 (.init : Tree Nat Nat) [.put 2 20, .put 1 10] = some t ∧
      ∀ k, (replay compare [.put 2 20, .put 1 10] k : Option Nat).isSome →
        ((∃ r, t.next compare 20 k = some r ∧
            IsNeighbor compare .left k (replay compare [Op.put 2 20, .put 1 10]) r) ↔
          (∃ j, (replay compare [Op.put 2 20, .put 1 10] j).isSome ∧ compare k j = .lt) ∨
            t.p null = null) ∧
        ((∃ r, t.prev compare 20 k = some r ∧
            IsNeighbor compare .right k (replay compare [Op.put 2 20, .put 1 10]) r) ↔
          (∃ j, (replay compare [Op.put 2 20, .put 1 10] j).isSome ∧ compare j k = .lt) ∨
            t.p null = null) :=
  run_neighbors_iff [.put 2 20, .put 1 10] 20 (by decide)

/-- After `put(2, 20)`, `put(1, 10)` and `delete(1)` the only key is its own successor: the sentinel
still has the node of `2` as its parent. -/
theorem next_after_delete :
    (run compare 20 (.init : Tree Nat Nat) [.put 2 20, .put 1 10, .delete 1]).bind
      (fun t => t.next compare 20 2) = some (some 2) := by
  decide +kernel

end Reachable

end TyLang.Trees
