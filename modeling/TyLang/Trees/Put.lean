import TyLang.Trees.Insert

/-!
Searching, and `put`: the way to a key through the heap is the way through the tree, and at its
end the key is found or a node is attached.
-/
namespace TyLang.Trees
open List RedBlack Std
open RedBlack.Tree (fork toList rootColor)

variable {K V : Type} {cmp : K → K → Ordering} {t : Tree K V} {ctx : Path K V} {s : Shape K V}
  {k : K} {v : V} {fuel : Nat} {l r : Shape K V} {e : Entry K V}

section Locate

variable (cmp k) in
/-- The way to a key, to its node or to the place where it belongs. -/
def locate : Path K V → Shape K V → Path K V × Shape K V
  | ctx, .leaf => (ctx, .leaf)
  | ctx, .node c e l r =>
    match cmp k e.k with
    | .lt => locate (⟨.left, c, e, r⟩ :: ctx) l
    | .eq => (ctx, .node c e l r)
    | .gt => locate (⟨.right, c, e, l⟩ :: ctx) r

variable (cmp k)

lemma plug_locate (ctx : Path K V) (s : Shape K V) :
    plug (locate cmp k ctx s).1 (locate cmp k ctx s).2 = plug ctx s := by
  induction s generalizing ctx with
  | leaf => rfl
  | node c e l r ihl ihr =>
    rw [locate]
    split
    · exact ihl _
    · rfl
    · exact ihr _

lemma rep_locate (hrep : Rep t ctx s) : Rep t (locate cmp k ctx s).1 (locate cmp k ctx s).2 := by
  induction s generalizing ctx with
  | leaf => exact hrep
  | node c e l r ihl ihr =>
    rw [locate]
    split
    · exact ihl (rep_cons.mpr hrep)
    · exact hrep
    · exact ihr (rep_cons.mpr hrep)

lemma fits_locate (hfits : Fits ctx s) : Fits (locate cmp k ctx s).1 (locate cmp k ctx s).2 := by
  induction s generalizing ctx with
  | leaf => exact hfits
  | node c e l r ihl ihr =>
    rw [locate]
    split
    · exact ihl (Fits.down (d := .left) hfits)
    · exact hfits
    · exact ihr (Fits.down (d := .right) hfits)

variable {cmp k}

lemma node_step {c : Color} (hrep : Rep t ctx (.node c e l r)) :
    e.addr ≠ null ∧ (t.nodes e.addr).k = some e.k ∧ t.l e.addr = addrOf l ∧
    t.r e.addr = addrOf r := by
  refine ⟨(hrep.bounds e (mem_append_left _ (by simp [toList]))).1, ?_, ?_, ?_⟩
  · rw [hrep.tree.1, cell_k]
  · rw [Tree.l, hrep.tree.1, cell]
  · rw [Tree.r, hrep.tree.1, cell]

lemma findLoop_eq (hrep : Rep t ctx s) (hfuel : s.toList.length < fuel) :
    Tree.findLoop cmp k fuel t (addrOf s) = some (addrOf (locate cmp k ctx s).2) := by
  induction fuel generalizing ctx s with
  | zero => omega
  | succ fuel ih =>
    cases s with
    | leaf => exact if_pos rfl
    | node c e l r =>
      obtain ⟨hnull, hk, hl, hr⟩ := node_step hrep
      have hleft : Rep t (⟨.left, c, e, r⟩ :: ctx) l := rep_cons.mpr hrep
      have hright : Rep t (⟨.right, c, e, l⟩ :: ctx) r := rep_cons.mpr hrep
      simp only [toList, length_append, length_cons] at hfuel
      rw [Tree.findLoop, addrOf, if_neg hnull, hk, locate]
      dsimp only
      cases cmp k e.k with
      | lt =>
        dsimp only
        rw [hl]
        exact ih hleft (by omega)
      | eq => rfl
      | gt =>
        dsimp only
        rw [hr]
        exact ih hright (by omega)

def putEnd (t : Tree K V) (v : V) : Path K V × Shape K V → Tree K V ⊕ Addr
  | (ctx, .leaf) => .inr (parent ctx)
  | (_, .node _ e _ _) => .inl (t.setV e.addr v)

lemma putLoop_eq (hrep : Rep t ctx s) (hfuel : s.toList.length < fuel) :
    Tree.putLoop cmp k v fuel t (parent ctx) (addrOf s) =
      some (putEnd t v (locate cmp k ctx s)) := by
  induction fuel generalizing ctx s with
  | zero => omega
  | succ fuel ih =>
    cases s with
    | leaf => exact if_pos rfl
    | node c e l r =>
      obtain ⟨hnull, hk, hl, hr⟩ := node_step hrep
      have hleft : Rep t (⟨.left, c, e, r⟩ :: ctx) l := rep_cons.mpr hrep
      have hright : Rep t (⟨.right, c, e, l⟩ :: ctx) r := rep_cons.mpr hrep
      simp only [toList, length_append, length_cons] at hfuel
      rw [Tree.putLoop, addrOf, if_neg hnull, hk, locate]
      dsimp only
      cases cmp k e.k with
      | lt =>
        dsimp only
        rw [hl]
        exact ih hleft (by omega)
      | eq => rfl
      | gt =>
        dsimp only
        rw [hr]
        exact ih hright (by omega)

end Locate

section Order

variable (cmp) in
/-- The keys grow from left to right. -/
def Sorted (l : List (Entry K V)) : Prop := l.Pairwise fun a b => cmp a.k b.k = .lt

variable (cmp k) in
/-- The key belongs at the end of the path. -/
structure Between (ctx : Path K V) : Prop where
  earlier : ∀ e ∈ RedBlack.earlier ctx, cmp k e.k = .gt
  later : ∀ e ∈ RedBlack.later ctx, cmp k e.k = .lt

lemma Sorted.node {c : Color} (h : Sorted cmp (plug ctx (.node c e l r)).toList) :
    (∀ o ∈ l.toList, cmp o.k e.k = .lt) ∧ ∀ o ∈ r.toList, cmp e.k o.k = .lt := by
  rw [Sorted, toList_plug, toList] at h
  have hnode := (pairwise_append.mp (pairwise_append.mp h).2.1).1
  obtain ⟨-, hright, hleft⟩ := pairwise_append.mp hnode
  exact ⟨fun o ho => hleft o ho e (.head _), (pairwise_cons.mp hright).1⟩

/-- At the end of the way is the only node with the key, or none has it. -/
lemma locate_between [TransCmp cmp] (hsorted : Sorted cmp (plug ctx s).toList)
    (hbetween : Between cmp k ctx) :
    Between cmp k (locate cmp k ctx s).1 ∧
      ∀ c e l r, (locate cmp k ctx s).2 = .node c e l r → cmp k e.k = .eq := by
  induction s generalizing ctx with
  | leaf => exact ⟨hbetween, nofun⟩
  | node c e l r ihl ihr =>
    obtain ⟨hleft, hright⟩ := hsorted.node
    rw [locate]
    cases hcmp : cmp k e.k with
    | lt =>
      dsimp only
      refine ihl hsorted ⟨hbetween.earlier, fun o ho => ?_⟩
      rcases mem_append.mp ho with ho | ho
      · rcases mem_cons.mp ho with rfl | ho
        · exact hcmp
        · exact TransCmp.lt_trans hcmp (hright o ho)
      · exact hbetween.later o ho
    | eq =>
      refine ⟨hbetween, fun c' e' l' r' heq => ?_⟩
      cases heq
      exact hcmp
    | gt =>
      dsimp only
      refine ihr hsorted ⟨fun o ho => ?_, hbetween.later⟩
      rcases mem_append.mp ho with ho | ho
      · exact hbetween.earlier o ho
      · rcases mem_append.mp ho with ho | ho
        · exact OrientedCmp.gt_iff_lt.mpr
            (TransCmp.lt_trans (hleft o ho) (OrientedCmp.gt_iff_lt.mp hcmp))
        · rwa [mem_singleton.mp ho]

end Order

section Attach

lemma rep_alloc (hrep : Rep t ctx s) : Rep (t.alloc k v) ctx s := by
  have hsame : ∀ o, o < t.fresh → (t.alloc k v).nodes o = t.nodes o := fun o ho =>
    if_neg (Nat.ne_of_lt ho)
  refine ⟨hrep.path.congr rfl fun e he => hsame _ ?_, hrep.tree.congr fun e he => hsame _ ?_,
    hrep.nodup, fun e he => ?_, ?_, Nat.lt_succ_of_lt hrep.fresh_pos⟩
  · exact (hrep.bounds e (mem_append_right _ he)).2
  · exact (hrep.bounds e (mem_append_left _ he)).2
  · exact ⟨(hrep.bound e he).1, Nat.lt_succ_of_lt (hrep.bound e he).2⟩
  · rw [hsame null hrep.fresh_pos]
    exact hrep.sentinel

lemma rep_setV {c : Color} (v : V) (hrep : Rep t ctx (.node c e l r)) :
    Rep (t.setV e.addr v) ctx (.node c { e with v := v } l r) ∧ Keeps t (t.setV e.addr v) := by
  have hfork : Rep t ctx (fork .left c e l r) := hrep
  exact rep_modify c { e with v := v } hfork (fun _ _ _ => rfl) rfl

/-- The comparison with the last node of the way says on which side the key belongs. -/
lemma Between.endSide (hbetween : Between cmp k ctx) (hpath : HoldsPath t null ctx)
    (hctx : parent ctx ≠ null) :
    (if (t.nodes (parent ctx)).k.map (cmp k) = some .lt then Side.left else Side.right) =
      endSide ctx := by
  cases ctx with
  | nil => exact absurd rfl hctx
  | cons f ctx =>
    rw [parent, hpath.1, cell_k, Option.map_some, Trees.endSide]
    cases hside : f.side with
    | left =>
      have hlt : cmp k f.label.k = .lt := hbetween.later f.label (by simp [RedBlack.later, hside])
      rw [if_pos (congrArg some hlt)]
    | right =>
      have hgt : cmp k f.label.k = .gt :=
        hbetween.earlier f.label (by simp [RedBlack.earlier, hside])
      rw [hgt, if_neg (by decide)]

lemma attach_assigns (cmp : K → K → Ordering) (t : Tree K V) (k : K) {z y : Addr} (hzy : z ≠ y) :
    (∀ o, (t.attach cmp k z y).nodes o =
      if o = z then ((t.nodes z).setP y).setC 1
      else if o = y ∧ y ≠ null then
        (t.nodes o).setChild
          (if (t.nodes y).k.map (cmp k) = some .lt then Side.left else Side.right) z
      else t.nodes o) ∧
    (t.attach cmp k z y).root = (if y = null then z else t.root) ∧
    (t.attach cmp k z y).fresh = t.fresh := by
  have hk : ((t.setP z y).nodes y).k = (t.nodes y).k := by
    rw [Tree.setP, nodes_modify, if_neg hzy.symm]
  unfold Tree.attach
  simp only [hk]
  by_cases hnull : y = null
  · simp only [hnull, if_true, ne_eq, not_true_eq_false, and_false, if_false]
    refine ⟨fun o => ?_, rfl, rfl⟩
    simp only [Tree.setC, Tree.setP, nodes_modify]
    by_cases ho : o = z
    · simp only [ho, if_true]
    · simp only [ho, if_false]
  · simp only [hnull, if_false, ne_eq, not_false_iff, and_true]
    refine ⟨fun o => ?_, ?_, ?_⟩
    · split
      all_goals
        simp only [Tree.setC, Tree.setL, Tree.setR, Tree.setChild, Tree.setP, nodes_modify]
        by_cases ho : o = z
        · simp only [ho, hzy, if_true, if_false]
        · simp only [ho, if_false]
    · split <;> rfl
    · split <;> rfl

lemma rep_attach {z : Addr} (hrep : Rep t ctx .leaf) (hbetween : Between cmp k ctx)
    (hz : t.nodes z = ⟨some k, some v, null, null, null, 0, false⟩) (hnull : z ≠ null)
    (hnext : z < t.fresh)
    (hfresh : ∀ e ∈ around ctx, e.addr ≠ z) :
    Rep (t.attach cmp k z (parent ctx)) ctx (.node .red ⟨z, k, v, false⟩ .leaf .leaf) := by
  have hzy : z ≠ parent ctx := (parent_ne hnull hfresh).symm
  obtain ⟨hnodes, hroot, hkept⟩ := attach_assigns cmp t k hzy
  have hpos : ∀ e ∈ around ctx, e.addr ≠ null := fun e he => (hrep.bounds e he).1
  have hperm := perm_plug ctx (.node .red ⟨z, k, v, false⟩ .leaf .leaf)
  refine ⟨?_, ⟨?_, trivial, trivial⟩, ?_, fun e he => ?_, ?_, hkept ▸ hrep.fresh_pos⟩
  · refine hrep.path.attach hrep.apart hpos hroot (hbetween.endSide hrep.path) fun e he => ?_
    rw [hnodes, if_neg (hfresh e he)]
    rfl
  · rw [hnodes, if_pos rfl, hz]
    rfl
  · refine (hperm.map Entry.addr).nodup_iff.mpr (nodup_cons.mpr ⟨fun hmem => ?_, hrep.apart⟩)
    obtain ⟨e, he, heq⟩ := mem_map.mp hmem
    exact hfresh e he heq
  · rcases mem_cons.mp (hperm.mem_iff.mp he) with rfl | he
    · exact ⟨Nat.pos_of_ne_zero hnull, hkept.symm ▸ hnext⟩
    · rw [hkept]
      exact ⟨Nat.pos_of_ne_zero (hpos e he), (hrep.bounds e he).2⟩
  · rw [hnodes, if_neg hnull.symm, if_neg (not_parent fun e he => (hpos e he).symm)]
    exact hrep.sentinel

end Attach

section Put

variable (cmp) in
/-- The heap stands for a red-black search tree. -/
structure IsTree (t : Tree K V) (s : Shape K V) : Prop where
  rep : Rep t [] s
  fits : Fits [] s
  sorted : Sorted cmp s.toList

variable (cmp k v) in
/-- What `put` does to the entries: the one with the key gets the value, or a new one is inserted in
its place. -/
inductive PutList : List (Entry K V) → List (Entry K V) → Prop where
  | replace {a b : List (Entry K V)} {e : Entry K V} (h : cmp k e.k = .eq) :
      PutList (a ++ e :: b) (a ++ { e with v := v } :: b)
  | insert {a b : List (Entry K V)} {z : Addr} (ha : ∀ e ∈ a, cmp k e.k = .gt)
      (hb : ∀ e ∈ b, cmp k e.k = .lt) : PutList (a ++ b) (a ++ ⟨z, k, v, false⟩ :: b)

lemma PutList.sorted [TransCmp cmp] {l l' : List (Entry K V)} (h : PutList cmp k v l l')
    (hsorted : Sorted cmp l) : Sorted cmp l' := by
  cases h with
  | replace h => simpa [Sorted, pairwise_append] using hsorted
  | @insert a b z ha hb =>
    obtain ⟨hsa, hsb, hab⟩ := pairwise_append.mp hsorted
    refine pairwise_append.mpr ⟨hsa, pairwise_cons.mpr ⟨hb, hsb⟩, fun e he o ho => ?_⟩
    rcases mem_cons.mp ho with rfl | ho
    · exact OrientedCmp.gt_iff_lt.mp (ha e he)
    · exact hab e he o ho

lemma Rep.length_le (hrep : Rep t ctx s) : (plug ctx s).toList.length ≤ t.fresh := by
  have hsub : (plug ctx s).toList.map Entry.addr ⊆ range t.fresh := by
    intro a ha
    obtain ⟨e, he, rfl⟩ := mem_map.mp ha
    exact mem_range.mpr (hrep.bound e he).2
  have hle := (subperm_of_subset hrep.nodup hsub).length_le
  rwa [length_map, length_range] at hle

lemma length_path_le (ctx : Path K V) (s : Shape K V) :
    ctx.length ≤ (plug ctx s).toList.length := by
  have hle : ctx.length ≤ (around ctx).length := by
    induction ctx with
    | nil => exact .refl
    | cons f ctx ih =>
      rw [around, length_cons, length_cons, length_append]
      omega
  rw [(perm_plug ctx s).length_eq, length_append]
  omega

lemma between_nil : Between cmp k ([] : Path K V) := ⟨nofun, nofun⟩

variable (cmp t s k) in
/-- Where the search for a key ends. -/
structure Located (ctx : Path K V) (u : Shape K V) : Prop where
  way : locate cmp k [] s = (ctx, u)
  plug_eq : plug ctx u = s
  rep : Rep t ctx u
  fits : Fits ctx u
  between : Between cmp k ctx
  found : ∀ c e l r, u = .node c e l r → cmp k e.k = .eq

lemma IsTree.located [TransCmp cmp] (h : IsTree cmp t s) (k : K) :
    ∃ ctx u, Located cmp t s k ctx u := by
  obtain ⟨hbetween, hfound⟩ := locate_between (k := k) h.sorted between_nil
  exact ⟨_, _, rfl, plug_locate cmp k [] s, rep_locate cmp k h.rep, fits_locate cmp k h.fits,
    hbetween, hfound⟩

lemma Located.findNode_eq {u : Shape K V} (hu : Located cmp t s k ctx u)
    (h : IsTree cmp t s) (hfuel : t.fresh < fuel) : t.findNode cmp fuel k = some (addrOf u) := by
  have hroot : t.root = addrOf s := h.rep.path
  have hlength : s.toList.length < fuel := Nat.lt_of_le_of_lt h.rep.length_le hfuel
  rw [Tree.findNode, hroot, findLoop_eq h.rep hlength, hu.way]

lemma Located.ne_of_leaf (hu : Located cmp t s k ctx .leaf) : ∀ e ∈ s.toList, cmp k e.k ≠ .eq := by
  intro e he
  rw [← hu.plug_eq, toList_plug] at he
  rcases mem_append.mp he with he | he
  · rw [hu.between.earlier e he]
    exact nofun
  · rw [hu.between.later e he]
    exact nofun

/-- A new node is attached and `ifixup` repairs the tree. -/
lemma put_insert (hrep : Rep t ctx .leaf) (hfits : Fits ctx .leaf)
    (hbetween : Between cmp k ctx) (hfuel : t.fresh < fuel) :
    ∃ t' s', Tree.ifixup fuel ((t.alloc k v).attach cmp k t.fresh (parent ctx)) t.fresh = some t' ∧
      Rep t' [] s' ∧ Fits [] s' ∧
      s'.toList = earlier ctx ++ ⟨t.fresh, k, v, false⟩ :: later ctx ∧ t'.p null = t.p null ∧
      t'.fresh = t.fresh + 1 := by
  have hpos : t.fresh ≠ null := Nat.ne_of_gt hrep.fresh_pos
  have hfresh : ∀ e ∈ around ctx, e.addr ≠ t.fresh := fun e he => Nat.ne_of_lt (hrep.bounds e he).2
  have hnew : Rep ((t.alloc k v).attach cmp k t.fresh (parent ctx)) ctx
      (.node .red ⟨t.fresh, k, v, false⟩ .leaf .leaf) :=
    rep_attach (rep_alloc hrep) hbetween (if_pos rfl) hpos (Nat.lt_succ_self _) hfresh
  obtain ⟨h, hpath, htree, -⟩ := hfits
  cases htree
  have hins : Inserted _ ctx (.node .red ⟨t.fresh, k, v, false⟩ .leaf .leaf) 0 :=
    ⟨hnew, rfl, hpath, .red .leaf .leaf rfl rfl⟩
  have hlength : ctx.length < fuel :=
    Nat.lt_of_le_of_lt (Nat.le_trans (length_path_le ctx .leaf) hrep.length_le) hfuel
  obtain ⟨t', s', hrun, hrep', hfits', hlist, hkeeps⟩ := ifixup_spec hlength hins
  obtain ⟨hnodes, -, hnext⟩ := attach_assigns cmp (t.alloc k v) k (parent_ne hpos hfresh).symm
  refine ⟨t', s', hrun, hrep', hfits', ?_, ?_, hkeeps.fresh.trans hnext⟩
  · rw [hlist, toList_plug]
    rfl
  · have hnull : (t.alloc k v).nodes null = t.nodes null := if_neg hpos.symm
    rw [hkeeps.null, Tree.p, hnodes, if_neg hpos.symm,
      if_neg (not_parent fun e he => (hrep.bounds e he).1.symm), hnull, Tree.p]

lemma Located.put_eq {u : Shape K V} (hu : Located cmp t s k ctx u) (h : IsTree cmp t s)
    (hfuel : t.fresh < fuel) :
    t.put cmp fuel k v =
      match putEnd (t.alloc k v) v (ctx, u) with
      | .inl t' => some t'
      | .inr y => Tree.ifixup fuel ((t.alloc k v).attach cmp k t.fresh y) t.fresh := by
  have hlength : s.toList.length < fuel := Nat.lt_of_le_of_lt h.rep.length_le hfuel
  have hroot : (t.alloc k v).root = addrOf s := h.rep.path
  have hloop : Tree.putLoop cmp k v fuel (t.alloc k v) null (t.alloc k v).root =
      some (putEnd (t.alloc k v) v (ctx, u)) := by
    rw [hroot, ← hu.way]
    exact putLoop_eq (rep_alloc h.rep) hlength
  unfold Tree.put
  dsimp only
  rw [hloop]
  cases u <;> rfl

lemma put_spec [TransCmp cmp] (h : IsTree cmp t s) (hfuel : t.fresh < fuel) :
    ∃ t' s', t.put cmp fuel k v = some t' ∧ IsTree cmp t' s' ∧ PutList cmp k v s.toList s'.toList ∧
      t'.p null = t.p null ∧ t'.fresh = t.fresh + 1 := by
  obtain ⟨ctx, u, hu⟩ := h.located k
  rw [hu.put_eq h hfuel]
  obtain ⟨-, rfl, hrep, hfits, hbetween, hfound⟩ := hu
  cases u with
  | leaf =>
    obtain ⟨t', s', hrun, hrep', hfits', hlist, hkept⟩ := put_insert hrep hfits hbetween hfuel
    have hput : PutList cmp k v (plug ctx .leaf).toList s'.toList := by
      rw [hlist, toList_plug]
      exact .insert hbetween.earlier hbetween.later
    exact ⟨t', s', hrun, ⟨hrep', hfits', hput.sorted h.sorted⟩, hput, hkept⟩
  | node c e l r =>
    obtain ⟨hrep', hkeeps⟩ := rep_setV v (rep_alloc (k := k) (v := v) hrep)
    have hput : PutList cmp k v (plug ctx (.node c e l r)).toList
        (plug ctx (.node c { e with v := v } l r)).toList := by
      have hput := PutList.replace (k := k) (v := v) (a := earlier ctx ++ l.toList)
        (b := r.toList ++ later ctx) (hfound c e l r rfl)
      simpa [toList_plug, toList] using hput
    refine ⟨_, _, rfl, ⟨rep_plug hrep', ?_, hput.sorted h.sorted⟩, hput, ?_, hkeeps.fresh⟩
    · exact (Fits.relabel (d := .left) _ hfits).plug
    · have hnull : (t.alloc k v).nodes null = t.nodes null := if_neg (Nat.ne_of_lt hrep.fresh_pos)
      exact hkeeps.null.trans (congrArg Node.p hnull)

end Put

end TyLang.Trees
