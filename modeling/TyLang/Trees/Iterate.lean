import TyLang.Trees.Runs

/-!
`__iter__`: the traversal marks the nodes that it visits and each mark is taken back only after the
element has been used. A node that is already marked counts as visited with all that is below it.
-/
namespace TyLang.Trees
open List RedBlack Std
open RedBlack.Tree (fork toList rootColor toList_map)

variable {K V : Type} {cmp : K → K → Ordering} {t t' : Tree K V} {ctx : Path K V} {s : Shape K V}
  {fuel : Nat}

section Marks

variable (t t') in
/-- The two heaps differ in the marks only. -/
structure SameButSeen : Prop where
  nodes : ∀ a, t'.nodes a = (t.nodes a).setSeen (t'.nodes a).seen
  root : t'.root = t.root
  fresh : t'.fresh = t.fresh

lemma SameButSeen.refl (t : Tree K V) : SameButSeen t t := ⟨fun _ => rfl, rfl, rfl⟩

lemma SameButSeen.trans {t'' : Tree K V} (h : SameButSeen t t') (h' : SameButSeen t' t'') :
    SameButSeen t t'' := by
  refine ⟨fun a => ?_, h'.root.trans h.root, h'.fresh.trans h.fresh⟩
  rw [h'.nodes a, h.nodes a]
  rfl

lemma sameButSeen_setSeen (t : Tree K V) (x : Addr) (b : Bool) : SameButSeen t (t.setSeen x b) := by
  refine ⟨fun a => ?_, rfl, rfl⟩
  rw [Tree.setSeen, nodes_modify]
  split <;> rfl

variable (t) in
/-- The entry with the mark that its node has now. -/
def refresh (e : Entry K V) : Entry K V := { e with seen := (t.nodes e.addr).seen }

lemma addrOf_map_refresh (t : Tree K V) (s : Shape K V) :
    addrOf (s.map (refresh t)) = addrOf s := by
  cases s <;> rfl

lemma Holds.refresh {p : Addr} (h : Holds t p s) (hsame : SameButSeen t t') :
    Holds t' p (s.map (refresh t')) := by
  induction s generalizing p with
  | leaf => trivial
  | node c e l r ihl ihr =>
    refine ⟨?_, ihl h.2.1, ihr h.2.2⟩
    have hnode : t'.nodes e.addr = _ := hsame.nodes e.addr
    rw [h.1] at hnode
    rwa [addrOf_map_refresh, addrOf_map_refresh]

lemma IsTree.refresh (h : IsTree cmp t s) (hsame : SameButSeen t t') :
    IsTree cmp t' (s.map (refresh t')) := by
  obtain ⟨n, hn, hblack⟩ := fits_nil.mp h.fits
  have haddr : (s.map (Trees.refresh t')).toList.map Entry.addr = s.toList.map Entry.addr := by
    rw [toList_map, map_map]
    rfl
  have hnull : Sentinel (t'.nodes null) := by
    rw [hsame.nodes null]
    exact ⟨h.rep.sentinel.black, h.rep.sentinel.left, h.rep.sentinel.right⟩
  refine ⟨⟨?_, h.rep.tree.refresh hsame, ?_, fun e he => ?_, hnull, hsame.fresh ▸ h.rep.fresh_pos⟩,
    fits_nil.mpr ⟨n, hn.map _, ?_⟩, ?_⟩
  · exact (hsame.root.trans h.rep.path).trans (addrOf_map_refresh t' s).symm
  · exact haddr ▸ h.rep.nodup
  · rw [plug, toList_map] at he
    obtain ⟨o, ho, rfl⟩ := mem_map.mp he
    rw [hsame.fresh]
    exact h.rep.bound o ho
  · rw [RedBlack.Tree.rootColor_map, hblack]
  · rw [toList_map]
    exact pairwise_map.mpr h.sorted

lemma Maps.refresh {m : K → Option V} (hm : Maps cmp s.toList m) (t' : Tree K V) :
    Maps cmp (s.map (refresh t')).toList m := by
  intro j v
  rw [hm, toList_map]
  simp only [mem_map, exists_exists_and_eq_and]
  rfl

end Marks

section Gather

/-- What the traversal visits. -/
def visit : Shape K V → List (Entry K V)
  | .leaf => []
  | .node _ e l r => if e.seen then [e] else visit l ++ e :: visit r

/-- The marks that it leaves. -/
def mark : Shape K V → Shape K V
  | .leaf => .leaf
  | .node c e l r => if e.seen then .node c e l r
      else .node c { e with seen := true } (mark l) (mark r)

/-- The rounds of the loop for a tree on the stack. -/
def rounds : Shape K V → Nat
  | .leaf => 1
  | .node _ e l r => if e.seen then 1 else rounds l + rounds r + 2

lemma rounds_le (s : Shape K V) : rounds s ≤ 3 * s.toList.length + 1 := by
  induction s with
  | leaf => exact .refl
  | node c e l r ihl ihr =>
    rw [rounds, toList, length_append, length_cons]
    split <;> omega

lemma rep_setSeen {c : Color} {e : Entry K V} {l r : Shape K V} (b : Bool)
    (hrep : Rep t ctx (.node c e l r)) :
    Rep (t.setSeen e.addr b) ctx (.node c { e with seen := b } l r) := by
  have hfork : Rep t ctx (fork .left c e l r) := hrep
  exact (rep_modify c { e with seen := b } hfork (fun _ _ _ => rfl) rfl).1

lemma gather_spec (hrep : Rep t ctx s) (st acc : List Addr) (n : Nat) :
    ∃ t', Tree.gather (rounds s + n) t (addrOf s :: st) acc =
        Tree.gather n t' st (acc ++ (visit s).map Entry.addr) ∧ Rep t' ctx (mark s) ∧
      ∀ a, a ∉ (visit s).map Entry.addr → (t'.nodes a).seen = (t.nodes a).seen := by
  induction s generalizing t ctx st acc n with
  | leaf =>
    refine ⟨t, ?_, hrep, fun _ _ => rfl⟩
    rw [rounds, Nat.add_comm, addrOf, Tree.gather, if_pos rfl, visit, map_nil, append_nil]
  | node c e l r ihl ihr =>
    obtain ⟨hnull, -, hl, hr⟩ := node_step hrep
    have hseen : (t.nodes e.addr).seen = e.seen := by rw [hrep.tree.1, cell]
    rw [rounds, visit, mark]
    by_cases he : e.seen
    · refine ⟨t, ?_, ?_, fun _ _ => rfl⟩
      · rw [if_pos he, if_pos he, Nat.add_comm, addrOf, Tree.gather, if_neg hnull, hseen, if_pos he]
        rfl
      · rwa [if_pos he]
    · rw [if_neg he, if_neg he, if_neg he]
      have hmarked := rep_setSeen true hrep
      obtain ⟨t1, hrun1, hrep1, hseen1⟩ :=
        ihl (rep_cons.mpr hmarked : Rep _ (⟨.left, c, _, r⟩ :: ctx) l)
        (e.addr :: addrOf r :: st) acc (rounds r + n + 1)
      have hmid : Rep t1 ctx (.node c { e with seen := true } (mark l) r) := rep_cons.mp hrep1
      have hmark : (t1.nodes e.addr).seen := by
        have hnode : t1.nodes e.addr = _ := hmid.tree.1
        rw [hnode, cell]
      obtain ⟨t2, hrun2, hrep2, hseen2⟩ :=
        ihr (rep_cons.mpr hmid : Rep t1 (⟨.right, c, { e with seen := true }, mark l⟩ :: ctx) r)
          st (acc ++ (visit l).map Entry.addr ++ [e.addr]) n
      refine ⟨t2, ?_, rep_cons.mp hrep2, fun a ha => ?_⟩
      · have hsum : rounds l + rounds r + 2 + n = rounds l + (rounds r + n + 1) + 1 := by omega
        rw [hsum, addrOf, Tree.gather, if_neg hnull, hseen, if_neg he, hl, hr, hrun1, Tree.gather,
          if_neg hnull, hmark, if_pos rfl, hrun2, map_append, map_cons]
        simp only [append_assoc, cons_append, nil_append]
      · rw [map_append, map_cons, mem_append, mem_cons] at ha
        rw [hseen2 a fun h => ha (.inr (.inr h)), hseen1 a fun h => ha (.inl h), Tree.setSeen,
          nodes_modify, if_neg fun h => ha (.inr (.inl h))]

lemma gather_same {st acc nodes : List Addr} (hrun : Tree.gather fuel t st acc = some (t', nodes)) :
    SameButSeen t t' := by
  induction fuel generalizing t st acc with
  | zero => cases hrun
  | succ fuel ih =>
    cases st with
    | nil =>
      cases hrun
      exact .refl _
    | cons x st =>
      rw [Tree.gather] at hrun
      split at hrun
      · exact ih hrun
      · split at hrun
        · exact ih hrun
        · exact (sameButSeen_setSeen t x true).trans (ih hrun)

lemma gather_root (hrep : Rep t [] s) (hfuel : 3 * t.fresh + 1 < fuel) :
    ∃ t', Tree.gather fuel t [t.root] [] = some (t', (visit s).map Entry.addr) ∧ SameButSeen t t' ∧
      ∀ a, a ∉ (visit s).map Entry.addr → (t'.nodes a).seen = (t.nodes a).seen := by
  have hlength : s.toList.length ≤ t.fresh := hrep.length_le
  have hrounds := rounds_le s
  obtain ⟨n, rfl⟩ := Nat.exists_eq_add_of_lt (by omega : rounds s < fuel)
  have hroot : t.root = addrOf s := hrep.path
  obtain ⟨t', hrun, -, hseen⟩ := gather_spec hrep [] [] (n + 1)
  rw [← hroot, Tree.gather, nil_append] at hrun
  exact ⟨t', hrun, gather_same hrun, hseen⟩

end Gather

section Drain

def pairOf (e : Entry K V) : Option K × Option V := (some e.k, some e.v)

/-- The rest of an iteration from a list of nodes that are still to be yielded. -/
def drainNodes (fuel : Nat) (t : Tree K V) (nodes : List Addr) :
    Option (Tree K V × List (Option K × Option V)) :=
  match t.yieldNode nodes with
  | (_, none) => some (t, [])
  | (it, some p) => (Tree.drain fuel t it).map fun (t, ps) => (t, p :: ps)

lemma drain_yielded (fuel : Nat) (t : Tree K V) (x : Addr) (nodes : List Addr) :
    Tree.drain (fuel + 1) t (.yielded x nodes) = drainNodes fuel (t.setSeen x false) nodes := by
  cases nodes <;> rfl

variable (t t') in
/-- The second heap is the first with the marks of some nodes taken back. -/
structure Unmarked (l : List Addr) : Prop where
  same : SameButSeen t t'
  inside : ∀ a ∈ l, (t'.nodes a).seen = false
  outside : ∀ a, a ∉ l → (t'.nodes a).seen = (t.nodes a).seen

variable (t) in
def Reads (e : Entry K V) : Prop := (t.nodes e.addr).k = some e.k ∧ (t.nodes e.addr).v = some e.v

lemma Reads.same {e : Entry K V} (h : Reads t e) (hsame : SameButSeen t t') : Reads t' e := by
  rwa [Reads, hsame.nodes e.addr]

lemma drainNodes_spec {l : List (Entry K V)} (hread : ∀ e ∈ l, Reads t e)
    (hfuel : l.length ≤ fuel) :
    ∃ t', drainNodes fuel t (l.map Entry.addr) = some (t', l.map pairOf) ∧
      Unmarked t t' (l.map Entry.addr) := by
  induction l generalizing t fuel with
  | nil => exact ⟨t, rfl, .refl t, nofun, fun _ _ => rfl⟩
  | cons e l ih =>
    obtain ⟨fuel, rfl⟩ := Nat.exists_eq_add_of_le' hfuel
    have hsame := sameButSeen_setSeen t e.addr false
    have hread' : ∀ o ∈ l, Reads (t.setSeen e.addr false) o := fun o ho =>
      (hread o (.tail _ ho)).same hsame
    obtain ⟨t', hrun, hsame', hinside, houtside⟩ := ih hread' (Nat.le_add_left l.length fuel)
    refine ⟨t', ?_, hsame.trans hsame', fun a ha => ?_, fun a ha => ?_⟩
    · obtain ⟨hk, hv⟩ := hread e (.head _)
      rw [drainNodes, map_cons, Tree.yieldNode, hk, hv]
      dsimp only
      rw [length_cons, ← Nat.add_assoc, drain_yielded, hrun]
      rfl
    · by_cases hmem : a ∈ l.map Entry.addr
      · exact hinside a hmem
      · obtain rfl : a = e.addr := (mem_cons.mp ha).resolve_right hmem
        rw [houtside _ hmem, Tree.setSeen, nodes_modify, if_pos rfl]
        rfl
    · rw [map_cons, mem_cons] at ha
      rw [houtside a fun h => ha (.inr h), Tree.setSeen, nodes_modify, if_neg fun h => ha (.inl h)]

lemma visit_sublist (s : Shape K V) : (visit s).Sublist s.toList := by
  induction s with
  | leaf => exact .slnil
  | node c e l r ihl ihr =>
    rw [visit, toList]
    split
    · exact singleton_sublist.mpr (mem_append_right _ mem_cons_self)
    · exact ihl.append (ihr.cons_cons e)

/-- A whole iteration yields what the traversal visits and takes the marks of that back. -/
lemma pairs_spec (h : IsTree cmp t s) (hfuel : 3 * t.fresh + 1 < fuel) :
    ∃ t', t.pairs fuel = some (t', (visit s).map pairOf) ∧
    Unmarked t t' ((visit s).map Entry.addr) := by
  obtain ⟨t1, hgather, hsame1, hseen1⟩ := gather_root h.rep hfuel
  have hlength : (visit s).length ≤ t.fresh :=
    Nat.le_trans (visit_sublist s).length_le h.rep.length_le
  have hread : ∀ e ∈ visit s, Reads t1 e := fun e he =>
    Reads.same (holds_mem h.rep.tree ((visit_sublist s).subset he)) hsame1
  obtain ⟨fuel, rfl⟩ := Nat.exists_eq_add_of_lt hfuel
  have hle : (visit s).length ≤ 3 * t.fresh + 1 + fuel := by omega
  obtain ⟨t2, hrun, hun⟩ := drainNodes_spec hread hle
  refine ⟨t2, ?_, hsame1.trans hun.same, hun.inside, fun a ha => ?_⟩
  · rw [← hrun, Tree.pairs, Tree.drain, Tree.resume, hgather, Option.map_some, drainNodes]
    cases visit s <;> rfl
  · rw [hun.outside a ha, hseen1 a ha]

end Drain

section Complete

variable {m : K → Option V}

/-- A marked node has nothing below it. -/
def Clear : Shape K V → Prop
  | .leaf => True
  | .node _ e l r => (e.seen → l = .leaf ∧ r = .leaf) ∧ Clear l ∧ Clear r

lemma toList_eq_nil {s : Shape K V} : s.toList = [] ↔ s = .leaf := by
  cases s with
  | leaf => exact iff_of_true rfl rfl
  | node c e l r => simp [toList]

lemma visit_eq_iff (s : Shape K V) : visit s = s.toList ↔ Clear s := by
  induction s with
  | leaf => exact iff_of_true rfl trivial
  | node c e l r ihl ihr =>
    rw [visit, toList, Clear]
    by_cases he : e.seen
    · rw [if_pos he]
      constructor
      · intro heq
        have hlength := congrArg length heq
        rw [length_append, length_cons, length_cons, length_nil] at hlength
        obtain rfl := toList_eq_nil.mp (length_eq_zero_iff.mp (by omega : l.toList.length = 0))
        obtain rfl := toList_eq_nil.mp (length_eq_zero_iff.mp (by omega : r.toList.length = 0))
        exact ⟨fun _ => ⟨rfl, rfl⟩, trivial, trivial⟩
      · rintro ⟨hleaves, -, -⟩
        obtain ⟨rfl, rfl⟩ := hleaves he
        rfl
    · rw [if_neg he, ← ihl, ← ihr]
      constructor
      · intro heq
        have hlength := congrArg length heq
        have hl := (visit_sublist l).length_le
        have hr := (visit_sublist r).length_le
        simp only [length_append, length_cons] at hlength
        exact ⟨fun h => absurd h he, (visit_sublist l).eq_of_length (by omega),
          (visit_sublist r).eq_of_length (by omega)⟩
      · rintro ⟨-, hl, hr⟩
        rw [hl, hr]

variable (t s) in
def ClearHeap : Prop :=
  ∀ e ∈ s.toList, (t.nodes e.addr).seen → t.l e.addr = null ∧ t.r e.addr = null

lemma addrOf_eq_null (hrep : Rep t ctx s) : addrOf s = null ↔ s = .leaf := by
  cases s with
  | leaf => exact iff_of_true rfl rfl
  | node c e l r => exact iff_of_false (node_step hrep).1 nofun

lemma clear_iff (hrep : Rep t ctx s) : Clear s ↔ ClearHeap t s := by
  induction s generalizing ctx with
  | leaf => exact iff_of_true trivial nofun
  | node c e l r ihl ihr =>
    have hleft : Rep t (⟨.left, c, e, r⟩ :: ctx) l := rep_cons.mpr hrep
    have hright : Rep t (⟨.right, c, e, l⟩ :: ctx) r := rep_cons.mpr hrep
    obtain ⟨-, -, hl, hr⟩ := node_step hrep
    have hseen : (t.nodes e.addr).seen = e.seen := by rw [hrep.tree.1, cell]
    have hnode : (e.seen → l = .leaf ∧ r = .leaf) ↔
        ((t.nodes e.addr).seen → t.l e.addr = null ∧ t.r e.addr = null) := by
      rw [hseen, hl, hr, addrOf_eq_null hleft, addrOf_eq_null hright]
    rw [Clear, ihl hleft, ihr hright, hnode]
    simp only [ClearHeap, toList, mem_append, mem_cons]
    constructor
    · rintro ⟨he, hl, hr⟩ o (ho | rfl | ho)
      · exact hl o ho
      · exact he
      · exact hr o ho
    · exact fun h => ⟨h e (.inr (.inl rfl)), fun o ho => h o (.inl ho),
        fun o ho => h o (.inr (.inr ho))⟩

variable (cmp m) in
/-- Every pair of the map once, with growing keys. -/
structure Lists (ps : List (Option K × Option V)) : Prop where
  pairs : ∃ l : List (K × V), ps = l.map (fun p => (some p.1, some p.2)) ∧
    l.Pairwise (fun p q => cmp p.1 q.1 = .lt) ∧
    ∀ j v, m j = some v ↔ ∃ p ∈ l, cmp j p.1 = .eq ∧ p.2 = v

lemma Sorted.eq_of_eq [TransCmp cmp] {l : List (Entry K V)} (hsorted : Sorted cmp l)
    {a b : Entry K V}
    (ha : a ∈ l) (hb : b ∈ l) (hab : cmp a.k b.k = .eq) : a = b := by
  obtain ⟨l1, l2, rfl⟩ := append_of_mem hb
  rcases mem_cons.mp (perm_middle.mem_iff.mp ha) with rfl | ha
  · rfl
  · exact absurd hab (fun h => hsorted.other ReflCmp.compare_self a ha (OrientedCmp.eq_symm h))

lemma lists_visit_iff [TransCmp cmp] (h : IsTree cmp t s) (hm : Maps cmp s.toList m) :
    Lists cmp m ((visit s).map pairOf) ↔ visit s = s.toList := by
  have hpair : (visit s).map pairOf =
      ((visit s).map fun e => (e.k, e.v)).map (fun p => (some p.1, some p.2)) := by
    rw [map_map]
    rfl
  constructor
  · rintro ⟨l, hl, -, hmap⟩
    have hinj : Function.Injective fun p : K × V => (some p.1, some p.2) := by
      rintro ⟨k, v⟩ ⟨k', v'⟩ heq
      cases heq
      rfl
    obtain rfl := (map_injective_iff.mpr hinj) (hpair.symm.trans hl)
    -- an entry that is not visited would have its pair from another one
    have hsubset : s.toList ⊆ visit s := by
      intro e he
      have hsome : m e.k = some e.v := (hm e.k e.v).mpr ⟨e, he, ReflCmp.compare_self, rfl⟩
      obtain ⟨p, hp, heq, -⟩ := (hmap e.k e.v).mp hsome
      obtain ⟨o, ho, rfl⟩ := mem_map.mp hp
      rwa [h.sorted.eq_of_eq he ((visit_sublist s).subset ho) heq]
    have hnodup : s.toList.Nodup :=
      (pairwise_map.mp h.rep.nodup).imp fun hne heq => hne (congrArg Entry.addr heq)
    exact (visit_sublist s).eq_of_length_le (subperm_of_subset hnodup hsubset).length_le
  · intro hall
    refine ⟨(visit s).map fun e => (e.k, e.v), hpair, ?_, fun j v => ?_⟩
    · rw [hall]
      exact pairwise_map.mpr h.sorted
    · rw [hall, hm]
      simp only [mem_map, exists_exists_and_eq_and]

lemma pairs_lists_iff [TransCmp cmp] (h : IsTree cmp t s) (hm : Maps cmp s.toList m)
    (hfuel : 3 * t.fresh + 1 < fuel) :
    (∃ t' ps, t.pairs fuel = some (t', ps) ∧ Lists cmp m ps) ↔ ClearHeap t s := by
  obtain ⟨t', hrun, -⟩ := pairs_spec h hfuel
  rw [← clear_iff h.rep, ← visit_eq_iff, ← lists_visit_iff h hm]
  constructor
  · rintro ⟨t'', ps, hps, hlists⟩
    rw [hrun, Option.some_inj, Prod.mk.injEq] at hps
    rwa [hps.2]
  · exact fun hlists => ⟨t', _, hrun, hlists⟩

end Complete

section Worlds

variable {m : K → Option V}

/-- A tree and the iterations over it, which are in progress or have been abandoned. -/
structure World (K V : Type) where
  tree : Tree K V
  iters : List Tree.Iter

inductive Act (K V : Type) where
  | op (op : Op K V)
  | iter
  | resume (i : Nat)

variable (cmp fuel) in
def act (w : World K V) : Act K V → Option (World K V)
  | .op op => (step cmp fuel w.tree op).map fun t => { w with tree := t }
  | .iter => some { w with iters := w.iters ++ [.start] }
  | .resume i =>
    match w.iters[i]? with
    | none => some w
    | some it => (w.tree.resume fuel it).map fun r => ⟨r.1, w.iters.set i r.2.1⟩

variable (cmp fuel) in
def acts (w : World K V) : List (Act K V) → Option (World K V)
  | [] => some w
  | a :: as => (act cmp fuel w a).bind fun w => acts w as

variable (cmp) in
def updateAct (m : K → Option V) : Act K V → K → Option V
  | .op op => update cmp m op
  | .iter | .resume _ => m

lemma resume_spec (h : IsTree cmp t s) (hfuel : 3 * t.fresh + 1 < fuel) (it : Tree.Iter) :
    ∃ r, t.resume fuel it = some r ∧ SameButSeen t r.1 := by
  cases it with
  | start =>
    obtain ⟨t', hgather, hsame, -⟩ := gather_root h.rep hfuel
    exact ⟨(t', t'.yieldNode _), by rw [Tree.resume, hgather]; rfl, hsame⟩
  | yielded x nodes => exact ⟨_, rfl, sameButSeen_setSeen t x false⟩
  | done => exact ⟨_, rfl, .refl t⟩

lemma act_spec [TransCmp cmp] {w : World K V} (h : IsTree cmp w.tree s) (hm : Maps cmp s.toList m)
    (hfuel : 3 * w.tree.fresh + 1 < fuel) (a : Act K V) :
    ∃ w' s', act cmp fuel w a = some w' ∧ IsTree cmp w'.tree s' ∧
      Maps cmp s'.toList (updateAct cmp m a) ∧ w'.tree.fresh ≤ w.tree.fresh + 1 := by
  cases a with
  | op op =>
    have hlt : 2 * w.tree.fresh + 1 < fuel := by omega
    obtain ⟨t', s', hstep, h', hm', hfresh⟩ := step_spec h hm hlt op
    exact ⟨{ w with tree := t' }, s', by rw [act, hstep]; rfl, h', hm', hfresh⟩
  | iter => exact ⟨_, s, rfl, h, hm, Nat.le_succ _⟩
  | resume i =>
    rw [act]
    cases w.iters[i]? with
    | none => exact ⟨w, s, rfl, h, hm, Nat.le_succ _⟩
    | some it =>
      obtain ⟨r, hresume, hsame⟩ := resume_spec h hfuel it
      refine ⟨⟨r.1, w.iters.set i r.2.1⟩, s.map (refresh r.1), ?_, h.refresh hsame,
        hm.refresh r.1, ?_⟩
      · dsimp only
        rw [hresume, Option.map_some]
      · exact hsame.fresh ▸ Nat.le_succ _

lemma acts_spec [TransCmp cmp] {w : World K V} (h : IsTree cmp w.tree s) (hm : Maps cmp s.toList m)
    (as : List (Act K V)) (hfuel : 3 * (w.tree.fresh + as.length) + 1 < fuel) :
    ∃ w' s', acts cmp fuel w as = some w' ∧ IsTree cmp w'.tree s' ∧
      Maps cmp s'.toList (as.foldl (updateAct cmp) m) ∧
      w'.tree.fresh ≤ w.tree.fresh + as.length := by
  induction as generalizing w s m with
  | nil => exact ⟨w, s, rfl, h, hm, .refl⟩
  | cons a as ih =>
    rw [length_cons] at hfuel
    have hlt : 3 * w.tree.fresh + 1 < fuel := by omega
    obtain ⟨w1, s1, hact, h1, hm1, hfresh1⟩ := act_spec h hm hlt a
    obtain ⟨w', s', hrun, h', hm', hfresh⟩ := ih h1 hm1 (by omega)
    refine ⟨w', s', ?_, h', hm', ?_⟩
    · rwa [acts, hact]
    · rw [length_cons]
      omega

/-- After any operations and any earlier iterations, abandoned or in progress, a new iteration
yields every pair once with growing keys if and only if no marked node has a child. -/
theorem acts_pairs_iff [TransCmp cmp] (as : List (Act K V)) (fuel : Nat)
    (hfuel : 3 * as.length + 4 < fuel) :
    ∃ w s, acts cmp fuel ⟨.init, []⟩ as = some w ∧ w.tree.root = addrOf s ∧ Holds w.tree null s ∧
      ((∃ t' ps, w.tree.pairs fuel = some (t', ps) ∧
          Lists cmp (as.foldl (updateAct cmp) fun _ => none) ps) ↔ ClearHeap w.tree s) := by
  have hfresh₀ : (Tree.init : Tree K V).fresh = 1 := rfl
  have hlt : 3 * ((⟨.init, []⟩ : World K V).tree.fresh + as.length) + 1 < fuel := by
    dsimp only
    omega
  obtain ⟨w, s, hrun, h, hm, hfresh⟩ := acts_spec (w := ⟨.init, []⟩) isTree_init
    (maps_nil cmp) as hlt
  dsimp only at hfresh
  exact ⟨w, s, hrun, h.rep.path, h.rep.tree, pairs_lists_iff h hm (by omega)⟩

theorem acts_pairs_iff_nat :
    ∃ w s, acts compare 30 (⟨.init, []⟩ : World Nat Nat)
        [.op (.put 2 20), .op (.put 1 10), .iter, .resume 0] = some w ∧
      w.tree.root = addrOf s ∧ Holds w.tree null s ∧
      ((∃ t' ps, w.tree.pairs 30 = some (t', ps) ∧
          Lists compare ([Act.op (.put 2 20), .op (.put 1 10), .iter, .resume 0].foldl
            (updateAct compare) fun _ => none) ps) ↔ ClearHeap w.tree s) :=
  acts_pairs_iff [.op (.put 2 20), .op (.put 1 10), .iter, .resume 0] 30 (by decide)

/-- After one element of an iteration over the keys `1`, `2`, `3` has been taken, a new iteration
yields the pair of the root only. -/
theorem pairs_abandoned :
    (acts compare 30 (⟨.init, []⟩ : World Nat Nat)
      [.op (.put 2 20), .op (.put 1 10), .op (.put 3 30), .iter, .resume 0]).bind
        (fun w => (w.tree.pairs 30).map Prod.snd) = some [(some 2, some 20)] := by
  decide +kernel

end Worlds

end TyLang.Trees
