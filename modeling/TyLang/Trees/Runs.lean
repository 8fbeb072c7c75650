import TyLang.Trees.Remove

/-!
Sequences of `put` and `delete` from the empty tree. What they leave is a red-black search tree, and
`get` and `has?` read from it the map that the same operations make.
-/
namespace TyLang.Trees
open List RedBlack Std
open RedBlack.Tree (fork toList rootColor)

variable {K V : Type} {cmp : K → K → Ordering} {t : Tree K V} {s : Shape K V} {fuel : Nat}

inductive Op (K V : Type) where
  | put (k : K) (v : V)
  | delete (k : K)

section Maps

variable {l l' : List (Entry K V)} {m : K → Option V} {j k : K} {v : V}

variable (cmp) in
/-- The map after an operation. -/
def update (m : K → Option V) : Op K V → K → Option V
  | .put k v, j => if cmp j k = .eq then some v else m j
  | .delete k, j => if cmp j k = .eq then none else m j

variable (cmp l m) in
/-- The entries are the ones of the map. -/
def Maps : Prop := ∀ j v, m j = some v ↔ ∃ e ∈ l, cmp j e.k = .eq ∧ e.v = v

variable {a b : List (Entry K V)} {e : Entry K V}

lemma Sorted.other [TransCmp cmp] (hsorted : Sorted cmp (a ++ e :: b)) (hk : cmp k e.k = .eq) :
    ∀ o ∈ a ++ b, cmp k o.k ≠ .eq := by
  obtain ⟨-, hright, hleft⟩ := pairwise_append.mp hsorted
  intro o ho heq
  rcases mem_append.mp ho with ho | ho
  · have hlt := hleft o ho e (.head _)
    rw [← TransCmp.congr_left heq, hk] at hlt
    cases hlt
  · have hlt := (pairwise_cons.mp hright).1 o ho
    rw [← TransCmp.congr_left hk, heq] at hlt
    cases hlt

lemma exists_mem_middle {P : Entry K V → Prop} :
    (∃ o ∈ a ++ e :: b, P o) ↔ P e ∨ ∃ o ∈ a ++ b, P o := by
  simp only [perm_middle.mem_iff, mem_cons, or_and_right, exists_or, exists_eq_left]

variable (cmp m k a b) in
/-- The entries are the ones of the map, apart from a key. -/
def MapsOff : Prop :=
  ∀ j v, cmp j k ≠ .eq → (m j = some v ↔ ∃ e ∈ a ++ b, cmp j e.k = .eq ∧ e.v = v)

lemma Maps.off [TransCmp cmp] (hm : Maps cmp (a ++ e :: b) m) (hk : cmp k e.k = .eq) :
    MapsOff cmp m k a b := by
  intro j v hj
  have he : ¬ (cmp j e.k = .eq ∧ e.v = v) := fun h => hj (TransCmp.congr_right hk ▸ h.1)
  rw [hm, exists_mem_middle, or_iff_right he]

lemma MapsOff.put [TransCmp cmp] (hoff : MapsOff cmp m k a b) (hk : cmp k e.k = .eq) (hv : e.v = v)
    (hother : ∀ o ∈ a ++ b, cmp k o.k ≠ .eq) :
    Maps cmp (a ++ e :: b) (update cmp m (.put k v)) := by
  intro j w
  rw [exists_mem_middle, update]
  by_cases hj : cmp j k = .eq
  · have hnone : ¬ ∃ o ∈ a ++ b, cmp j o.k = .eq ∧ o.v = w := by
      rintro ⟨o, ho, heq, -⟩
      exact hother o ho (TransCmp.congr_left hj ▸ heq)
    have hje : cmp j e.k = .eq := TransCmp.congr_left hj ▸ hk
    rw [if_pos hj, Option.some_inj, or_iff_left hnone, and_iff_right hje, hv]
  · have hje : ¬ cmp j e.k = .eq := fun h => hj (TransCmp.congr_right hk ▸ h)
    rw [if_neg hj, or_iff_right fun h => hje h.1]
    exact hoff j w hj

lemma MapsOff.delete [TransCmp cmp] (hoff : MapsOff cmp m k a b)
    (hother : ∀ o ∈ a ++ b, cmp k o.k ≠ .eq) : Maps cmp (a ++ b) (update cmp m (.delete k)) := by
  intro j w
  rw [update]
  by_cases hj : cmp j k = .eq
  · rw [if_pos hj]
    refine iff_of_false nofun ?_
    rintro ⟨o, ho, heq, -⟩
    exact hother o ho (TransCmp.congr_left hj ▸ heq)
  · rw [if_neg hj]
    exact hoff j w hj

lemma PutList.maps [TransCmp cmp] (h : PutList cmp k v l l') (hsorted : Sorted cmp l)
    (hm : Maps cmp l m) : Maps cmp l' (update cmp m (.put k v)) := by
  cases h with
  | replace hk => exact (hm.off hk).put hk rfl (hsorted.other hk)
  | insert ha hb =>
    refine MapsOff.put (fun j w _ => hm j w) ReflCmp.compare_self rfl fun o ho => ?_
    rcases mem_append.mp ho with ho | ho
    · rw [ha o ho]
      exact nofun
    · rw [hb o ho]
      exact nofun

lemma DeleteList.maps [TransCmp cmp] (h : DeleteList cmp k l l') (hsorted : Sorted cmp l)
    (hm : Maps cmp l m) : Maps cmp l' (update cmp m (.delete k)) := by
  cases h with
  | remove hk => exact (hm.off hk).delete (hsorted.other hk)
  | absent hnone =>
    have hoff : MapsOff cmp m k [] l := fun j w _ => hm j w
    exact hoff.delete hnone

end Maps

section Lookup

variable {m : K → Option V} {e : Entry K V}

lemma holds_mem {p : Addr} (hs : Holds t p s) (he : e ∈ s.toList) :
    (t.nodes e.addr).k = some e.k ∧ (t.nodes e.addr).v = some e.v := by
  induction s generalizing p with
  | leaf => cases he
  | node c o l r ihl ihr =>
    rcases mem_append.mp he with he | he
    · exact ihl hs.2.1 he
    · rcases mem_cons.mp he with rfl | he
      · rw [hs.1, cell_k, cell_v]
        exact ⟨rfl, rfl⟩
      · exact ihr hs.2.2 he

/-- What the search for a key ends at. -/
lemma findNode_spec [TransCmp cmp] (h : IsTree cmp t s) (hfuel : t.fresh < fuel)
    (hm : Maps cmp s.toList m) (k : K) :
    (t.findNode cmp fuel k = some null ∧ m k = none) ∨
      ∃ e ∈ s.toList, t.findNode cmp fuel k = some e.addr ∧ e.addr ≠ null ∧
        (t.nodes e.addr).v = some e.v ∧ m k = some e.v := by
  obtain ⟨ctx, u, hu⟩ := h.located k
  have hfind := hu.findNode_eq h hfuel
  cases u with
  | leaf =>
    refine .inl ⟨hfind, ?_⟩
    cases hmk : m k with
    | none => rfl
    | some v =>
      obtain ⟨e, he, hk, -⟩ := (hm k v).mp hmk
      exact absurd hk (hu.ne_of_leaf e he)
  | node c e l r =>
    obtain ⟨-, rfl, hrep, -, -, hfound⟩ := hu
    have he : e ∈ (plug ctx (.node c e l r)).toList := mem_plug.mpr (.inl (by simp [toList]))
    refine .inr ⟨e, he, hfind, (node_step hrep).1, ?_,
      (hm k e.v).mpr ⟨e, he, hfound c e l r rfl, rfl⟩⟩
    rw [hrep.tree.1, cell_v]

lemma get_spec [TransCmp cmp] (h : IsTree cmp t s) (hfuel : t.fresh < fuel)
    (hm : Maps cmp s.toList m) (k : K) : t.get cmp fuel k = some (m k) := by
  rw [Tree.get]
  rcases findNode_spec h hfuel hm k with ⟨hfind, hmk⟩ | ⟨e, -, hfind, hnull, hv, hmk⟩
  · rw [hfind, hmk, Option.map_some, if_neg fun h => h rfl]
  · rw [hfind, hmk, Option.map_some, if_pos hnull, hv]

lemma has_spec [TransCmp cmp] (h : IsTree cmp t s) (hfuel : t.fresh < fuel)
    (hm : Maps cmp s.toList m) (k : K) : t.has cmp fuel k = some (m k).isSome := by
  rw [Tree.has]
  rcases findNode_spec h hfuel hm k with ⟨hfind, hmk⟩ | ⟨e, -, hfind, hnull, -, hmk⟩
  · rw [hfind, hmk, Option.map_some, Option.isSome_none, decide_eq_false fun h => h rfl]
  · rw [hfind, hmk, Option.map_some, Option.isSome_some, decide_eq_true hnull]

lemma findLoop_depth {ctx : Path K V} {k : K} (hrep : Rep t ctx s) (hfuel : s.depth < fuel) :
    Tree.findLoop cmp k fuel t (addrOf s) = some (addrOf (locate cmp k ctx s).2) := by
  induction fuel generalizing ctx s with
  | zero => omega
  | succ fuel ih =>
    cases s with
    | leaf => exact if_pos rfl
    | node c e l r =>
      obtain ⟨hnull, hk, hl, hr⟩ := node_step hrep
      rw [RedBlack.Tree.depth] at hfuel
      have hleft := ih (rep_cons.mpr hrep : Rep t (⟨.left, c, e, r⟩ :: ctx) l) (by omega)
      have hright := ih (rep_cons.mpr hrep : Rep t (⟨.right, c, e, l⟩ :: ctx) r) (by omega)
      simp only [Tree.findLoop, addrOf, if_neg hnull, hk, hl, hr, locate]
      cases cmp k e.k with
      | lt => exact hleft
      | eq => rfl
      | gt => exact hright

end Lookup

section Runs

variable (cmp fuel) in
def step (t : Tree K V) : Op K V → Option (Tree K V)
  | .put k v => t.put cmp fuel k v
  | .delete k => t.delete cmp fuel k

variable (cmp fuel) in
def run (t : Tree K V) : List (Op K V) → Option (Tree K V)
  | [] => some t
  | op :: ops => (step cmp fuel t op).bind fun t => run t ops

variable (cmp) in
def replay (ops : List (Op K V)) : K → Option V := ops.foldl (update cmp) fun _ => none

lemma step_spec [TransCmp cmp] {m : K → Option V} (h : IsTree cmp t s) (hm : Maps cmp s.toList m)
    (hfuel : 2 * t.fresh + 1 < fuel) (op : Op K V) :
    ∃ t' s', step cmp fuel t op = some t' ∧ IsTree cmp t' s' ∧
    Maps cmp s'.toList (update cmp m op) ∧
      t'.fresh ≤ t.fresh + 1 := by
  cases op with
  | put k v =>
    have hlt : t.fresh < fuel := by omega
    obtain ⟨t', s', hrun, h', hput, -, hnext⟩ := put_spec (k := k) (v := v) h hlt
    exact ⟨t', s', hrun, h', hput.maps h.sorted hm, Nat.le_of_eq hnext⟩
  | delete k =>
    obtain ⟨t', s', hrun, h', hdelete, hnext⟩ := delete_spec (k := k) h hfuel
    exact ⟨t', s', hrun, h', hdelete.maps h.sorted hm, by omega⟩

lemma isTree_init : IsTree cmp (Tree.init : Tree K V) .leaf := by
  refine ⟨⟨rfl, trivial, .nil, nofun, ⟨rfl, rfl, rfl⟩, Nat.zero_lt_one⟩, ?_, .nil⟩
  exact fits_nil.mpr ⟨0, .leaf, rfl⟩

lemma run_spec [TransCmp cmp] {m : K → Option V} (h : IsTree cmp t s) (hm : Maps cmp s.toList m)
    (ops : List (Op K V)) (hfuel : 2 * (t.fresh + ops.length) + 1 < fuel) :
    ∃ t' s', run cmp fuel t ops = some t' ∧ IsTree cmp t' s' ∧
      Maps cmp s'.toList (ops.foldl (update cmp) m) ∧ t'.fresh ≤ t.fresh + ops.length := by
  induction ops generalizing t s m with
  | nil => exact ⟨t, s, rfl, h, hm, .refl⟩
  | cons op ops ih =>
    rw [length_cons] at hfuel
    have hlt : 2 * t.fresh + 1 < fuel := by omega
    obtain ⟨t1, s1, hstep, h1, hm1, hnext1⟩ := step_spec h hm hlt op
    obtain ⟨t', s', hrun, h', hm', hnext⟩ := ih h1 hm1 (by omega)
    refine ⟨t', s', ?_, h', hm', ?_⟩
    · rwa [run, hstep]
    · rw [length_cons]
      omega

lemma maps_nil (cmp : K → K → Ordering) : Maps cmp ([] : List (Entry K V)) fun _ => none :=
  fun _ _ => iff_of_false nofun fun ⟨_, he, _⟩ => nomatch he

lemma run_init (cmp : K → K → Ordering) [TransCmp cmp] (ops : List (Op K V))
    (hfuel : 2 * ops.length + 3 < fuel) :
    ∃ t s, run cmp fuel .init ops = some t ∧ IsTree cmp t s ∧
      Maps cmp s.toList (replay cmp ops) ∧ t.fresh ≤ ops.length + 1 := by
  have hnext : (Tree.init : Tree K V).fresh = 1 := rfl
  have hlt : 2 * ((Tree.init : Tree K V).fresh + ops.length) + 1 < fuel := by omega
  obtain ⟨t, s, hrun, h, hmaps, hle⟩ := run_spec isTree_init (maps_nil cmp) ops hlt
  exact ⟨t, s, hrun, h, hmaps, by omega⟩

/-- After any sequence of operations there is a red-black search tree below `__root`, with parent
pointers, and it holds the map that they make. -/
theorem run_redBlack [TransCmp cmp] (ops : List (Op K V)) (fuel : Nat)
    (hfuel : 2 * ops.length + 3 < fuel) :
    ∃ t s, run cmp fuel .init ops = some t ∧ t.root = addrOf s ∧ Holds t null s ∧
      (s.toList.map Entry.addr).Nodup ∧ Sorted cmp s.toList ∧ (∃ h, RB h s) ∧ t.c t.root = 0 ∧
      t.c null = 0 ∧
      (∀ k, t.get cmp fuel k = some (replay cmp ops k)) ∧
      ∀ k, t.has cmp fuel k = some (replay cmp ops k).isSome := by
  obtain ⟨t, s, hrun, h, hm, hnext⟩ := run_init cmp ops hfuel
  obtain ⟨n, hn, hblack⟩ := fits_nil.mp h.fits
  have hroot : t.root = addrOf s := h.rep.path
  have hc : t.c t.root = 0 := by
    rw [hroot, c_addrOf h.rep.tree h.rep.null_black, hblack, colorInt]
  exact ⟨t, s, hrun, hroot, h.rep.tree, h.rep.nodup, h.sorted, ⟨n, hn⟩, hc, h.rep.null_black,
    get_spec h (by omega) hm, has_spec h (by omega) hm⟩

/-- Four of five keys are left. -/
def fiveKeys : List (Op Nat Nat) :=
  [.put 5 50, .put 2 20, .put 8 80, .put 1 10, .put 3 30, .delete 5]

theorem run_redBlack_nat :
    ∃ t s, run compare 20 .init fiveKeys = some t ∧ t.root = addrOf s ∧ Holds t null s ∧
      (s.toList.map Entry.addr).Nodup ∧ Sorted compare s.toList ∧ (∃ h, RB h s) ∧ t.c t.root = 0 ∧
      t.c null = 0 ∧
      (∀ k, t.get compare 20 k = some (replay compare fiveKeys k)) ∧
      ∀ k, t.has compare 20 k = some (replay compare fiveKeys k).isSome :=
  run_redBlack fiveKeys 20 (by decide)

/-- After any operations a search among `n` entries ends within `2 * log2 (n + 1) + 1` rounds. -/
theorem run_search_log [TransCmp cmp] (ops : List (Op K V)) (fuel : Nat)
    (hfuel : 2 * ops.length + 3 < fuel) :
    ∃ t s, run cmp fuel .init ops = some t ∧ IsTree cmp t s ∧
      ∀ n, 2 * (s.toList.length + 1).log2 < n → ∀ k, t.get cmp n k = some (replay cmp ops k) := by
  obtain ⟨t, s, hrun, h, hm, hnext⟩ := run_init cmp ops hfuel
  refine ⟨t, s, hrun, h, fun n hn k => ?_⟩
  obtain ⟨b, hb, hblack⟩ := fits_nil.mp h.fits
  obtain ⟨ctx, u, hu⟩ := h.located k
  have hroot : t.root = addrOf s := h.rep.path
  have hdepth : s.depth < n := Nat.lt_of_le_of_lt (hb.depth_le_log hblack) hn
  have hlt : t.fresh < fuel := by omega
  rw [← get_spec h hlt hm, Tree.get, Tree.get, hu.findNode_eq h hlt, Tree.findNode, hroot,
    findLoop_depth h.rep hdepth, hu.way]

theorem run_search_log_nat : replay compare fiveKeys 3 = some 30 ∧
    ∃ t s, run compare 16 .init fiveKeys = some t ∧ IsTree compare t s ∧
      ∀ n, 2 * (s.toList.length + 1).log2 < n → ∀ k,
        t.get compare n k = some (replay compare fiveKeys k) :=
  ⟨rfl, run_search_log fiveKeys 16 (by decide)⟩

end Runs

end TyLang.Trees
