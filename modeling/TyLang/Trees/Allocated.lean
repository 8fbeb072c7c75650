import TyLang.Trees.Model

/-!
The pointers of a tree lead to nodes that have been allocated, also from the nodes that a deletion
has taken out and from the sentinel.
-/
namespace TyLang.Trees
open RedBlack

namespace Tree

variable {K V : Type} {cmp : K → K → Ordering} {n fuel : Nat} {t : Tree K V} {x y z : Addr}
    {d : Side}

variable (n t) in
/-- All pointers are below the bound, and the nodes below it have keys. -/
structure Allocated : Prop where
  key : ∀ a, a ≠ null → a < n → (t.nodes a).k.isSome
  child : ∀ a d, t.child a d < n
  parent : ∀ a, t.p a < n
  root : t.root < n

section Assignments

section
variable (h : Allocated n t)
include h

lemma Allocated.modify {f : Node K V → Node K V}
    (hk : ∀ o, (f o).k = o.k) (hchild : ∀ o d, (f o).child d = o.child d ∨ (f o).child d < n)
    (hp : ∀ o, (f o).p = o.p ∨ (f o).p < n) : Allocated n (t.modify x f) := by
  refine ⟨fun a ha hn => ?_, fun a d => ?_, fun a => ?_, h.root⟩
  · have hkey := h.key a ha hn
    dsimp only [Tree.modify]
    split
    · rwa [hk]
    · exact hkey
  · have hold := h.child a d
    dsimp only [Tree.child, Tree.modify]
    split
    · rcases hchild (t.nodes a) d with heq | hlt
      · rwa [heq]
      · exact hlt
    · exact hold
  · have hold := h.parent a
    dsimp only [Tree.p, Tree.modify]
    split
    · rcases hp (t.nodes a) with heq | hlt
      · rwa [heq]
      · exact hlt
    · exact hold

lemma Allocated.setChild (hy : y < n) : Allocated n (t.setChild x d y) := by
  refine h.modify (fun o => ?_) (fun o e => ?_) fun o => ?_
  · cases d <;> rfl
  · cases d <;> cases e <;> first | exact .inl rfl | exact .inr hy
  · cases d <;> exact .inl rfl

lemma Allocated.setP (hy : y < n) : Allocated n (t.setP x y) :=
  h.modify (fun _ => rfl) (fun _ e => .inl (by cases e <;> rfl)) fun _ => .inr hy

lemma Allocated.setC {c : Int} : Allocated n (t.setC x c) :=
  h.modify (fun _ => rfl) (fun _ e => .inl (by cases e <;> rfl)) fun _ => .inl rfl

lemma Allocated.setV {v : V} : Allocated n (t.setV x v) :=
  h.modify (fun _ => rfl) (fun _ e => .inl (by cases e <;> rfl)) fun _ => .inl rfl

lemma Allocated.setRoot (hy : y < n) : Allocated n { t with root := y } :=
  ⟨h.key, h.child, h.parent, hy⟩

lemma Allocated.relink (hy : y < n) : Allocated n (t.relink d x y) := by
  unfold Tree.relink
  split
  · exact h.setRoot hy
  · split
    · exact h.setChild hy
    · exact h.setChild hy

lemma Allocated.rotate (hx : x < n) : Allocated n (t.rotate d x) := by
  have hy := h.child x d.flip
  have h1 : Allocated n (t.setChild x d.flip (t.child (t.child x d.flip) d)) :=
    h.setChild (h.child _ _)
  unfold Tree.rotate
  dsimp only
  split
  · have h2 := h1.setP (x := (t.setChild x d.flip (t.child (t.child x d.flip) d)).child
      (t.child x d.flip) d) hx
    exact (((h2.setP (h2.parent x)).relink hy).setChild hx).setP hy
  · exact (((h1.setP (h1.parent x)).relink hy).setChild hx).setP hy

lemma Allocated.transplant (hy : y < n) : Allocated n (t.transplant x y) :=
  (h.relink hy).setP ((h.relink hy).parent x)

end

end Assignments

variable {t' : Tree K V} {k : K}

section Put

lemma Allocated.liftParent (h : Allocated n t) : Allocated n (t.liftParent d z) :=
  h.setC.setC.rotate (h.setC.setC.parent _)

lemma Allocated.ifixupRound (h : Allocated n t) (hz : z < n) :
    Allocated n (t.ifixupRound d z).1 ∧ (t.ifixupRound d z).2 < n := by
  unfold Tree.ifixupRound
  dsimp only
  split
  · exact ⟨h.setC.setC.setC, h.setC.setC.setC.parent _⟩
  · split
    · exact ⟨(h.rotate (h.parent z)).liftParent, h.parent z⟩
    · exact ⟨h.liftParent, hz⟩

lemma Allocated.ifixup (h : Allocated n t) (hz : z < n)
    (hrun : ifixup fuel t z = some t') : Allocated n t' := by
  induction fuel generalizing t z with
  | zero => cases hrun
  | succ fuel ih =>
    rw [Tree.ifixup] at hrun
    split at hrun
    · cases hrun
      exact h.setC
    · exact ih (h.ifixupRound hz).1 (h.ifixupRound hz).2 hrun

lemma Allocated.putLoop {v : V} {r : Tree K V ⊕ Addr} (h : Allocated n t) (hx : x < n) (hy : y < n)
    (hrun : putLoop cmp k v fuel t y x = some r) :
    (∀ t', r = .inl t' → Allocated n t') ∧ ∀ y', r = .inr y' → y' < n := by
  induction fuel generalizing x y with
  | zero => cases hrun
  | succ fuel ih =>
    rw [Tree.putLoop] at hrun
    split at hrun
    · cases hrun
      exact ⟨nofun, fun y' hy' => by cases hy'; exact hy⟩
    split at hrun
    · cases hrun
    · split at hrun
      · exact ih (h.child x .left) hx hrun
      · cases hrun
        exact ⟨fun t' ht' => by cases ht'; exact h.setV, nofun⟩
      · exact ih (h.child x .right) hx hrun

lemma Allocated.alloc {v : V} (h : Allocated t.fresh t) :
    Allocated (t.fresh + 1) (t.alloc k v) := by
  refine ⟨fun a ha hn => ?_, fun a d => ?_, fun a => ?_, Nat.lt_succ_of_lt h.root⟩
  · dsimp only [Tree.alloc]
    split
    · rfl
    · next hne => exact h.key a ha (Nat.lt_of_le_of_ne (Nat.le_of_lt_succ hn) hne)
  · have hold := h.child a d
    dsimp only [Tree.child, Tree.alloc]
    split
    · cases d <;> exact Nat.succ_pos _
    · exact Nat.lt_succ_of_lt hold
  · have hold := h.parent a
    dsimp only [Tree.p, Tree.alloc]
    split
    · exact Nat.succ_pos _
    · exact Nat.lt_succ_of_lt hold

lemma Allocated.attach (h : Allocated n t) (hz : z < n) (hy : y < n) :
    Allocated n (t.attach cmp k z y) := by
  unfold Tree.attach
  dsimp only
  refine Allocated.setC ?_
  split
  · exact (h.setP hy).setRoot hz
  · split
    · exact (h.setP hy).setChild hz
    · exact (h.setP hy).setChild hz

lemma Allocated.put {v : V} (h : Allocated t.fresh t)
    (hrun : t.put cmp fuel k v = some t') : Allocated (t.fresh + 1) t' := by
  have hnew := h.alloc (k := k) (v := v)
  unfold Tree.put at hrun
  dsimp only at hrun
  split at hrun
  · cases hrun
  · next t1 hloop =>
      cases hrun
      exact (hnew.putLoop hnew.root (Nat.succ_pos _) hloop).1 _ rfl
  · next y hloop =>
      have hy := (hnew.putLoop hnew.root (Nat.succ_pos _) hloop).2 y rfl
      exact (hnew.attach (Nat.lt_succ_self _) hy).ifixup (Nat.lt_succ_self _) hrun

end Put

section Delete

section
variable (h : Allocated n t)
include h

lemma Allocated.and_child : Allocated n t ∧ t.child x d < n := ⟨h, h.child x d⟩

lemma Allocated.and_root : Allocated n t ∧ t.root < n := ⟨h, h.root⟩

lemma Allocated.blackSibling :
    Allocated n (t.blackSibling d x).1 ∧ (t.blackSibling d x).2 < n := by
  unfold Tree.blackSibling
  dsimp only
  split
  · exact Allocated.and_child (h.setC.setC.rotate (h.setC.setC.parent x))
  · exact h.and_child

lemma Allocated.redNephew (hy : y < n) :
    Allocated n (t.redNephew d x y).1 ∧ (t.redNephew d x y).2 < n := by
  unfold Tree.redNephew
  dsimp only
  split
  · exact Allocated.and_child (h.setC.setC.rotate hy)
  · exact ⟨h, hy⟩

lemma Allocated.dfixupRound : Allocated n (t.dfixupRound d x).1 ∧ (t.dfixupRound d x).2 < n := by
  obtain ⟨h1, hw⟩ := h.blackSibling (d := d) (x := x)
  unfold Tree.dfixupRound
  dsimp only
  split
  · exact ⟨h1.setC, h1.parent x⟩
  · have h2 := (h1.redNephew (d := d) (x := x) hw).1
    exact Allocated.and_root (h2.setC.setC.setC.rotate (h2.setC.setC.setC.parent x))

end

lemma Allocated.dfixup (h : Allocated n t) (hrun : dfixup fuel t x = some t') :
    Allocated n t' := by
  induction fuel generalizing t x with
  | zero => cases hrun
  | succ fuel ih =>
    rw [Tree.dfixup] at hrun
    split at hrun
    · exact ih h.dfixupRound.1 hrun
    · cases hrun
      exact h.setC

lemma Allocated.treeEnd (h : Allocated n t) (hx : x < n) (hrun : treeEnd d fuel t x = some y) :
    y < n := by
  induction fuel generalizing x with
  | zero => cases hrun
  | succ fuel ih =>
    rw [Tree.treeEnd] at hrun
    split at hrun
    · exact ih (h.child x d) hrun
    · cases hrun
      exact hx

lemma Allocated.moveUp (h : Allocated n t) (hy : y < n) : Allocated n (t.moveUp z y) := by
  have hplace {t : Tree K V} (h : Allocated n t) : Allocated n
      (let t := t.transplant z y
       let t := t.setL y (t.l z)
       let t := t.setP (t.l y) y
       t.setC y (t.c z)) :=
    (((h.transplant hy).setChild ((h.transplant hy).child z .left)).setP hy).setC
  unfold Tree.moveUp
  dsimp only
  split
  · exact hplace (h.setP hy)
  · have h1 := h.transplant (x := y) (h.child y .right)
    exact hplace ((h1.setChild (h1.child z .right)).setP hy)

lemma Allocated.deleteNode (h : Allocated n t)
    (hrun : deleteNode t fuel z = some t') : Allocated n t' := by
  have hfixup {t : Tree K V} {c : Int} {x : Addr} (h : Allocated n t)
      (hrun : (if c = 0 then Tree.dfixup fuel t x else some t) = some t') : Allocated n t' := by
    split at hrun
    · exact h.dfixup hrun
    · cases hrun
      exact h
  unfold Tree.deleteNode at hrun
  dsimp only at hrun
  split at hrun
  · exact hfixup (h.transplant (h.child z .right)) hrun
  · split at hrun
    · exact hfixup (h.transplant (h.child z .left)) hrun
    · split at hrun
      · cases hrun
      · next y hmin => exact hfixup (h.moveUp (h.treeEnd (h.child z .right) hmin)) hrun

lemma Allocated.delete (h : Allocated n t)
    (hrun : t.delete cmp fuel k = some t') : Allocated n t' := by
  unfold Tree.delete at hrun
  split at hrun
  · cases hrun
  · split at hrun
    · exact h.deleteNode hrun
    · cases hrun
      exact h

end Delete

lemma Allocated.climb (h : Allocated n t) (hrun : climb d fuel t x = some y) : y < n := by
  induction fuel generalizing x with
  | zero => cases hrun
  | succ fuel ih =>
    rw [Tree.climb] at hrun
    split at hrun
    · exact ih hrun
    · cases hrun
      exact h.parent x

lemma Allocated.neighborNode (h : Allocated n t) (hrun : neighborNode d t fuel x = some y) :
    y < n := by
  unfold Tree.neighborNode at hrun
  split at hrun
  · exact h.treeEnd (h.child x d.flip) hrun
  · exact h.climb hrun

end Tree

end TyLang.Trees
