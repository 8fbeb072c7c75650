import Mathlib

/-!
Marking with a list of nodes that are still to be visited. A visit performs the actions
of a node: each marks some cells and adds nodes to the list, unless it has a guard and
that is marked already. Nothing here says what the nodes and the cells are.
-/
namespace TyLang.Machine

/-- The outcome of a run, if it ends within the given number of steps. -/
def run {S O : Type} (step : S → S ⊕ O) : Nat → S → Option O
  | 0, _ => none
  | fuel + 1, s =>
    match step s with
    | .inl t => run step fuel t
    | .inr o => some o

end TyLang.Machine

namespace TyLang.Marking
open List

structure Action (N A : Type) where
  /-- The cell whose mark says that the action has been performed. -/
  guard : Option A
  sets : List A
  pushes : List N

section Visits

variable {N A : Type} [DecidableEq A]

def setAll (marks : A → Bool) (cells : List A) : A → Bool := fun a => marks a || cells.contains a

def blocked (act : Action N A) (marks : A → Bool) : Bool :=
  match act.guard with
  | some a => marks a
  | none => false

/-- The marks that the actions leave, and the nodes that they add. -/
def perform : List (Action N A) → (A → Bool) → (A → Bool) × List N
  | [], marks => (marks, [])
  | act :: acts, marks =>
    if blocked act marks then perform acts marks
    else
      ((perform acts (setAll marks act.sets)).1,
        act.pushes ++ (perform acts (setAll marks act.sets)).2)

structure State (N A : Type) where
  marks : A → Bool
  /-- The node that was added last comes first. -/
  work : List N

variable (actions : N → List (Action N A)) (fails : N → Bool)

/-- The marking ends with the marks when nothing is left, and with nothing at a node that
cannot be visited. -/
def step (s : State N A) : State N A ⊕ Option (A → Bool) :=
  match s.work with
  | [] => .inr (some s.marks)
  | n :: work =>
    if fails n then .inr none
    else
      .inl ⟨(perform (actions n) s.marks).1, (perform (actions n) s.marks).2.reverse ++ work⟩

def start (n : N) : State N A := ⟨fun _ => false, [n]⟩

end Visits

section Edges

variable {N A : Type} (actions : N → List (Action N A))

def Follows (n m : N) : Prop := ∃ act ∈ actions n, m ∈ act.pushes

/-- The node is added again at every visit. -/
def Repeats (n m : N) : Prop := ∃ act ∈ actions n, act.guard = none ∧ m ∈ act.pushes

def Reaches : N → N → Prop := Relation.ReflTransGen (Follows actions)

def Marks (n : N) (a : A) : Prop := ∃ act ∈ actions n, a ∈ act.sets

/-- An action marks its guard, and whatever marks the guard of an action does all that
the action does. -/
structure Coherent : Prop where
  guarded : ∀ n, ∀ act ∈ actions n, ∀ a, act.guard = some a → a ∈ act.sets
  covers : ∀ n, ∀ act ∈ actions n, ∀ n', ∀ act' ∈ actions n', ∀ a, act'.guard = some a →
    a ∈ act.sets →
    act'.sets ⊆ act.sets ∧ act'.pushes ⊆ act.pushes

end Edges

section Performed

variable {N A : Type} [DecidableEq A] {actions : N → List (Action N A)}

lemma setAll_iff {marks : A → Bool} {cells : List A} {a : A} :
    setAll marks cells a ↔ marks a ∨ a ∈ cells := by
  simp [setAll]

/-- The actions that are performed, the others having a guard that is marked. -/
lemma perform_spec (acts : List (Action N A)) (marks : A → Bool) : ∃ done ⊆ acts,
    (∀ a, (perform acts marks).1 a ↔ marks a ∨ ∃ act ∈ done, a ∈ act.sets) ∧
    (∀ m, m ∈ (perform acts marks).2 ↔ ∃ act ∈ done, m ∈ act.pushes) ∧
    ∀ act ∈ acts, act ∈ done ∨ ∃ a, act.guard = some a ∧ (perform acts marks).1 a := by
  induction acts generalizing marks with
  | nil => exact ⟨[], nofun, by simp [perform], by simp [perform], nofun⟩
  | cons act acts ih =>
    rw [perform]
    split
    next hblocked =>
      obtain ⟨done, hsub, hmarks, hpushes, hall⟩ := ih marks
      refine ⟨done, subset_cons_of_subset _ hsub, hmarks, hpushes,
        forall_mem_cons.mpr ⟨.inr ?_, hall⟩⟩
      cases hguard : act.guard with
      | none => simp [blocked, hguard] at hblocked
      | some a => exact ⟨a, rfl, (hmarks a).mpr (.inl (by simpa [blocked, hguard] using hblocked))⟩
    next =>
      obtain ⟨done, hsub, hmarks, hpushes, hall⟩ := ih (setAll marks act.sets)
      refine ⟨act :: done, cons_subset_cons act hsub, fun a => ?_, fun m => ?_,
        forall_mem_cons.mpr ⟨.inl (.head _), fun act' h => ?_⟩⟩
      · simp only [hmarks, setAll_iff, mem_cons, exists_eq_or_imp, or_assoc]
      · simp only [mem_append, hpushes, mem_cons, exists_eq_or_imp]
      · exact (hall act' h).imp_left (mem_cons_of_mem act)

/-- The marks and the work that the visit of a node leaves. -/
def visit (actions : N → List (Action N A)) (marks : A → Bool) (n : N) (work : List N) :
    State N A :=
  ⟨(perform (actions n) marks).1, (perform (actions n) marks).2.reverse ++ work⟩

lemma visit_repeats {n m : N} (hrep : Repeats actions n m) (marks : A → Bool) (work : List N) :
    m ∈ (visit actions marks n work).work := by
  obtain ⟨act, hact, hguard, hm⟩ := hrep
  obtain ⟨done, -, -, hpushes, hall⟩ := perform_spec (actions n) marks
  rcases hall act hact with hdone | ⟨a, ha, -⟩
  · exact mem_append_left _ (mem_reverse.mpr ((hpushes m).mpr ⟨act, hdone, hm⟩))
  · rw [hguard] at ha
    cases ha

lemma visit_follows {marks : A → Bool} {n m : N} {work : List N}
    (hm : m ∈ (visit actions marks n work).work) : Follows actions n m ∨ m ∈ work := by
  obtain ⟨done, hsub, -, hpushes, -⟩ := perform_spec (actions n) marks
  rcases mem_append.mp hm with hm | hm
  · obtain ⟨act, hact, hm⟩ := (hpushes m).mp (mem_reverse.mp hm)
    exact .inl ⟨act, hsub hact, hm⟩
  · exact .inr hm

end Performed

section Runs

variable {N A : Type} {actions : N → List (Action N A)} {fails : N → Bool}
  {root : N} {visited : N → Prop} {s : State N A} {n : N} {work : List N} {marks : A → Bool}

/-- Visits so far: what they marked, and that what they led to has been visited or is still
to be. -/
structure Inv (actions : N → List (Action N A)) (root : N) (visited : N → Prop) (s : State N A) :
    Prop where
  begun : visited root ∨ root ∈ s.work
  reached : ∀ n, visited n ∨ n ∈ s.work → Reaches actions root n
  marked : ∀ a, s.marks a → ∃ n, visited n ∧ Marks actions n a
  closed : ∀ n, visited n → ∀ act ∈ actions n, (∀ b ∈ act.sets, s.marks b) ∧
    ∀ m ∈ act.pushes, visited m ∨ m ∈ s.work

/-- What an action does has been done, or is going to be. -/
def Settled (visited : N → Prop) (s : State N A) (act : Action N A) : Prop :=
  (∀ b ∈ act.sets, s.marks b) ∧ ∀ m ∈ act.pushes, visited m ∨ m ∈ s.work

lemma Settled.mono {act act' : Action N A} (h : Settled visited s act')
    (hsub : act.sets ⊆ act'.sets ∧ act.pushes ⊆ act'.pushes) : Settled visited s act :=
  ⟨fun b hb => h.1 b (hsub.1 hb), fun m hm => h.2 m (hsub.2 hm)⟩

lemma inv_start (n : N) : Inv actions n (fun _ => False) (start n) where
  begun := .inr (.head _)
  reached m hm := by
    rcases hm with hm | hm
    · exact hm.elim
    · rw [mem_singleton.mp hm]
      exact .refl
  marked _ h := by cases h
  closed _ h := h.elim

lemma Inv.visited_of_reaches (h : Inv actions root visited ⟨marks, []⟩)
    (hn : Reaches actions root n) : visited n := by
  induction hn with
  | refl =>
    rcases h.begun with hroot | hroot
    · exact hroot
    · cases hroot
  | tail _ hstep ih =>
    obtain ⟨act, hact, hm⟩ := hstep
    rcases (h.closed _ ih act hact).2 _ hm with hm | hm
    · exact hm
    · cases hm

variable [DecidableEq A] {fuel : Nat}

lemma inv_visit (hco : Coherent actions) (h : Inv actions root visited s)
    (hwork : s.work = n :: work) :
    Inv actions root (fun m => visited m ∨ m = n) (visit actions s.marks n work) := by
  obtain ⟨done, hsub, hmarks, hpushes, hall⟩ := perform_spec (actions n) s.marks
  have hn : Reaches actions root n := h.reached n (.inr (by rw [hwork]; exact mem_cons_self))
  have hknown : ∀ m, visited m ∨ m ∈ s.work →
      (visited m ∨ m = n) ∨ m ∈ (visit actions s.marks n work).work := by
    intro m hm
    rw [hwork, mem_cons] at hm
    rw [visit, mem_append]
    tauto
  have hold : ∀ m, visited m → ∀ act ∈ actions m,
      Settled (fun m => visited m ∨ m = n) (visit actions s.marks n work) act := by
    intro m hm act hact
    obtain ⟨hsets, hpush⟩ := h.closed m hm act hact
    exact ⟨fun b hb => (hmarks b).mpr (.inl (hsets b hb)), fun k hk => hknown k (hpush k hk)⟩
  have hnew : ∀ act ∈ done,
      Settled (fun m => visited m ∨ m = n) (visit actions s.marks n work) act :=
    fun act hact => ⟨fun b hb => (hmarks b).mpr (.inr ⟨act, hact, hb⟩),
      fun k hk => .inr (mem_append_left _ (mem_reverse.mpr ((hpushes k).mpr ⟨act, hact, hk⟩)))⟩
  refine ⟨hknown root h.begun, fun m hm => ?_, fun a ha => ?_, fun m hm act hact => ?_⟩
  · rcases hm with (hm | rfl) | hm
    · exact h.reached m (.inl hm)
    · exact hn
    · rcases visit_follows hm with hm | hm
      · exact hn.tail hm
      · exact h.reached m (.inr (by rw [hwork]; exact .tail _ hm))
  · rcases (hmarks a).mp ha with ha | ⟨act, hact, ha⟩
    · obtain ⟨m, hm, hmarks⟩ := h.marked a ha
      exact ⟨m, .inl hm, hmarks⟩
    · exact ⟨n, .inr rfl, act, hsub hact, ha⟩
  · rcases hm with hm | rfl
    · exact hold m hm act hact
    · -- what marked the guard of an action has done all that the action does
      rcases hall act hact with hdone | ⟨a, hguard, ha⟩
      · exact hnew act hdone
      · rcases (hmarks a).mp ha with ha | ⟨act', hact', ha⟩
        · obtain ⟨k, hk, act', hact', hset⟩ := h.marked a ha
          exact (hold k hk act' hact').mono (hco.covers k act' hact' m act hact a hguard hset)
        · exact (hnew act' hact').mono (hco.covers m act' (hsub hact') m act hact a hguard ha)

lemma step_cons (hwork : s.work = n :: work) (hfails : fails n = false) :
    step actions fails s = .inl (visit actions s.marks n work) := by
  rw [step, hwork]
  simp [hfails, visit]

lemma run_cons (hwork : s.work = n :: work)
    (hrun : Machine.run (step actions fails) fuel s = some (some marks)) :
    fails n = false ∧ ∃ fuel', fuel = fuel' + 1 ∧
      Machine.run (step actions fails) fuel' (visit actions s.marks n work) =
        some (some marks) := by
  cases fuel with
  | zero => cases hrun
  | succ fuel =>
    cases hfails : fails n with
    | true =>
      rw [Machine.run, step, hwork] at hrun
      simp [hfails] at hrun
    | false =>
      rw [Machine.run, step_cons hwork hfails] at hrun
      exact ⟨rfl, fuel, rfl, hrun⟩

/-- A node that is added again by what it adds is never done with. -/
lemma not_repeats_of_run
    (hrun : Machine.run (step actions fails) fuel s = some (some marks)) (hn : n ∈ s.work) :
    ¬ Relation.TransGen (Repeats actions) n n := by
  induction fuel generalizing s n with
  | zero => cases hrun
  | succ fuel ih =>
    intro hcycle
    cases hwork : s.work with
    | nil =>
      rw [hwork] at hn
      cases hn
    | cons m work =>
      obtain ⟨-, _, heq, hrest⟩ := run_cons hwork hrun
      cases heq
      rw [hwork] at hn
      rcases mem_cons.mp hn with rfl | hn
      · -- the next node on the cycle is added
        obtain ⟨k, hrep, hback⟩ := Relation.TransGen.head'_iff.mp hcycle
        have hk : Relation.TransGen (Repeats actions) k k := Relation.TransGen.tail' hback hrep
        exact ih hrest (visit_repeats hrep _ _) hk
      · exact ih hrest (mem_append_right _ hn) hcycle

lemma run_spec (hco : Coherent actions)
    (h : Inv actions root visited s) (hfine : ∀ n, visited n → fails n = false ∧
      ¬ Relation.TransGen (Repeats actions) n n)
    (hrun : Machine.run (step actions fails) fuel s = some (some marks)) :
    ∃ visited', Inv actions root visited' ⟨marks, []⟩ ∧ ∀ n, visited' n → fails n = false ∧
      ¬ Relation.TransGen (Repeats actions) n n := by
  induction fuel generalizing s visited with
  | zero => cases hrun
  | succ fuel ih =>
    cases hwork : s.work with
    | nil =>
      rw [Machine.run, step, hwork] at hrun
      cases hrun
      obtain ⟨marks, work⟩ := s
      cases hwork
      exact ⟨visited, h, hfine⟩
    | cons n work =>
      obtain ⟨hfails, _, heq, hrest⟩ := run_cons hwork hrun
      cases heq
      refine ih (inv_visit hco h hwork) (fun m hm => ?_) hrest
      rcases hm with hm | rfl
      · exact hfine m hm
      · exact ⟨hfails, not_repeats_of_run hrun (by rw [hwork]; exact mem_cons_self)⟩

/-- The marks at the end are those of the nodes that can be reached, all of which could be
visited, and none of which leads back to itself by actions without a guard. -/
lemma marks_of_run (hco : Coherent actions)
    (hrun : Machine.run (step actions fails) fuel (start root) = some (some marks)) :
    (∀ a, marks a ↔ ∃ n, Reaches actions root n ∧ Marks actions n a) ∧
      ∀ n, Reaches actions root n → fails n = false ∧
      ¬ Relation.TransGen (Repeats actions) n n := by
  obtain ⟨visited, h, hfine⟩ := run_spec hco (inv_start root) (fun _ h => h.elim) hrun
  refine ⟨fun a => ⟨fun ha => ?_, fun ⟨n, hn, act, hact, ha⟩ => ?_⟩,
    fun n hn => hfine n (h.visited_of_reaches hn)⟩
  · obtain ⟨n, hn, hmarks⟩ := h.marked a ha
    exact ⟨n, h.reached n (.inl hn), hmarks⟩
  · exact (h.closed n (h.visited_of_reaches hn) act hact).1 a ha

end Runs

section Bounds

variable {N A : Type} {actions : N → List (Action N A)} {acts : List (Action N A)} {n m : N}

/-- The nodes that are added at every visit. -/
def repeated (acts : List (Action N A)) : List N :=
  (acts.filter fun act => act.guard.isNone).flatMap Action.pushes

lemma repeated_cons_none {act : Action N A} (hg : act.guard = none) :
    repeated (act :: acts) = act.pushes ++ repeated acts := by
  rw [repeated, filter_cons_of_pos (by rw [hg]; rfl), flatMap_cons]
  rfl

lemma repeated_cons_some {act : Action N A} {a : A}
    (hg : act.guard = some a) : repeated (act :: acts) = repeated acts := by
  rw [repeated, filter_cons_of_neg (by rw [hg]; exact Bool.false_ne_true)]
  rfl

lemma mem_repeated : m ∈ repeated (actions n) ↔ Repeats actions n m := by
  simp [repeated, Repeats, and_assoc]

lemma Repeats.follows (h : Repeats actions n m) : Follows actions n m := by
  obtain ⟨act, hact, -, hm⟩ := h
  exact ⟨act, hact, hm⟩

/-- The visits that a node stands for, as far as they do not depend on marks. -/
def weight (actions : N → List (Action N A)) : Nat → N → Nat
  | 0, _ => 0
  | d + 1, n => 1 + ((repeated (actions n)).map (weight actions d)).sum

lemma sum_map_le {l : List N} {f : N → Nat} {c b : Nat} (hf : ∀ n ∈ l, f n ≤ c)
    (hl : l.length ≤ b) : (l.map f).sum ≤ b * c := by
  have hsum : (l.map f).sum ≤ (l.map f).length * c :=
    sum_le_card_nsmul (l.map f) c (by simpa using hf)
  rw [length_map] at hsum
  exact hsum.trans (Nat.mul_le_mul_right c hl)

/-- The nodes from `root` on are finitely many, with at most `b` nodes added by each, and
none of them leads back to itself by actions without a guard. -/
structure Finite (actions : N → List (Action N A)) (root : N) (nodes : Finset N) (cells : Finset A)
    (b : Nat) : Prop where
  nodes : ∀ n, Reaches actions root n → n ∈ nodes
  cells : ∀ n, Reaches actions root n → ∀ act ∈ actions n, ∀ a, act.guard = some a → a ∈ cells
  bound : ∀ n, Reaches actions root n → ((actions n).map fun act => act.pushes.length).sum ≤ b
  acyclic : ∀ n, Reaches actions root n → ¬ Relation.TransGen (Repeats actions) n n

variable {root : N} {nodes : Finset N} {cells : Finset A} {b : Nat}

lemma length_repeated_le (acts : List (Action N A)) :
    (repeated acts).length ≤ (acts.map fun act => act.pushes.length).sum := by
  induction acts with
  | nil => exact .refl
  | cons act acts ih =>
    cases hg : act.guard with
    | none =>
      rw [repeated_cons_none hg, length_append]
      exact Nat.add_le_add_left ih _
    | some a =>
      rw [repeated_cons_some hg]
      exact ih.trans (Nat.le_add_left ..)

lemma weight_le (h : Finite actions root nodes cells b) (d : Nat)
    (hn : Reaches actions root n) : weight actions d n ≤ (b + 1) ^ d := by
  induction d generalizing n with
  | zero => exact Nat.zero_le _
  | succ d ih =>
    have hsum := sum_map_le (l := repeated (actions n)) (f := weight actions d) (c := (b + 1) ^ d)
      (fun m hm => ih (hn.tail (mem_repeated.mp hm).follows))
      (Nat.le_trans (length_repeated_le _) (h.bound n hn))
    have hpos : 1 ≤ (b + 1) ^ d := Nat.one_le_pow _ _ (Nat.succ_pos b)
    rw [weight, pow_succ, Nat.mul_succ, Nat.mul_comm _ b]
    omega

open Classical in
/-- The number of nodes that come behind a node by actions without a guard. -/
noncomputable def rank (actions : N → List (Action N A)) (nodes : Finset N) (n : N) : Nat :=
  (nodes.filter (Relation.TransGen (Repeats actions) n)).card

lemma rank_lt (h : Finite actions root nodes cells b) (hn : Reaches actions root n)
    (hrep : Repeats actions n m) : rank actions nodes m < rank actions nodes n := by
  classical
  have hm := hn.tail hrep.follows
  refine Finset.card_lt_card (Finset.ssubset_iff_of_subset (fun k hk => ?_) |>.mpr ⟨m, ?_, ?_⟩)
  · rw [Finset.mem_filter] at hk ⊢
    exact ⟨hk.1, .head hrep hk.2⟩
  · exact Finset.mem_filter.mpr ⟨h.nodes m hm, .single hrep⟩
  · exact fun hk => h.acyclic m hm (Finset.mem_filter.mp hk).2

lemma weight_stable (h : Finite actions root nodes cells b) (d : Nat)
    (hn : Reaches actions root n) (hd : rank actions nodes n < d) :
    weight actions (d + 1) n = weight actions d n := by
  induction d generalizing n with
  | zero => cases hd
  | succ d ih =>
    rw [weight, weight]
    congr 2
    refine map_congr_left fun m hm => ?_
    have hrep := mem_repeated.mp hm
    exact ih (hn.tail hrep.follows) (by have := rank_lt h hn hrep; omega)

def total (actions : N → List (Action N A)) (nodes : Finset N) (n : N) : Nat :=
  weight actions (nodes.card + 1) n

lemma total_eq (h : Finite actions root nodes cells b) (hn : Reaches actions root n) :
    total actions nodes n = 1 + ((repeated (actions n)).map (total actions nodes)).sum := by
  classical
  have hrank : rank actions nodes n < nodes.card + 1 :=
    Nat.lt_succ_of_le (Finset.card_le_card (Finset.filter_subset ..))
  rw [total, ← weight_stable h _ hn hrank]
  rfl

end Bounds

section Termination

variable {N A : Type} [DecidableEq A] {actions : N → List (Action N A)} {fails : N → Bool}
  {root : N} {nodes : Finset N} {cells : Finset A} {b : Nat}

section
variable (cells : Finset A) (marks : A → Bool)

def unmarked : Nat := (cells.filter fun a => marks a = false).card

lemma filter_setAll_subset (l : List A) :
    (cells.filter fun a => setAll marks l a = false) ⊆ cells.filter fun a => marks a = false :=
  Finset.monotone_filter_right cells fun _ _ h => (Bool.or_eq_false_iff.mp h).1

lemma unmarked_setAll_le (l : List A) : unmarked cells (setAll marks l) ≤ unmarked cells marks :=
  Finset.card_le_card (filter_setAll_subset cells marks l)

end

lemma unmarked_setAll_lt {marks : A → Bool} {l : List A} {a : A} (ha : a ∈ cells)
    (hmarks : marks a = false) (hl : a ∈ l) :
    unmarked cells (setAll marks l) < unmarked cells marks := by
  refine Finset.card_lt_card
    (Finset.ssubset_iff_of_subset (filter_setAll_subset cells marks l) |>.mpr ⟨a, ?_, ?_⟩)
  · exact Finset.mem_filter.mpr ⟨ha, hmarks⟩
  · intro hin
    have := (Finset.mem_filter.mp hin).2
    rw [setAll_iff.mpr (.inr hl)] at this
    cases this

/-- An action with a guard is paid for by the mark of the guard. -/
lemma perform_pays (cells : Finset A) {w : N → Nat} {p : Nat} (acts : List (Action N A))
    (marks : A → Bool)
    (hguard : ∀ act ∈ acts, ∀ a, act.guard = some a → a ∈ cells ∧ a ∈ act.sets)
    (hp : ∀ act ∈ acts, (act.pushes.map w).sum ≤ p) :
    ((perform acts marks).2.map w).sum + p * unmarked cells (perform acts marks).1 ≤
      ((repeated acts).map w).sum + p * unmarked cells marks := by
  induction acts generalizing marks with
  | nil => exact .refl
  | cons act acts ih =>
    have ih := fun marks => ih marks (fun act' h => hguard act' (.tail _ h))
      fun act' h => hp act' (.tail _ h)
    have hopen : blocked act marks = false →
        ((perform (act :: acts) marks).2.map w).sum +
            p * unmarked cells (perform (act :: acts) marks).1 ≤
          (act.pushes.map w).sum + ((repeated acts).map w).sum +
            p * unmarked cells (setAll marks act.sets) := by
      intro hopen
      have hrest := ih (setAll marks act.sets)
      rw [perform, if_neg (by rw [hopen]; exact Bool.false_ne_true)]
      dsimp only
      rw [map_append, sum_append]
      omega
    cases hg : act.guard with
    | none =>
      have hle := Nat.mul_le_mul_left p (unmarked_setAll_le cells marks act.sets)
      have := hopen (by rw [blocked, hg])
      rw [repeated_cons_none hg, map_append, sum_append]
      omega
    | some a =>
      rw [repeated_cons_some hg]
      cases hm : marks a with
      | true =>
        rw [perform, if_pos (by rw [blocked, hg]; exact hm)]
        exact ih marks
      | false =>
        obtain ⟨hcell, hset⟩ := hguard act (.head _) a hg
        have hle := Nat.mul_le_mul_left p
          (Nat.succ_le_of_lt (unmarked_setAll_lt hcell hm hset))
        have hpush := hp act (.head _)
        have := hopen (by rwa [blocked, hg])
        rw [Nat.mul_succ] at hle
        omega

/-- The cost of all the nodes that one action adds. -/
def price (b k : Nat) : Nat := b * (b + 1) ^ (k + 1)

/-- The visits that are still to come are at most this many. -/
def potential (actions : N → List (Action N A)) (nodes : Finset N) (cells : Finset A) (b : Nat)
    (s : State N A) : Nat :=
  (s.work.map (total actions nodes)).sum + price b nodes.card * unmarked cells s.marks

lemma potential_visit (hco : Coherent actions) (h : Finite actions root nodes cells b)
    {s : State N A} {n : N} {work : List N} (hwork : s.work = n :: work)
    (hn : Reaches actions root n) :
    potential actions nodes cells b (visit actions s.marks n work) <
      potential actions nodes cells b s := by
  have hpays := perform_pays cells (w := total actions nodes) (p := price b nodes.card)
    (actions n) s.marks
    (fun act hact a hg => ⟨h.cells n hn act hact a hg, hco.guarded n act hact a hg⟩)
    (fun act hact => by
      refine sum_map_le (fun m hm => weight_le h _ (hn.tail ⟨act, hact, hm⟩)) ?_
      exact Nat.le_trans (le_sum_of_mem
        (mem_map_of_mem (f := fun act => act.pushes.length) hact)) (h.bound n hn))
  have htotal := total_eq h hn
  rw [potential, potential, visit, hwork, map_append, sum_append, map_reverse, sum_reverse,
    map_cons, sum_cons]
  dsimp only
  omega

/-- The number of visits is bounded. -/
def visitBound (k g b : Nat) : Nat := (b + 1) ^ (k + 1) + price b k * g + 1

lemma run_ends (hco : Coherent actions) (h : Finite actions root nodes cells b)
    (hfails : ∀ n, Reaches actions root n → fails n = false) (fuel : Nat) (s : State N A)
    (hs : ∀ n ∈ s.work, Reaches actions root n)
    (hfuel : potential actions nodes cells b s < fuel) :
    ∃ marks, Machine.run (step actions fails) fuel s = some (some marks) := by
  induction fuel generalizing s with
  | zero => cases hfuel
  | succ fuel ih =>
    cases hwork : s.work with
    | nil =>
      refine ⟨s.marks, ?_⟩
      rw [Machine.run, step, hwork]
    | cons n work =>
      have hn := hs n (by rw [hwork]; exact mem_cons_self)
      rw [Machine.run, step_cons hwork (hfails n hn)]
      refine ih _ (fun m hm => ?_) ?_
      · rcases visit_follows hm with hm | hm
        · exact hn.tail hm
        · exact hs m (by rw [hwork]; exact .tail _ hm)
      · have := potential_visit hco h hwork hn
        omega

lemma start_ends (hco : Coherent actions) (h : Finite actions root nodes cells b)
    (hfails : ∀ n, Reaches actions root n → fails n = false) {k g : Nat} (hk : nodes.card ≤ k)
    (hg : cells.card ≤ g) :
    ∃ marks, Machine.run (step actions fails) (visitBound k g b) (start root) =
      some (some marks) := by
  refine run_ends hco h hfails _ _ (fun n hn => ?_) ?_
  · rw [mem_singleton.mp hn]
    exact .refl
  have hpow : (b + 1) ^ (nodes.card + 1) ≤ (b + 1) ^ (k + 1) :=
    Nat.pow_le_pow_right (Nat.succ_pos b) (Nat.succ_le_succ hk)
  have hroot : total actions nodes root ≤ (b + 1) ^ (nodes.card + 1) := weight_le h _ .refl
  have hcells : unmarked cells (fun _ => false) ≤ cells.card :=
    Finset.card_le_card (Finset.filter_subset ..)
  have hprice : price b nodes.card * unmarked cells (fun _ => false) ≤ price b k * g :=
    Nat.mul_le_mul (Nat.mul_le_mul_left b hpow) (hcells.trans hg)
  rw [potential, start, visitBound, map_singleton, sum_singleton]
  dsimp only
  omega

end Termination

end TyLang.Marking
