import TyLang.Gc.Heap

/-!
What `_value_mark` marks and when it returns. The storage that a value keeps is compared
with the storage that the marking gets to.
-/
namespace TyLang.Gc
open List

open Marking (Action Follows Repeats Reaches setAll perform)

section References

variable (H : Heap)

def captured (e : Nat) : List Val := (H.env e).filterMap fun c => c.map H.cell

/-- The values that a value refers to. -/
def contents : Val → List Val
  | .scalar | .string _ => []
  | .array a => H.array a
  | .tuple items => items.elim [] H.tuple
  | .dict d => (H.dict d).1.toList ++ (H.dict d).2.flatMap fun (k, v) => [k, v]
  | .queue q => H.queue q
  | .object o => (H.object o).1 ++ (H.object o).2
  | .function f => (f.metaCell.map H.cell).toList ++ f.env.elim [] (captured H)
  | .method this bound => H.cell this :: (bound.bind H.second).toList
  | .builtinMethod this => [H.cell this]
  | .ref c => [H.cell c]
  | .pointer gcptr =>
    match gcptr with
    | some (.cell c) => [H.cell c]
    | some (.auto n) => [H.auto n]
    | some (.bytes _) | none => []
  | .classValue c => H.statics c
  | .generator g =>
    (H.generator g).f ::
      match (H.generator g).st with
      | none => []
      | some st =>
        st.stack ++ st.targets.filterMap Target.followed ++ st.tryStack.flatten ++ st.toDrop ++
          st.gcRoots ++ st.frames

/-- The allocations that a value keeps. -/
def storage : Val → List Alloc
  | .scalar | .classValue _ => []
  | .string str0 => (str0.map .string).toList
  | .array a => [.array a]
  | .tuple items => items.elim [] fun i => .tuple i :: ((H.ids i).map .ids).toList
  | .dict d => [.dict d]
  | .queue q => [.queue q]
  | .object o => [.object o]
  | .function f =>
    (f.info.map .info).toList ++ (f.metaCell.map .cell).toList ++ (f.xinfo.map .xinfo).toList ++
      f.env.elim [] fun e => .env e :: (H.env e).filterMap fun c => c.map .cell
  | .method this bound => .cell this :: (bound.map .cell).toList
  | .builtinMethod this => [.cell this]
  | .ref c => [.cell c]
  | .pointer gcptr =>
    match gcptr with
    | some (.cell c) => [.cell c]
    | some (.auto n) => [.auto n]
    | some (.bytes n) => [.bytes n]
    | none => []
  | .generator g =>
    .generator g ::
      match (H.generator g).st with
      | none => []
      | some st => st.targets.filterMap Target.gc

def Refers (v w : Val) : Prop := w ∈ contents H v

def Behind : Val → Val → Prop := Relation.ReflTransGen (Refers H)

/-- The values that the marking does not follow: the function that `bindMethod` has bound,
and the functions of the frames of a generator. -/
def unfollowed : Val → List Val
  | .method _ bound => (bound.bind H.second).toList
  | .generator g =>
    match (H.generator g).st with
    | none => []
    | some st => st.frames
  | _ => []

/-- The allocations that are not marked together with the value that keeps them: the cell
of the bound function, and those that a generator is about to assign to. -/
def unmarkedStorage : Val → List Alloc
  | .method _ bound => (bound.map .cell).toList
  | .generator g =>
    match (H.generator g).st with
    | none => []
    | some st => st.targets.filterMap Target.gc
  | _ => []

end References

section Actions

variable (H : Heap)

/-- What an allocation is marked together with. -/
def unit : Alloc → List Alloc
  | .tuple i => .tuple i :: ((H.ids i).map .ids).toList
  | .env e => .env e :: (H.env e).filterMap fun c => c.map .cell
  | a => [a]

/-- The values in an allocation that are marked behind it. -/
def inside : Alloc → List Val
  | .array a => H.array a
  | .tuple i => H.tuple i
  | .dict d => contents H (.dict d)
  | .queue q => H.queue q
  | .object o => contents H (.object o)
  | .env e => captured H e
  | .cell c => [H.cell c]
  | .auto n => [H.auto n]
  | .generator g =>
    (H.generator g).f ::
      match (H.generator g).st with
      | none => []
      | some st =>
        st.stack ++ st.targets.filterMap Target.followed ++ st.tryStack.flatten ++ st.toDrop ++
          st.gcRoots
  | .ids _ | .bytes _ | .string _ | .info _ | .xinfo _ => []

/-- An allocation is marked with its contents unless it is marked already. -/
def once (a : Alloc) : Action Val Alloc := ⟨some a, unit H a, inside H a⟩

/-- An allocation is marked with its contents each time. -/
def always (a : Alloc) : Action Val Alloc := ⟨none, unit H a, inside H a⟩

def actions : Val → List (Action Val Alloc)
  | .scalar => []
  | .string str0 => (str0.map fun s => always H (.string s)).toList
  | .array a => [once H (.array a)]
  | .tuple items => (items.map fun i => once H (.tuple i)).toList
  | .dict d => [once H (.dict d)]
  | .queue q => [once H (.queue q)]
  | .object o => [once H (.object o)]
  | .function f =>
    (f.info.map fun i => always H (.info i)).toList ++
      ((f.metaCell.map fun c => once H (.cell c)).toList ++
        ((f.xinfo.map fun i => always H (.xinfo i)).toList ++
          (f.env.map fun e => once H (.env e)).toList))
  | .method this _ => [once H (.cell this)]
  | .builtinMethod this => [once H (.cell this)]
  | .ref c => [always H (.cell c)]
  | .pointer gcptr =>
    match gcptr with
    | some (.cell c) => [always H (.cell c)]
    | some (.auto n) => [always H (.auto n)]
    | some (.bytes n) => [always H (.bytes n)]
    | none => []
  | .classValue c => [⟨none, [], H.statics c⟩]
  | .generator g => [once H (.generator g)]

variable {H}

variable (marks : Marks)

lemma setAll_setAll (l l' : List Alloc) :
    setAll (setAll marks l) l' = setAll marks (l ++ l') := by
  funext a
  simp [setAll, Bool.or_assoc]

lemma perform_append (acts acts' : List (Action Val Alloc)) :
    perform (acts ++ acts') marks =
      ((perform acts' (perform acts marks).1).1,
        (perform acts marks).2 ++ (perform acts' (perform acts marks).1).2) := by
  induction acts generalizing marks with
  | nil => rfl
  | cons act acts ih =>
    rw [cons_append, perform, perform]
    split
    · exact ih marks
    · rw [ih, append_assoc]

lemma perform_once (a : Alloc) :
    perform [once H a] marks =
      if marks a then (marks, []) else (setAll marks (unit H a), inside H a) := by
  change (if marks a then _ else _) = _
  split
  · rfl
  · exact Prod.ext rfl (append_nil _)

lemma perform_always (a : Alloc) :
    perform [always H a] marks = (setAll marks (unit H a), inside H a) := by
  exact Prod.ext rfl (append_nil _)

lemma markContents_eq {a : Alloc} (ha : unit H a = [a]) :
    markContents a (inside H a) marks = perform [once H a] marks := by
  rw [perform_once, ha]
  rfl

lemma markCaptured_eq (cells : List (Option Nat)) :
    markCaptured H cells marks = (setAll marks (cells.filterMap fun c => c.map .cell),
      cells.filterMap fun c => c.map H.cell) := by
  induction cells generalizing marks with
  | nil =>
    refine Prod.ext ?_ rfl
    funext a
    simp [markCaptured, setAll]
  | cons c cells ih =>
    cases c with
    | none => exact ih marks
    | some c =>
      rw [markCaptured, ih, mark, setAll_setAll]
      rfl

lemma markEnv_eq (env : Option Nat) :
    markEnv H env marks = perform (env.map fun e => once H (.env e)).toList marks := by
  cases env with
  | none => rfl
  | some e =>
    change _ = perform [once H (.env e)] marks
    rw [perform_once, markEnv, markCaptured_eq, mark, setAll_setAll]
    rfl

lemma markOpt_eq {f : Nat → Alloc} (hunit : ∀ n, unit H (f n) = [f n])
    (hinside : ∀ n, inside H (f n) = []) (a : Option Nat) :
    perform (a.map fun n => always H (f n)).toList marks = (markOpt marks (a.map f), []) := by
  cases a with
  | none => rfl
  | some n =>
    change perform [always H (f n)] marks = _
    rw [perform_always, hunit, hinside]
    rfl

lemma markMeta_eq (c : Option Nat) :
    markMeta H c marks = perform (c.map fun c => once H (.cell c)).toList marks := by
  cases c with
  | none => rfl
  | some c => exact markContents_eq marks rfl

lemma markFunction_eq (f : Fun) :
    markFunction H f marks = perform (actions H (.function f)) marks := by
  rw [actions, perform_append, markOpt_eq _ (fun _ => rfl) (fun _ => rfl), perform_append,
    ← markMeta_eq, perform_append, markOpt_eq _ (fun _ => rfl) (fun _ => rfl), ← markEnv_eq]
  rfl

lemma valueMarkXd_eq (v : Val) :
    valueMarkXd H v marks = perform (actions H v) marks := by
  cases v with
  | scalar => rfl
  | string str0 => exact (markOpt_eq marks (fun _ => rfl) (fun _ => rfl) str0).symm
  | tuple items =>
    cases items with
    | none => rfl
    | some i =>
      change _ = perform [once H (.tuple i)] marks
      rw [perform_once]
      change markTuple H (some i) marks = _
      rw [markTuple, mark, unit]
      cases H.ids i with
      | none => rfl
      | some j =>
        change (if marks (.tuple i) then _ else (setAll (setAll marks _) _, _)) = _
        rw [setAll_setAll]
        rfl
  | array | dict | queue | object | method | builtinMethod | generator =>
    exact markContents_eq marks rfl
  | function f => exact markFunction_eq marks f
  | ref c => exact (perform_always marks (.cell c)).symm
  | pointer gcptr =>
    cases gcptr with
    | none => rfl
    | some block =>
      cases block with
      | cell c => exact (perform_always marks (.cell c)).symm
      | auto n => exact (perform_always marks (.auto n)).symm
      | bytes n => exact (perform_always marks (.bytes n)).symm
  | classValue c =>
    change (marks, H.statics c) = perform [⟨none, [], H.statics c⟩] marks
    refine Prod.ext ?_ (append_nil _).symm
    funext a
    simp [perform, setAll, Marking.blocked]

lemma valueMarkStep_eq : valueMarkStep H = Marking.step (actions H) (markFails H) := by
  funext s
  rw [valueMarkStep, Marking.step]
  cases s.work with
  | nil => rfl
  | cons v work =>
    dsimp only
    rw [valueMarkXd_eq]

end Actions

section Coherence

variable {H : Heap} {v w : Val} {a b : Alloc}

lemma self_mem_unit (a : Alloc) : a ∈ unit H a := by
  cases a <;> exact (.head _)

lemma unit_subset (h : a ∈ unit H b) : unit H a ⊆ unit H b ∧ inside H a ⊆ inside H b := by
  cases b with
  | tuple i =>
    rcases mem_cons.mp h with rfl | h
    · exact ⟨fun _ => id, fun _ => id⟩
    · obtain ⟨j, hj, rfl⟩ : ∃ j, H.ids i = some j ∧ .ids j = a := by simpa using h
      refine ⟨fun c hc => ?_, nofun⟩
      rw [mem_singleton.mp hc]
      exact .tail _ h
  | env e =>
    rcases mem_cons.mp h with rfl | h
    · exact ⟨fun _ => id, fun _ => id⟩
    obtain ⟨c, hc, hmap⟩ := mem_filterMap.mp h
    obtain ⟨n, rfl, rfl⟩ := Option.map_eq_some_iff.mp hmap
    refine ⟨fun x hx => ?_, fun x hx => ?_⟩
    · rw [mem_singleton.mp hx]
      exact .tail _ h
    · rw [mem_singleton.mp hx]
      exact mem_filterMap.mpr ⟨some n, hc, rfl⟩
  | _ =>
    rw [mem_singleton.mp h]
    exact ⟨fun _ => id, fun _ => id⟩

lemma mem_actions {act : Action Val Alloc} (h : act ∈ actions H v) :
    (∃ a, act = once H a ∨ act = always H a) ∨ act.guard = none ∧ act.sets = [] := by
  cases v with
  | scalar => cases h
  | string str0 =>
    obtain ⟨s, -, rfl⟩ : ∃ s, str0 = some s ∧ always H (.string s) = act := by
      simpa [actions] using h
    exact .inl ⟨_, .inr rfl⟩
  | tuple items =>
    obtain ⟨i, -, rfl⟩ : ∃ i, items = some i ∧ once H (.tuple i) = act := by simpa [actions] using h
    exact .inl ⟨_, .inl rfl⟩
  | array | dict | queue | object | method | builtinMethod | generator =>
    rw [mem_singleton.mp h]
    exact .inl ⟨_, .inl rfl⟩
  | function f =>
    simp only [actions, mem_append, Option.mem_toList, Option.map_eq_some_iff] at h
    obtain ⟨i, -, rfl⟩ | ⟨c, -, rfl⟩ | ⟨i, -, rfl⟩ | ⟨e, -, rfl⟩ := h
    · exact .inl ⟨_, .inr rfl⟩
    · exact .inl ⟨_, .inl rfl⟩
    · exact .inl ⟨_, .inr rfl⟩
    · exact .inl ⟨_, .inl rfl⟩
  | ref c =>
    rw [mem_singleton.mp h]
    exact .inl ⟨_, .inr rfl⟩
  | pointer gcptr =>
    cases gcptr with
    | none => cases h
    | some block =>
      cases block with
      | cell | auto | bytes =>
        rw [mem_singleton.mp h]
        exact .inl ⟨_, .inr rfl⟩
  | classValue c =>
    rw [mem_singleton.mp h]
    exact .inr ⟨rfl, rfl⟩

lemma actions_coherent (H : Heap) : Marking.Coherent (actions H) where
  guarded v act hact a hguard := by
    obtain ⟨b, rfl | rfl⟩ | ⟨hnone, -⟩ := mem_actions hact
    · cases hguard
      exact self_mem_unit a
    · cases hguard
    · rw [hnone] at hguard
      cases hguard
  covers v act hact v' act' hact' a hguard ha := by
    obtain ⟨b, rfl | rfl⟩ | ⟨hnone, -⟩ := mem_actions hact'
    · cases hguard
      obtain ⟨c, rfl | rfl⟩ | ⟨-, hnil⟩ := mem_actions hact
      · exact unit_subset ha
      · exact unit_subset ha
      · rw [hnil] at ha
        cases ha
    · cases hguard
    · rw [hnone] at hguard
      cases hguard

attribute [local simp] contents Follows actions unfollowed once always inside storage Marking.Marks
  unmarkedStorage unit

lemma mem_contents : w ∈ contents H v ↔ Follows (actions H) v w ∨ w ∈ unfollowed H v := by
  cases v with
  | scalar | array | dict | queue | object | method | builtinMethod | ref | classValue =>
    simp
  | string o | tuple o =>
    cases o <;> simp
  | function f =>
    obtain ⟨_ | _, _ | _, _ | _, _ | _⟩ := f <;> simp
  | pointer gcptr =>
    obtain _ | _ | _ | _ := gcptr <;> simp
  | generator g =>
    cases hst : (H.generator g).st <;> simp [hst, or_assoc]

lemma mem_storage : a ∈ storage H v ↔ Marking.Marks (actions H) v a ∨ a ∈ unmarkedStorage H v := by
  cases v with
  | scalar | array | dict | queue | object | method | builtinMethod | ref | classValue =>
    simp
  | string o | tuple o =>
    cases o <;> simp
  | function f =>
    obtain ⟨_ | _, _ | _, _ | _, _ | _⟩ := f <;> simp
  | pointer gcptr =>
    obtain _ | _ | _ | _ := gcptr <;> simp
  | generator g =>
    cases hst : (H.generator g).st <;> simp [hst]

end Coherence

section Complete

variable {H : Heap} {v w : Val} {a : Alloc}

/-- The allocation is marked together with a value that the marking gets to. -/
def Followed (H : Heap) (v : Val) (a : Alloc) : Prop :=
  ∃ w, Reaches (actions H) v w ∧ Marking.Marks (actions H) w a

/-- The allocation is kept by what the marking does not follow from the value. -/
def HeldBack (H : Heap) (v : Val) (a : Alloc) : Prop :=
  a ∈ unmarkedStorage H v ∨ ∃ w ∈ unfollowed H v, ∃ x, Behind H w x ∧ a ∈ storage H x

lemma behind_of_reaches (h : Reaches (actions H) v w) : Behind H v w := by
  induction h with
  | refl => exact .refl
  | tail _ hstep ih => exact ih.tail (mem_contents.mpr (.inl hstep))

lemma reaches_or_unfollowed (h : Behind H v w) :
    Reaches (actions H) v w ∨
      ∃ u, Reaches (actions H) v u ∧ ∃ x ∈ unfollowed H u, Behind H x w := by
  induction h with
  | refl => exact .inl .refl
  | tail _ hstep ih =>
    obtain hreach | ⟨u, hu, x, hx, hbehind⟩ := ih
    · rcases mem_contents.mp hstep with hfollow | hskip
      · exact .inl (hreach.tail hfollow)
      · exact .inr ⟨_, hreach, _, hskip, .refl⟩
    · exact .inr ⟨u, hu, x, hx, hbehind.tail hstep⟩

lemma storage_followed_iff :
    (∀ w, Behind H v w → ∀ a ∈ storage H w, Followed H v a) ↔
      ∀ w, Reaches (actions H) v w → ∀ a, HeldBack H w a → Followed H v a := by
  constructor
  · rintro h w hw a (ha | ⟨x, hx, y, hy, ha⟩)
    · exact h w (behind_of_reaches hw) a (mem_storage.mpr (.inr ha))
    · exact h y (((behind_of_reaches hw).tail (mem_contents.mpr (.inr hx))).trans hy) a ha
  intro h w hw a ha
  obtain hreach | ⟨u, hu, x, hx, hbehind⟩ := reaches_or_unfollowed hw
  · rcases mem_storage.mp ha with hmarks | hskip
    · exact ⟨w, hreach, hmarks⟩
    · exact h w hreach a (.inl hskip)
  · exact h u hu a (.inr ⟨x, hx, w, hbehind, ha⟩)

end Complete

section Bound

/-- A heap with finitely many values: those of the list refer to each other only. -/
structure FiniteHeap extends Heap where
  values : List Val
  closed : ∀ v ∈ values, ∀ w ∈ contents toHeap v, w ∈ values

variable (H : FiniteHeap)

def FiniteHeap.size : Nat :=
  (H.values.map fun v => 1 + (contents H.toHeap v).length + (storage H.toHeap v).length).sum

/-- The rounds that suffice for a heap of the given size. -/
def markBound (size : Nat) : Nat := Marking.visitBound size size size

variable {H} {v w : Val}

lemma mem_values (hv : v ∈ H.values) (h : Reaches (actions H.toHeap) v w) : w ∈ H.values := by
  induction h with
  | refl => exact hv
  | tail _ hstep ih => exact H.closed _ ih _ (mem_contents.mpr (.inl hstep))

lemma length_values_le : H.values.length ≤ H.size := by
  rw [FiniteHeap.size]
  generalize H.values = values
  induction values with
  | nil => exact .refl
  | cons v values ih =>
    rw [length_cons, map_cons, sum_cons]
    omega

lemma part_le_size (hv : v ∈ H.values) :
    1 + (contents H.toHeap v).length + (storage H.toHeap v).length ≤ H.size :=
  le_sum_of_mem (mem_map_of_mem
    (f := fun v => 1 + (contents H.toHeap v).length + (storage H.toHeap v).length) hv)

lemma sum_pushes_le (H : Heap) (v : Val) :
    ((actions H v).map fun act => act.pushes.length).sum ≤ (contents H v).length := by
  cases v with
  | scalar | array | dict | queue | object | builtinMethod | classValue | ref => exact .refl
  | string o | tuple o => cases o <;> exact .refl
  | method this bound => exact Nat.succ_le_succ (Nat.zero_le _)
  | function f =>
    obtain ⟨_ | _, _ | _, _ | _, _ | _⟩ := f <;>
      simp [actions, contents, once, always, inside, captured] <;> omega
  | pointer gcptr => obtain _ | _ | _ | _ := gcptr <;> exact .refl
  | generator g => cases hst : (H.generator g).st <;> simp [actions, contents, once, inside, hst]

def FiniteHeap.allocs (H : FiniteHeap) : Finset Alloc :=
  (H.values.flatMap (storage H.toHeap)).toFinset

lemma card_allocs_le : H.allocs.card ≤ H.size := by
  refine Nat.le_trans (toFinset_card_le _) ?_
  rw [FiniteHeap.size, length_flatMap]
  generalize H.values = values
  induction values with
  | nil => exact .refl
  | cons v values ih =>
    rw [map_cons, map_cons, sum_cons, sum_cons]
    omega

lemma finite_of_acyclic (hv : v ∈ H.values) (hacyclic : ∀ w, Reaches (actions H.toHeap) v w →
      ¬ Relation.TransGen (Repeats (actions H.toHeap)) w w) :
    Marking.Finite (actions H.toHeap) v H.values.toFinset H.allocs H.size where
  nodes w hw := mem_toFinset.mpr (mem_values hv hw)
  cells w hw act hact a hguard := by
    have hmarks := (actions_coherent H.toHeap).guarded w act hact a hguard
    exact mem_toFinset.mpr (mem_flatMap.mpr
      ⟨w, mem_values hv hw, mem_storage.mpr (.inl ⟨act, hact, hmarks⟩)⟩)
  bound w hw := by
    have hpart := part_le_size (mem_values hv hw)
    have hpushes := sum_pushes_le H.toHeap w
    omega
  acyclic := hacyclic

end Bound

section Result

/-- What the marking from a value relies on: a generator has its state, and no class number
that is taken for a pointer; no value leads back to itself through references, pointers and
static fields alone; and what is held back is marked for another reason. -/
def Markable (H : Heap) (v : Val) : Prop :=
  ∀ w, Reaches (actions H) v w → markFails H w = false ∧
    ¬ Relation.TransGen (Repeats (actions H)) w w ∧ ∀ a, HeldBack H w a → Followed H v a

lemma valueMark_marks {H : Heap} {v : Val} {fuel : Nat} {marks : Marks}
    (h : valueMark H fuel v = some (some marks)) :
    (∀ a, marks a ↔ Followed H v a) ∧ ∀ w, Reaches (actions H) v w →
      markFails H w = false ∧ ¬ Relation.TransGen (Repeats (actions H)) w w := by
  rw [valueMark, valueMarkStep_eq] at h
  exact Marking.marks_of_run (actions_coherent H) h

lemma valueMark_returns {H : FiniteHeap} {v : Val} (hv : v ∈ H.values)
    (h : ∀ w, Reaches (actions H.toHeap) v w → markFails H.toHeap w = false ∧
      ¬ Relation.TransGen (Repeats (actions H.toHeap)) w w) :
    ∃ marks, valueMark H.toHeap (markBound H.size) v = some (some marks) := by
  rw [valueMark, valueMarkStep_eq]
  exact Marking.start_ends (k := H.size) (g := H.size) (actions_coherent H.toHeap)
    (finite_of_acyclic hv fun w hw => (h w hw).2) (fun w hw => (h w hw).1)
    (Nat.le_trans (toFinset_card_le _) length_values_le) card_allocs_le

/-- The marking from a value returns after a number of rounds that the size of the heap
bounds, with all storage behind the value marked, exactly if the value is markable. -/
theorem valueMark_complete_iff (H : FiniteHeap) (v : { v // v ∈ H.values }) :
    (∃ fuel marks, fuel ≤ markBound H.size ∧ valueMark H.toHeap fuel v = some (some marks) ∧
      ∀ w, Behind H.toHeap v w → ∀ a ∈ storage H.toHeap w, marks a) ↔
    Markable H.toHeap v := by
  constructor
  · rintro ⟨fuel, marks, -, hrun, hall⟩
    obtain ⟨hmarks, hfine⟩ := valueMark_marks hrun
    have hheld := storage_followed_iff.mp fun w hw a ha => (hmarks a).mp (hall w hw a ha)
    exact fun w hw => ⟨(hfine w hw).1, (hfine w hw).2, hheld w hw⟩
  · intro h
    obtain ⟨marks, hrun⟩ := valueMark_returns v.property fun w hw => ⟨(h w hw).1, (h w hw).2.1⟩
    have hall := storage_followed_iff.mpr fun w hw => (h w hw).2.2
    exact ⟨_, marks, .refl, hrun,
      fun w hw a ha => ((valueMark_marks hrun).1 a).mpr (hall w hw a ha)⟩

end Result

section Concrete

def emptyHeap : Heap where
  array _ := []
  tuple _ := []
  ids _ := none
  dict _ := (none, [])
  queue _ := []
  object _ := ([], [])
  env _ := []
  cell _ := .scalar
  second _ := none
  auto _ := .scalar
  statics _ := []
  generator _ := ⟨.scalar, none⟩

/-- A class with a static field that has the class in it. -/
def ownClass : Heap := { emptyHeap with statics := fun _ => [.classValue 0] }

/-- A closure with one captured variable, bound to a value by `bindMethod`. -/
def boundClosure : Heap :=
  { emptyHeap with
    second := fun _ => some (.function ⟨none, none, none, some 0⟩)
    env := fun _ => [some 1] }

/-- The marking of the class does not return, that of the method leaves the environment of
the closure unmarked, and that of a generator whose items were yielded by another one reads
its missing state. -/
theorem valueMark_incomplete :
    (¬ ∃ fuel result, valueMark ownClass fuel (.classValue 0) = some (some result)) ∧
      ((valueMark boundClosure 3 (.method 0 (some 0))).map fun result =>
        result.map fun marks => (marks (.cell 0), marks (.env 0))) = some (some (true, false)) ∧
      Option.isNone <$> valueMark emptyHeap 1 (.generator 0) = some true := by
  refine ⟨?_, rfl, rfl⟩
  rintro ⟨fuel, marks, hrun⟩
  have hfine := (valueMark_marks hrun).2 _ .refl
  exact hfine.2 (.single ⟨_, (.head _), rfl, (.head _)⟩)

end Concrete

end TyLang.Gc
