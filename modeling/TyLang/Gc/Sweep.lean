import Mathlib

/-!
`GCSweepTy` of `src/gc.c` with the finalizers that `collect` runs. The loop goes through
the list of the allocations once and moves what stays to the front, while finalizers add
to the end of the same list.
-/
namespace TyLang.Gc
open List

section Model

/-- Allocations by where they come from. What is in the list when the sweep starts is named
by its place, and what a finalizer makes by the allocation that it runs for and a number.
These names are enough since no finalizer runs twice. -/
inductive Name where
  | old (place : Nat)
  | made (owner : Name) (k : Nat)
  deriving DecidableEq, Repr

structure Finalizer where
  news : List Nat
  /-- What is put into globals: new values, and the object itself. -/
  stores : List (Option (Fin news.length))

structure MarkedHeap where
  count : Nat
  refs : Name → List Name
  finalizer : Name → Option Finalizer
  size : Nat → Nat
  mark : Nat → Bool
  hard : Nat → Nat
  memoryUsed : Nat
  globals : List Nat
  rooted : ∀ g ∈ globals, g < count ∧ mark g
  closed : ∀ p < count, mark p →
    ∀ b ∈ refs (.old p), ∃ q, b = .old q ∧ q < count ∧ mark q

variable (H : MarkedHeap)

def MarkedHeap.sizeOf : Name → Nat
  | .old p => H.size p
  | .made a k => ((H.finalizer a).bind fun f => f.news[k]?).getD 0

/-- `gc_alloc_object` leaves no mark and does not pin. -/
def MarkedHeap.markOf : Name → Bool
  | .old p => H.mark p
  | .made _ _ => false

def MarkedHeap.hardOf : Name → Nat
  | .old p => H.hard p
  | .made _ _ => 0

structure Sweep where
  items : List Name
  i : Nat
  n : Nat
  marks : Name → Bool
  memoryUsed : Nat
  globals : List Name
  freed : List Name
  ran : List (Name × List Name)

def stored (a : Name) {n : Nat} : Option (Fin n) → Name
  | none => a
  | some k => .made a k

def news (a : Name) : List Name :=
  match H.finalizer a with
  | none => []
  | some f => (List.range f.news.length).map (.made a)

def storesOf (a : Name) : List Name :=
  match H.finalizer a with
  | none => []
  | some f => f.stores.map (stored a)

/-- The part of `collect` that runs a finalizer. What it does otherwise is to release
memory that belongs to the allocation alone. -/
def collect (a : Name) (s : Sweep) : Sweep :=
  match H.finalizer a with
  | none => s
  | some f =>
    { s with
      items := s.items ++ (List.range f.news.length).map (.made a)
      memoryUsed := s.memoryUsed + f.news.sum
      globals := s.globals ++ f.stores.map (stored a)
      ran := s.ran ++ [(a, s.freed)] }

/-- One round of the loop of `GCSweepTy`, which looks at the length of the list each time. -/
def sweepRound (s : Sweep) : Sweep :=
  match s.items[s.i]? with
  | none => s
  | some a =>
    if !s.marks a && H.hardOf a == 0 then
      let s := collect H a { s with memoryUsed := s.memoryUsed - min (H.sizeOf a) s.memoryUsed }
      { s with freed := s.freed ++ [a], i := s.i + 1 }
    else
      { s with
        marks := Function.update s.marks a false
        items := s.items.set s.n a
        n := s.n + 1
        i := s.i + 1 }

def sweepRounds : Nat → Sweep
  | 0 =>
    { items := (List.range H.count).map .old
      i := 0
      n := 0
      marks := H.markOf
      memoryUsed := H.memoryUsed
      globals := H.globals.map .old
      freed := []
      ran := [] }
  | k + 1 => sweepRound H (sweepRounds k)

/-- `GCSweepTy`, if the loop ends within the given number of rounds. -/
def gcSweepTy (fuel : Nat) : Option Sweep :=
  let s := sweepRounds H fuel
  if s.items.length ≤ s.i then some { s with items := s.items.take s.n } else none

end Model

section Order

/-- The order in which the sweep gets to the allocations. -/
def Before : Name → Name → Prop
  | .old p, .old q => p < q
  | .old _, .made _ _ => True
  | .made _ _, .old _ => False
  | .made a j, .made b k => Before a b ∨ a = b ∧ j < k

lemma before_irrefl (a : Name) : ¬ Before a a := by
  induction a with
  | old p => exact Nat.lt_irrefl p
  | made a k ih =>
    rintro (h | ⟨-, h⟩)
    · exact ih h
    · exact Nat.lt_irrefl k h

lemma before_trans {a b c : Name} (hab : Before a b) (hbc : Before b c) : Before a c := by
  induction a generalizing b c with
  | old p =>
    cases c with
    | made c l => trivial
    | old r =>
      cases b with
      | old q => exact Nat.lt_trans hab hbc
      | made b k => exact hbc.elim
  | made a j ih =>
    cases b with
    | old q => exact hab.elim
    | made b k =>
      cases c with
      | old r => exact hbc.elim
      | made c l =>
        rcases hab with hab | ⟨rfl, hjk⟩
        · rcases hbc with hbc | ⟨rfl, -⟩
          · exact .inl (ih hab hbc)
          · exact .inl hab
        · rcases hbc with hbc | ⟨rfl, hkl⟩
          · exact .inl hbc
          · exact .inr ⟨rfl, Nat.lt_trans hjk hkl⟩

lemma before_made (a : Name) (k : Nat) : Before a (.made a k) := by
  induction a generalizing k with
  | old p => trivial
  | made a j ih => exact .inl (ih j)

lemma nodup_of_before {l : List Name} (h : l.Pairwise Before) : l.Nodup := by
  apply h.imp
  rintro a b hab rfl
  exact before_irrefl a hab

end Order

section Conditions

variable (H : MarkedHeap)

def MarkedHeap.Reaches : Name → Name → Prop := Relation.ReflTransGen fun a b => b ∈ H.refs a

def MarkedHeap.dead (a : Name) : Bool := !H.markOf a && H.hardOf a == 0

/-- The allocations that a sweep comes to collect: those that are dead at the start, and
all that their finalizers make. -/
inductive Collected : Name → Prop
  | old {p : Nat} : p < H.count → H.dead (.old p) → Collected (.old p)
  | made {a : Name} {f : Finalizer} {k : Nat} : Collected a → H.finalizer a = some f →
      k < f.news.length → Collected (.made a k)

/-- The finalizers that run put nothing into globals, and none of them has in reach what
is collected before its own object. -/
def Harmless : Prop :=
  ∀ a f, Collected H a → H.finalizer a = some f →
    f.stores = [] ∧ ∀ b, H.Reaches a b → Collected H b → ¬ Before b a

/-- No finalizer has run twice, or with something freed in its reach. -/
structure FinalizersSafe (s : Sweep) : Prop where
  once : (s.ran.map Prod.fst).Nodup
  unfreed : ∀ r ∈ s.ran, ∀ b, H.Reaches r.1 b → b ∉ r.2

def GlobalsSafe (s : Sweep) : Prop := ∀ g ∈ s.globals, ∀ b, H.Reaches g b → b ∉ s.freed

end Conditions

section Rounds

variable {H : MarkedHeap} {s : Sweep} {done rest : List Name} {a b : Name}

/-- What holds between two rounds, where `done` is what the loop has been through and
`rest` what is still in front of it. -/
structure SweepInv (H : MarkedHeap) (done rest : List Name) (s : Sweep) : Prop where
  ahead : s.items.drop s.i = rest
  kept : s.items.take s.n = done.filter fun a => !H.dead a
  behind : s.n ≤ s.i
  order : (done ++ rest).Pairwise Before
  listed : ∀ p < H.count, .old p ∈ done ++ rest
  old : ∀ p, .old p ∈ done ++ rest → p < H.count
  made : ∀ a k, .made a k ∈ done ++ rest → a ∈ done ∧ Collected H (.made a k)
  newer : ∀ a ∈ done, H.dead a → ∀ b ∈ news H a, b ∈ done ++ rest
  marks : ∀ a, a ∉ done → s.marks a = H.markOf a
  freed : s.freed = done.filter H.dead
  ran : s.ran.map Prod.fst = done.filter fun a => H.dead a && (H.finalizer a).isSome
  before : ∀ r ∈ s.ran, ∀ b, b ∈ r.2 ↔ Collected H b ∧ Before b r.1
  globals : s.globals = H.globals.map .old ++ (done.filter H.dead).flatMap (storesOf H)

lemma mem_news : b ∈ news H a ↔ ∃ f k, H.finalizer a = some f ∧ k < f.news.length ∧
    b = .made a k := by
  rw [news]
  cases H.finalizer a with
  | none => simp
  | some f => simp [eq_comm]

lemma dead_of_collected (h : Collected H a) : H.dead a := by
  cases h with
  | old _ hdead => exact hdead
  | made => rfl

namespace SweepInv

lemma collected (h : SweepInv H done rest s) (ha : a ∈ done ++ rest) (hdead : H.dead a) :
    Collected H a := by
  cases a with
  | old p => exact .old (h.old p ha) hdead
  | made a k => exact (h.made a k ha).2

section
variable (h : SweepInv H done (a :: rest) s)
include h

lemma mem_done (hb : b ∈ done ++ a :: rest) (hba : Before b a) : b ∈ done := by
  rcases mem_append.mp hb with hb | hb
  · exact hb
  · rcases mem_cons.mp hb with rfl | hb
    · exact absurd hba (before_irrefl _)
    · have hab := (pairwise_cons.mp (pairwise_append.mp h.order).2.1).1 b hb
      exact absurd (before_trans hab hba) (before_irrefl _)

lemma done_of_before (hb : Collected H b) (hba : Before b a) : b ∈ done := by
  induction hb with
  | old hp _ => exact h.mem_done (h.listed _ hp) hba
  | @made c f k hc hf hk ih =>
    have hin := ih (before_trans (before_made c k) hba)
    exact h.mem_done (h.newer c hin (dead_of_collected hc) _ (mem_news.mpr ⟨f, k, hf, hk, rfl⟩)) hba

lemma mem_freed_iff : b ∈ done.filter H.dead ↔ Collected H b ∧ Before b a := by
  rw [mem_filter]
  constructor
  · rintro ⟨hb, hdead⟩
    refine ⟨h.collected (mem_append_left _ hb) hdead, ?_⟩
    exact (pairwise_append.mp h.order).2.2 b hb a (.head _)
  · rintro ⟨hb, hba⟩
    exact ⟨h.done_of_before hb hba, dead_of_collected hb⟩

lemma order_news : (done ++ [a] ++ (rest ++ news H a)).Pairwise Before := by
  have hsame : done ++ [a] ++ (rest ++ news H a) = done ++ a :: rest ++ news H a := by simp
  rw [hsame, pairwise_append]
  refine ⟨h.order, ?_, fun x hx b hb => ?_⟩
  · rw [news]
    cases H.finalizer a with
    | none => exact .nil
    | some f => exact pairwise_map.mpr (pairwise_lt_range.imp fun hjk => .inr ⟨rfl, hjk⟩)
  · obtain ⟨f, k, -, -, rfl⟩ := mem_news.mp hb
    cases x with
    | old p => trivial
    | made c j =>
      have hc := (h.made c j hx).1
      exact .inl ((pairwise_append.mp h.order).2.2 c hc a mem_cons_self)

lemma item : s.items[s.i]? = some a := by
  have hhead : (s.items.drop s.i)[0]? = some a := by rw [h.ahead]; rfl
  rwa [getElem?_drop, Nat.add_zero] at hhead

lemma bound : s.i < s.items.length := (List.getElem?_eq_some_iff.mp h.item).1

lemma drop_succ : s.items.drop (s.i + 1) = rest := by
  rw [← tail_drop, h.ahead, tail_cons]

lemma live : (!s.marks a && H.hardOf a == 0) = H.dead a := by
  have hnew : a ∉ done := fun ha =>
    before_irrefl a ((pairwise_append.mp h.order).2.2 a ha a mem_cons_self)
  rw [h.marks a hnew]
  rfl

end

end SweepInv

lemma collect_eq (H : MarkedHeap) (a : Name) (s : Sweep) :
    ∃ used, collect H a s =
      { s with
        items := s.items ++ news H a
        memoryUsed := used
        globals := s.globals ++ storesOf H a
        ran := s.ran ++ if (H.finalizer a).isSome then [(a, s.freed)] else [] } := by
  rw [collect, news, storesOf]
  cases H.finalizer a with
  | none => exact ⟨s.memoryUsed, by simp⟩
  | some f => exact ⟨_, rfl⟩

lemma sweepInv_dead (h : SweepInv H done (a :: rest) s) (hdead : H.dead a) :
    SweepInv H (done ++ [a]) (rest ++ news H a) (sweepRound H s) := by
  obtain ⟨used, hcollect⟩ := collect_eq H a
    { s with memoryUsed := s.memoryUsed - min (H.sizeOf a) s.memoryUsed }
  have hround : sweepRound H s =
      { s with
        items := s.items ++ news H a
        memoryUsed := used
        globals := s.globals ++ storesOf H a
        ran := s.ran ++ if (H.finalizer a).isSome then [(a, s.freed)] else []
        freed := s.freed ++ [a]
        i := s.i + 1 } := by
    rw [sweepRound, h.item]
    dsimp only
    rw [h.live, hdead, hcollect]
    rfl
  have hbound := h.bound
  have hmem (b : Name) :
      b ∈ done ++ [a] ++ (rest ++ news H a) ↔ b ∈ done ++ a :: rest ∨ b ∈ news H a := by
    simp [or_assoc]
  rw [hround]
  refine { ahead := ?_, kept := ?_, behind := ?_, order := h.order_news, listed := ?_, old := ?_,
           made := ?_, newer := ?_, marks := ?_, freed := ?_, ran := ?_, before := ?_,
           globals := ?_ }
  · exact (drop_append_of_le_length hbound).trans (by rw [h.drop_succ])
  · have hle : s.n ≤ s.items.length := Nat.le_trans h.behind (Nat.le_of_lt hbound)
    refine (take_append_of_le_length hle).trans ?_
    rw [h.kept, filter_append, filter_cons_of_neg (by simp [hdead]), filter_nil, append_nil]
  · exact Nat.le_succ_of_le h.behind
  · exact fun p hp => (hmem _).mpr (.inl (h.listed p hp))
  · intro p hp
    rcases (hmem _).mp hp with hp | hp
    · exact h.old p hp
    · obtain ⟨f, k, -, -, heq⟩ := mem_news.mp hp
      cases heq
  · intro c k hck
    rcases (hmem _).mp hck with hck | hck
    · exact ⟨mem_append_left _ (h.made c k hck).1, (h.made c k hck).2⟩
    · obtain ⟨f, j, hf, hj, heq⟩ := mem_news.mp hck
      cases heq
      refine ⟨mem_append_right _ (.head _), .made ?_ hf hj⟩
      exact h.collected (mem_append_right _ mem_cons_self) hdead
  · intro c hc hdead' b hb
    rcases mem_append.mp hc with hc | hc
    · exact (hmem b).mpr (.inl (h.newer c hc hdead' b hb))
    · rw [mem_singleton.mp hc] at hb
      exact (hmem b).mpr (.inr hb)
  · exact fun b hb => h.marks b fun hin => hb (mem_append_left _ hin)
  · rw [filter_append, filter_cons_of_pos hdead, filter_nil, h.freed]
  · rw [map_append, h.ran, filter_append]
    cases hf : H.finalizer a with
    | none => simp [hf]
    | some f => simp [hf, hdead]
  · intro r hr b
    rcases mem_append.mp hr with hr | hr
    · exact h.before r hr b
    · split at hr
      · rw [mem_singleton.mp hr]
        exact h.freed ▸ h.mem_freed_iff
      · cases hr
  · rw [h.globals, filter_append, filter_cons_of_pos hdead, filter_nil,
      flatMap_append, flatMap_singleton, append_assoc]

lemma sweepInv_live (h : SweepInv H done (a :: rest) s) (hlive : H.dead a = false) :
    SweepInv H (done ++ [a]) rest (sweepRound H s) := by
  have hround : sweepRound H s =
      { s with
        marks := Function.update s.marks a false
        items := s.items.set s.n a
        n := s.n + 1
        i := s.i + 1 } := by
    rw [sweepRound, h.item]
    dsimp only
    rw [h.live, hlive]
    rfl
  have hbound := h.bound
  have hsame : done ++ [a] ++ rest = done ++ a :: rest := by simp
  have hfilter : (done ++ [a]).filter H.dead = done.filter H.dead := by
    rw [filter_append, filter_cons_of_neg (by simp [hlive]), filter_nil, append_nil]
  rw [hround]
  refine { ahead := ?_, kept := ?_, behind := Nat.succ_le_succ h.behind, order := hsame ▸ h.order,
           listed := hsame ▸ h.listed, old := hsame ▸ h.old, made := ?_, newer := ?_, marks := ?_,
           freed := hfilter ▸ h.freed, ran := ?_, before := h.before,
           globals := hfilter ▸ h.globals }
  · exact (drop_set_of_lt (Nat.lt_succ_of_le h.behind)).trans h.drop_succ
  · have hlt : s.n < s.items.length := Nat.lt_of_le_of_lt h.behind hbound
    change (s.items.set s.n a).take (s.n + 1) = _
    rw [take_add_one, take_set_of_le .refl, getElem?_set_self hlt, h.kept,
      filter_append, filter_cons_of_pos (by simp [hlive])]
    rfl
  · intro c k hck
    rw [hsame] at hck
    exact ⟨mem_append_left _ (h.made c k hck).1, (h.made c k hck).2⟩
  · intro c hc hdead b hb
    rw [hsame]
    rcases mem_append.mp hc with hc | hc
    · exact h.newer c hc hdead b hb
    · rw [mem_singleton.mp hc, hlive] at hdead
      cases hdead
  · intro b hb
    rw [mem_append, mem_singleton, not_or] at hb
    exact (Function.update_of_ne hb.2 _ _).trans (h.marks b hb.1)
  · rw [h.ran, filter_append]
    simp [hlive]

lemma sweepInv_end (h : SweepInv H done [] s) : sweepRound H s = s := by
  have hend := drop_eq_nil_iff.mp h.ahead
  rw [sweepRound, getElem?_eq_none hend]

lemma sweepRounds_inv (H : MarkedHeap) (k : Nat) :
    ∃ done rest, SweepInv H done rest (sweepRounds H k) := by
  induction k with
  | zero =>
    refine ⟨[], (range H.count).map .old, ?_⟩
    refine { ahead := rfl, kept := rfl, behind := Nat.le_refl _, order := ?_, listed := ?_,
             old := ?_, made := ?_, newer := nofun, marks := fun _ _ => rfl, freed := rfl,
             ran := rfl, before := nofun, globals := (append_nil _).symm }
    · exact pairwise_map.mpr pairwise_lt_range
    · exact fun p hp => mem_map_of_mem (mem_range.mpr hp)
    · intro p hp
      obtain ⟨q, hq, heq⟩ := mem_map.mp hp
      cases heq
      exact mem_range.mp hq
    · intro a k hmade
      obtain ⟨q, -, heq⟩ := mem_map.mp hmade
      cases heq
  | succ k ih =>
    obtain ⟨done, rest, h⟩ := ih
    cases rest with
    | nil => exact ⟨done, [], by rwa [sweepRounds, sweepInv_end h]⟩
    | cons a rest =>
      cases hdead : H.dead a with
      | true => exact ⟨_, _, sweepInv_dead h hdead⟩
      | false => exact ⟨_, _, sweepInv_live h hdead⟩

lemma sweepRounds_reaches {k : Nat} (n : Nat) (h : SweepInv H done rest (sweepRounds H k))
    (hb : b ∈ rest.take n) :
    ∃ k' done' rest', SweepInv H done' rest' (sweepRounds H k') ∧ done ⊆ done' ∧ b ∈ done' := by
  induction n generalizing k done rest with
  | zero => cases hb
  | succ n ih =>
    cases rest with
    | nil => cases hb
    | cons a rest =>
      have hstep : ∃ more, SweepInv H (done ++ [a]) (rest ++ more) (sweepRounds H (k + 1)) := by
        cases hdead : H.dead a with
        | true => exact ⟨_, sweepInv_dead h hdead⟩
        | false => exact ⟨[], by rw [append_nil]; exact sweepInv_live h hdead⟩
      obtain ⟨more, hstep⟩ := hstep
      rcases mem_cons.mp hb with rfl | hb
      · exact ⟨k + 1, _, _, hstep, fun _ => mem_append_left _, mem_append_right _ (.head _)⟩
      · obtain ⟨k', done', rest', hinv, hsub, hin⟩ := ih hstep
          (by rw [take_append]; exact mem_append_left _ hb)
        exact ⟨k', done', rest', hinv, fun _ hx => hsub (mem_append_left _ hx), hin⟩

lemma sweepRounds_done {k : Nat} (h : SweepInv H done rest (sweepRounds H k))
    (hb : b ∈ done ++ rest) :
    ∃ k' done' rest', SweepInv H done' rest' (sweepRounds H k') ∧ done ⊆ done' ∧ b ∈ done' := by
  rcases mem_append.mp hb with hb | hb
  · exact ⟨k, done, rest, h, fun _ => id, hb⟩
  · exact sweepRounds_reaches rest.length h (by rwa [take_length])

lemma sweepRounds_collects (hb : Collected H b) :
    ∃ k done rest, SweepInv H done rest (sweepRounds H k) ∧ b ∈ done := by
  induction hb with
  | old hp _ =>
    obtain ⟨done, rest, h⟩ := sweepRounds_inv H 0
    obtain ⟨k, done', rest', hinv, -, hin⟩ := sweepRounds_done h (h.listed _ hp)
    exact ⟨k, done', rest', hinv, hin⟩
  | @made a f j ha hf hj ih =>
    obtain ⟨k, done, rest, h, hin⟩ := ih
    have hnew := h.newer a hin (dead_of_collected ha) _ (mem_news.mpr ⟨f, j, hf, hj, rfl⟩)
    obtain ⟨k', done', rest', hinv, -, hin'⟩ := sweepRounds_done h hnew
    exact ⟨k', done', rest', hinv, hin'⟩

end Rounds

section Safety

variable {H : MarkedHeap} {s : Sweep} {done rest : List Name} {a b : Name}

lemma mem_storesOf : b ∈ storesOf H a ↔ ∃ f, H.finalizer a = some f ∧ ∃ x ∈ f.stores,
    stored a x = b := by
  rw [storesOf]
  cases H.finalizer a with
  | none => simp
  | some f => simp

lemma collected_stored (ha : Collected H a) (hb : b ∈ storesOf H a) : Collected H b := by
  obtain ⟨f, hf, x, -, rfl⟩ := mem_storesOf.mp hb
  cases x with
  | none => exact ha
  | some k => exact .made ha hf k.isLt

lemma not_globalsSafe (ha : Collected H a) (hb : b ∈ storesOf H a) :
    ∃ k, ¬ GlobalsSafe H (sweepRounds H k) := by
  obtain ⟨k, done, rest, h, hin⟩ := sweepRounds_collects ha
  have hmem : b ∈ done ++ rest := by
    obtain ⟨f, hf, x, -, rfl⟩ := mem_storesOf.mp hb
    cases x with
    | none => exact mem_append_left _ hin
    | some k => exact h.newer a hin (dead_of_collected ha) _ (mem_news.mpr ⟨f, k, hf, k.isLt, rfl⟩)
  obtain ⟨k', done', rest', h', hsub, hin'⟩ := sweepRounds_done h hmem
  refine ⟨k', fun hsafe => hsafe b ?_ b .refl ?_⟩
  · rw [h'.globals]
    refine mem_append_right _ (mem_flatMap.mpr ⟨a, ?_, hb⟩)
    exact mem_filter.mpr ⟨hsub hin, dead_of_collected ha⟩
  · rw [h'.freed]
    exact mem_filter.mpr ⟨hin', dead_of_collected (collected_stored ha hb)⟩

lemma not_finalizersSafe {f : Finalizer} (ha : Collected H a) (hf : H.finalizer a = some f)
    (hreach : H.Reaches a b) (hb : Collected H b) (hba : Before b a) :
    ∃ k, ¬ FinalizersSafe H (sweepRounds H k) := by
  obtain ⟨k, done, rest, h, hin⟩ := sweepRounds_collects ha
  have hran : a ∈ (sweepRounds H k).ran.map Prod.fst := by
    rw [h.ran, mem_filter, dead_of_collected ha, hf]
    exact ⟨hin, rfl⟩
  obtain ⟨r, hr, rfl⟩ := mem_map.mp hran
  exact ⟨k, fun hsafe => hsafe.unfreed r hr b hreach ((h.before r hr b).mpr ⟨hb, hba⟩)⟩

lemma finalizersSafe_of_harmless (hharm : Harmless H) (h : SweepInv H done rest s) :
    FinalizersSafe H s := by
  have hnodup := (nodup_append.mp (nodup_of_before h.order)).1
  refine ⟨by rw [h.ran]; exact hnodup.filter _, fun r hr b hreach hb => ?_⟩
  have hin : r.1 ∈ s.ran.map Prod.fst := mem_map_of_mem hr
  rw [h.ran, mem_filter, Bool.and_eq_true] at hin
  obtain ⟨hdone, hdead, hsome⟩ := hin
  obtain ⟨f, hf⟩ := Option.isSome_iff_exists.mp hsome
  obtain ⟨hcollected, hbefore⟩ := (h.before r hr b).mp hb
  exact (hharm r.1 f (h.collected (mem_append_left _ hdone) hdead) hf).2 b hreach hcollected hbefore

lemma marked_of_globals (hharm : Harmless H) (h : SweepInv H done rest s) {g : Name}
    (hg : g ∈ s.globals) (hreach : H.Reaches g b) :
    ∃ p, b = .old p ∧ p < H.count ∧ H.mark p := by
  induction hreach with
  | refl =>
    rw [h.globals] at hg
    rcases mem_append.mp hg with hg | hg
    · obtain ⟨p, hp, rfl⟩ := mem_map.mp hg
      exact ⟨p, rfl, H.rooted p hp⟩
    · obtain ⟨a, ha, hstored⟩ := mem_flatMap.mp hg
      obtain ⟨hdone, hdead⟩ := mem_filter.mp ha
      obtain ⟨f, hf, x, hx, -⟩ := mem_storesOf.mp hstored
      rw [(hharm a f (h.collected (mem_append_left _ hdone) hdead) hf).1] at hx
      cases hx
  | tail _ hstep ih =>
    obtain ⟨p, rfl, hp, hmark⟩ := ih
    exact H.closed p hp hmark _ hstep

lemma live_of_mark {p : Nat} (h : H.mark p) : H.dead (.old p) = false := by
  simp [MarkedHeap.dead, MarkedHeap.markOf, h]

lemma globalsSafe_of_harmless (hharm : Harmless H) (h : SweepInv H done rest s) :
    GlobalsSafe H s := by
  intro g hg b hreach hfreed
  obtain ⟨p, rfl, -, hmark⟩ := marked_of_globals hharm h hg hreach
  rw [h.freed, mem_filter, live_of_mark hmark] at hfreed
  cases hfreed.2

lemma gcSweepTy_kept {k : Nat} (hend : gcSweepTy H k = some s) :
    ∃ done, SweepInv H done [] (sweepRounds H k) ∧ s.items = done.filter (fun a => !H.dead a) ∧
      s.globals = (sweepRounds H k).globals ∧ s.freed = (sweepRounds H k).freed := by
  obtain ⟨done, rest, h⟩ := sweepRounds_inv H k
  rw [gcSweepTy] at hend
  split at hend
  next hle =>
    cases hend
    obtain rfl : rest = [] := h.ahead ▸ drop_eq_nil_iff.mpr hle
    exact ⟨done, h, h.kept, rfl, rfl⟩
  next => cases hend

/-- The sweep is safe exactly if its finalizers are harmless: none of them finds something
freed in its reach or runs twice, and what the globals have in reach, with all that
finalizers have put there, is not freed and is in the list once when the sweep has ended. -/
theorem gcSweepTy_safe_iff (H : MarkedHeap) :
    ((∀ k, FinalizersSafe H (sweepRounds H k) ∧ GlobalsSafe H (sweepRounds H k)) ∧
      ∀ k s, gcSweepTy H k = some s →
        ∀ g ∈ s.globals, ∀ b, H.Reaches g b → b ∉ s.freed ∧ s.items.count b = 1) ↔ Harmless H := by
  constructor
  · rintro ⟨hsafe, -⟩ a f ha hf
    constructor
    · rw [eq_nil_iff_forall_not_mem]
      intro x hx
      obtain ⟨k, hk⟩ := not_globalsSafe ha (mem_storesOf.mpr ⟨f, hf, x, hx, rfl⟩)
      exact hk (hsafe k).2
    · intro b hreach hb hba
      obtain ⟨k, hk⟩ := not_finalizersSafe ha hf hreach hb hba
      exact hk (hsafe k).1
  · intro hharm
    constructor
    · intro k
      obtain ⟨done, rest, h⟩ := sweepRounds_inv H k
      exact ⟨finalizersSafe_of_harmless hharm h, globalsSafe_of_harmless hharm h⟩
    intro k s hend g hg b hreach
    obtain ⟨done, h, hitems, hglobals, hfreed⟩ := gcSweepTy_kept hend
    rw [hglobals] at hg
    refine ⟨hfreed ▸ globalsSafe_of_harmless hharm h g hg b hreach, ?_⟩
    obtain ⟨p, rfl, hp, hmark⟩ := marked_of_globals hharm h hg hreach
    have hdone : .old p ∈ done := by simpa using h.listed p hp
    have hnodup := (nodup_append.mp (nodup_of_before h.order)).1
    rw [hitems]
    refine count_eq_one_of_mem (hnodup.filter _) (mem_filter.mpr ⟨hdone, ?_⟩)
    rw [live_of_mark hmark]
    rfl

end Safety

section Concrete

/-- Two objects that nothing refers to, the first of them in the reach of the second, whose
finalizer makes an object and puts it into a global. -/
def twoObjects : MarkedHeap where
  count := 2
  refs
    | .old 1 => [.old 0]
    | _ => []
  finalizer
    | .old 1 => some ⟨[8], [some 0]⟩
    | _ => none
  size _ := 8
  mark _ := false
  hard _ := 0
  memoryUsed := 16
  globals := []
  rooted := nofun
  closed := nofun

/-- The first object is freed when the finalizer of the second one runs, and the new object
is freed by the sweep that has made it. -/
theorem gcSweepTy_unsafe :
    (gcSweepTy twoObjects 3).map (fun s => (s.ran, s.globals, s.freed, s.items)) =
      some ([(.old 1, [.old 0])], [.made (.old 1) 0], [.old 0, .old 1, .made (.old 1) 0], []) ∧
    twoObjects.Reaches (.old 1) (.old 0) :=
  ⟨rfl, .single (.head _)⟩

end Concrete

end TyLang.Gc
