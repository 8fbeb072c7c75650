import TyLang.Queue.Refine
import TyLang.Lib.Runs

/-!
`SharedQueue` of `src/queue.c` under threads that run its methods in any interleaving. A
thread holds the mutex from `TyMutexLock` to `TyMutexUnlock`, and gives it back while it
waits for the condition. It may wake up at any time, as it may from `TyCondVarWait`.
-/
namespace TyLang.Queue
open List Option Function

section Model

variable {V : Type}

inductive Request (V : Type) where
  | put (v : V)
  | take
  /-- With or without a timeout. -/
  | tryTake (timed : Bool)
  | peek
  | clear
  | close
  deriving DecidableEq, Repr

inductive Pc (V : Type) where
  | idle
  /-- At `TyMutexLock`. -/
  | locking (c : Request V)
  /-- Behind it, or back at the test of the loop around `TyCondVarWait`. -/
  | inside (c : Request V)
  /-- In `_queue_push_back_one`, behind the growth. -/
  | storing (v : V)
  /-- In `TyCondVarWait`. -/
  | waiting (c : Request V)
  /-- The first item has been read, and `head` is to be moved. -/
  | taking (v : V)
  /-- At `TyMutexUnlock`. -/
  | leaving
  deriving DecidableEq, Repr

/-- What the critical sections did, in their order. -/
inductive Event (V : Type) where
  | put (t : Nat) (v : V)
  /-- `take` or `tryTake` has got an item. -/
  | took (t : Nat) (v : V)
  | cleared (t : Nat)
  | closed (t : Nat)
  /-- The thread will raise `queue is closed and empty`. -/
  | refused (t : Nat)
  deriving DecidableEq, Repr

structure Shared (V : Type) where
  q : Buffer V
  isOpen : Bool
  mutex : Option Nat
  pc : Nat → Pc V
  history : List (Event V)

namespace Shared

def new : Shared V := ⟨queueNew, true, none, fun _ => .idle, []⟩

def go (s : Shared V) (t : Nat) (pc : Pc V) : Shared V :=
  { s with pc := update s.pc t pc }

def record (s : Shared V) (e : Event V) : Shared V := { s with history := s.history ++ [e] }

def wait (s : Shared V) (t : Nat) (c : Request V) : Shared V :=
  { s with mutex := none }.go t (.waiting c)

end Shared

/-- `take`, `tryTake` and `peek` on an item. -/
def readFirst (s : Shared V) (t : Nat) (next : V → Pc V) : Except Failure (Shared V) :=
  (read s.q.items s.q.head).map fun v => s.go t (next v)

/-- A method from where the mutex has been taken. -/
def enter (mem : Memory) (t : Nat) (s : Shared V) : Request V → Except Failure (Shared V)
  | .put v => (growIf mem (fullAtBack s.q) s.q).map fun q => { s with q := q }.go t (.storing v)
  | .take =>
    if queueCount s.q = 0 then
      if s.isOpen then .ok (s.wait t .take) else .ok ((s.record (.refused t)).go t .leaving)
    else readFirst s t .taking
  | .tryTake timed =>
    if queueCount s.q = 0 then
      if timed && s.isOpen then .ok (s.wait t (.tryTake timed)) else .ok (s.go t .leaving)
    else readFirst s t .taking
  | .peek =>
    if queueCount s.q = 0 then
      if s.isOpen then .ok (s.wait t .peek) else .ok ((s.record (.refused t)).go t .leaving)
    else readFirst s t fun _ => .leaving
  | .clear =>
    .ok (({ s with q := { s.q with head := 0, tail := 0 } }.record (.cleared t)).go t .leaving)
  | .close => .ok (({ s with isOpen := false }.record (.closed t)).go t .leaving)

/-- What a thread does next: a new call, its next step, or the end of a wait by its
timeout. -/
inductive Move (V : Type) where
  | call (c : Request V)
  | go
  | timeout
  deriving DecidableEq, Repr

def lock (s : Shared V) (t : Nat) (c : Request V) : Option (Except Failure (Shared V)) :=
  if s.mutex = none then some (.ok ({ s with mutex := some t }.go t (.inside c))) else none

def step (mem : Memory) (t : Nat) (move : Move V) (s : Shared V) :
    Option (Except Failure (Shared V)) :=
  match s.pc t, move with
  | .idle, .call c => some (.ok (s.go t (.locking c)))
  | .locking c, .go => lock s t c
  | .inside c, .go => some (enter mem t s c)
  | .storing v, .go =>
    some ((storeBack s.q v).map fun q => ({ s with q := q }.record (.put t v)).go t .leaving)
  | .waiting c, .go => lock s t c
  -- the loop is left, and what follows is `tryTake` without a timeout
  | .waiting (.tryTake _), .timeout => lock s t (.tryTake false)
  | .taking v, .go => some (.ok (({ s with q := dropFirst s.q }.record (.took t v)).go t .leaving))
  | .leaving, .go => some (.ok ({ s with mutex := none }.go t .idle))
  | _, _ => none

def interleave (mem : Memory) : List (Nat × Move V) → Shared V → Option (Except Failure (Shared V))
  | [], s => some (.ok s)
  | (t, move) :: moves, s =>
    match step mem t move s with
    | some (.ok s) => interleave mem moves s
    | other => other

end Model

section History

variable {V : Type}

def Event.putItem : Event V → Option V
  | .put _ v => some v
  | _ => none

def Event.tookItem : Event V → Option V
  | .took _ v => some v
  | _ => none

def puts (history : List (Event V)) : List V := history.filterMap Event.putItem

def taken (history : List (Event V)) : List V := history.filterMap Event.tookItem

/-- Items that are delivered, and behind them those that wait to be. -/
structure Account (V : Type) where
  delivered : List V
  pending : List V

/-- The first item that waits is delivered, and those that wait are discarded by `clear`. -/
def Account.note (a : Account V) : Event V → Account V
  | .put _ v => { a with pending := a.pending ++ [v] }
  | .took _ _ => ⟨a.delivered ++ a.pending.take 1, a.pending.tail⟩
  | .cleared _ => { a with pending := [] }
  | .closed _ | .refused _ => a

section
variable (history : List (Event V))
include history

def account : Account V := history.foldl Account.note ⟨[], []⟩

/-- The items that were put and not discarded, in the order in which they were put. -/
def kept : List V :=
  (account history).delivered ++ (account history).pending

lemma account_snoc (e : Event V) : account (history ++ [e]) = (account history).note e := by
  rw [account, foldl_append]
  rfl

lemma kept_sublist : (kept history).Sublist (puts history) := by
  induction history using reverseRecOn with
  | nil => exact Sublist.refl _
  | append_singleton history e ih =>
    rw [kept, account_snoc, puts, filterMap_append]
    cases e with
    | put t v =>
      change ((account history).delivered ++ ((account history).pending ++ [v])).Sublist
        (puts history ++ [v])
      rw [← append_assoc]
      exact ih.append_right [v]
    | took t v =>
      change ((account history).delivered ++ (account history).pending.take 1 ++
        (account history).pending.tail).Sublist (puts history ++ [])
      rwa [append_assoc, ← drop_one, take_append_drop, append_nil]
    | cleared t =>
      change ((account history).delivered ++ []).Sublist (puts history ++ [])
      rw [append_nil, append_nil]
      exact (sublist_append_left ..).trans ih
    | closed t => exact (ih.trans (sublist_append_left ..))
    | refused t => exact (ih.trans (sublist_append_left ..))

end

end History

section Invariant

variable {V : Type} {s s' : Shared V} {mem : Memory} {t : Nat} {e : Except Failure (Shared V)}

def Pc.Holding : Pc V → Prop
  | .inside _ | .storing _ | .taking _ | .leaving => True
  | .idle | .locking _ | .waiting _ => False

/-- What a thread in the middle of a critical section relies on. -/
def Pc.Ok (q : Buffer V) (pending : List V) : Pc V → Prop
  | .storing _ => 0 < q.cap ∧ pending.length + 1 < q.cap
  | .taking v => pending.head? = some v
  | _ => True

/-- A refusal is preceded by a `close`, and nothing waits to be delivered. -/
def RefusedOk (history : List (Event V)) : Prop :=
  ∀ before after t, history = before ++ .refused t :: after →
    (account before).pending = [] ∧ ∃ t', .closed t' ∈ before

structure SharedOk (s : Shared V) : Prop where
  represents : Represents s.q (account s.history).pending
  taken : taken s.history = (account s.history).delivered
  closed : s.isOpen = false → ∃ t, .closed t ∈ s.history
  holder : ∀ t, (s.pc t).Holding ↔ s.mutex = some t
  pc : ∀ t, (s.pc t).Ok s.q (account s.history).pending
  refused : RefusedOk s.history

lemma sharedOk_new : SharedOk (Shared.new : Shared V) where
  represents := represents_new
  taken := rfl
  closed := nofun
  holder _ := ⟨False.elim, nofun⟩
  pc _ := trivial
  refused before after t h := by
    have := congrArg length h
    simp [Shared.new] at this

variable {pc : Pc V} {history : List (Event V)}

lemma Pc.ok_of_not_holding (h : ¬ pc.Holding) (q : Buffer V) (pending : List V) :
    pc.Ok q pending := by
  cases pc with
  | storing v | taking v => exact absurd trivial h
  | idle | locking c | inside c | waiting c | leaving => trivial

/-- A thread that holds the mutex, or takes it, changes the queue; the others are outside
of their critical sections. -/
lemma SharedOk.update (h : SharedOk s) (hmutex : ∀ t', s.mutex = some t' → t' = t)
    (hrep : Represents s'.q (account s'.history).pending)
    (htaken : Queue.taken s'.history = (account s'.history).delivered)
    (hclosed : s'.isOpen = false → ∃ t, .closed t ∈ s'.history)
    (hpc : s'.pc = update s.pc t pc)
    (hholds : pc.Holding ∧ s'.mutex = some t ∨ ¬ pc.Holding ∧ s'.mutex = none)
    (hok : pc.Ok s'.q (account s'.history).pending) (hrefused : RefusedOk s'.history) :
    SharedOk s' := by
  have hothers : ∀ t', t' ≠ t → ¬ (s.pc t').Holding := fun t' hne hin =>
    hne (hmutex t' ((h.holder t').mp hin))
  refine ⟨hrep, htaken, hclosed, fun t' => ?_, fun t' => ?_, hrefused⟩
  · rw [hpc]
    by_cases ht : t' = t
    · subst ht
      rw [update_self]
      rcases hholds with ⟨hin, hm⟩ | ⟨hout, hm⟩
      · exact ⟨fun _ => hm, fun _ => hin⟩
      · exact ⟨fun hin => absurd hin hout, fun hm' => by rw [hm] at hm'; cases hm'⟩
    · rw [update_of_ne ht]
      refine ⟨fun hin => absurd hin (hothers t' ht), fun hm' => ?_⟩
      rcases hholds with ⟨-, hm⟩ | ⟨-, hm⟩
      · rw [hm] at hm'
        exact absurd (some.inj hm').symm ht
      · rw [hm] at hm'
        cases hm'
  · rw [hpc]
    by_cases ht : t' = t
    · subst ht
      rwa [update_self]
    · rw [update_of_ne ht]
      exact Pc.ok_of_not_holding (hothers t' ht) _ _

lemma RefusedOk.snoc (h : RefusedOk history) (e : Event V)
    (he : ∀ t, e = .refused t → (account history).pending = [] ∧ ∃ t', .closed t' ∈ history) :
    RefusedOk (history ++ [e]) := by
  intro before after t hsplit
  rcases Runs.split_snoc hsplit with ⟨rfl, rfl⟩ | ⟨after', hold⟩
  · exact he t rfl
  · exact h before after' t hold

lemma taken_snoc (h : taken history = (account history).delivered)
    (e : Event V) (he : ∀ t v, e = .took t v → (account history).pending.head? = some v) :
    taken (history ++ [e]) = (account (history ++ [e])).delivered := by
  rw [taken, filterMap_append, account_snoc]
  change taken history ++ _ = _
  rw [h]
  cases e with
  | took t v =>
    have hhead := he t v rfl
    change _ ++ [v] = _ ++ (account history).pending.take 1
    cases hp : (account history).pending with
    | nil =>
      rw [hp] at hhead
      cases hhead
    | cons x rest =>
      rw [hp] at hhead
      cases hhead
      rfl
  | put t v | cleared t | closed t | refused t => exact append_nil _

lemma SharedOk.outside (h : SharedOk s) (hbefore : ¬ (s.pc t).Holding)
    (hafter : ¬ pc.Holding) : SharedOk (s.go t pc) := by
  refine ⟨h.represents, h.taken, h.closed, fun t' => ?_, fun t' => ?_, h.refused⟩
  · change (Function.update s.pc t pc t').Holding ↔ s.mutex = some t'
    by_cases ht : t' = t
    · subst ht
      rw [update_self, ← h.holder t']
      exact ⟨fun hin => absurd hin hafter, fun hin => absurd hin hbefore⟩
    · rw [update_of_ne ht]
      exact h.holder t'
  · change (Function.update s.pc t pc t').Ok _ _
    by_cases ht : t' = t
    · subst ht
      rw [update_self]
      exact Pc.ok_of_not_holding hafter _ _
    · rw [update_of_ne ht]
      exact h.pc t'

/-- The thread returns from the step, or the process ends for want of memory. -/
def Proceeds (e : Except Failure (Shared V)) : Prop :=
  (∃ s, e = .ok s ∧ SharedOk s) ∨ e = .error .outOfMemory

lemma Proceeds.ok (h : SharedOk s) : Proceeds (.ok s) := .inl ⟨s, rfl, h⟩

lemma holder_unique (hmutex : s.mutex = some t) (t' : Nat) (ht' : s.mutex = some t') : t' = t := by
  rw [hmutex] at ht'
  exact (some.inj ht').symm

section Holder

variable (h : SharedOk s) (hmutex : s.mutex = some t)

include h hmutex

lemma SharedOk.stay (hpc : pc.Holding)
    (hok : pc.Ok s.q (account s.history).pending) : SharedOk (s.go t pc) :=
  h.update (holder_unique hmutex) h.represents h.taken h.closed rfl (.inl ⟨hpc, hmutex⟩) hok
    h.refused

lemma SharedOk.release (hpc : ¬ pc.Holding) : SharedOk ({ s with mutex := none }.go t pc) :=
  h.update (holder_unique hmutex) h.represents h.taken h.closed rfl (.inr ⟨hpc, rfl⟩)
    (Pc.ok_of_not_holding hpc _ _) h.refused

lemma SharedOk.refuse (hempty : (account s.history).pending = []) (hclosed : s.isOpen = false) :
    SharedOk ((s.record (.refused t)).go t .leaving) := by
  have hsnoc := account_snoc s.history (.refused t)
  obtain ⟨t', ht'⟩ := h.closed hclosed
  refine h.update (holder_unique hmutex) ?_ (taken_snoc h.taken _ nofun)
    (fun _ => ⟨t', mem_append_left _ ht'⟩) rfl (.inl ⟨trivial, hmutex⟩) trivial
    (h.refused.snoc _ fun _ _ => ⟨hempty, t', ht'⟩)
  change Represents s.q (account (s.history ++ [.refused t])).pending
  rw [hsnoc]
  exact h.represents

lemma readFirst_proceeds (hne : queueCount s.q ≠ 0)
    {next : V → Pc V} (hnext : ∀ v, (next v).Holding)
    (hok : ∀ v, (account s.history).pending.head? = some v →
      (next v).Ok s.q (account s.history).pending) : Proceeds (readFirst s t next) := by
  rw [queueCount_eq h.represents] at hne
  cases hp : (account s.history).pending.head? with
  | none =>
    rw [head?_eq_none_iff] at hp
    exact absurd (by rw [hp]; rfl) hne
  | some v =>
    rw [readFirst, h.represents.first hp]
    exact .ok (h.stay hmutex (hnext v) (hok v hp))

lemma enter_proceeds (c : Request V) : Proceeds (enter mem t s c) := by
  have hcount := queueCount_eq h.represents
  have hnil (hzero : queueCount s.q = 0) : (account s.history).pending = [] :=
    length_eq_zero_iff.mp (hcount ▸ hzero)
  cases c with
  | put v =>
    rw [enter]
    have hdoes : Does mem _ (growIf mem (fullAtBack s.q) s.q) _ :=
      growIf_does h.represents (Nat.le_refl (limitFor (account s.history).pending.length))
    obtain ⟨q, hgrow, hq⟩ | ⟨hgrow, -⟩ := hdoes
    · rw [hgrow]
      exact .ok (h.update (holder_unique hmutex) hq.1 h.taken h.closed rfl
        (.inl ⟨trivial, hmutex⟩) hq.2 h.refused)
    · rw [hgrow]
      exact .inr rfl
  | take =>
    rw [enter]
    split
    next hzero =>
      split
      next => exact .ok (h.release hmutex id)
      next hopen => exact .ok (h.refuse hmutex (hnil hzero) (Bool.eq_false_iff.mpr hopen))
    next hne => exact readFirst_proceeds h hmutex hne (fun _ => trivial) fun _ hv => hv
  | tryTake timed =>
    rw [enter]
    split
    next =>
      split
      next => exact .ok (h.release hmutex id)
      next => exact .ok (h.stay hmutex trivial trivial)
    next hne => exact readFirst_proceeds h hmutex hne (fun _ => trivial) fun _ hv => hv
  | peek =>
    rw [enter]
    split
    next hzero =>
      split
      next => exact .ok (h.release hmutex id)
      next hopen => exact .ok (h.refuse hmutex (hnil hzero) (Bool.eq_false_iff.mpr hopen))
    next hne => exact readFirst_proceeds h hmutex hne (fun _ => trivial) fun _ _ => trivial
  | clear =>
    refine .ok (h.update (holder_unique hmutex) ?_
      (taken_snoc h.taken _ nofun) (fun hopen => ?_) rfl
      (.inl ⟨trivial, hmutex⟩) trivial (h.refused.snoc _ nofun))
    · change Represents _ (account (s.history ++ [.cleared t])).pending
      rw [account_snoc]
      exact represents_clear h.represents
    · obtain ⟨t', ht'⟩ := h.closed hopen
      exact ⟨t', mem_append_left _ ht'⟩
  | close =>
    refine .ok (h.update (holder_unique hmutex) ?_ (taken_snoc h.taken _ nofun)
      (fun _ => ⟨t, mem_append_right _ (.head _)⟩) rfl (.inl ⟨trivial, hmutex⟩) trivial
      (h.refused.snoc _ nofun))
    change Represents s.q (account (s.history ++ [.closed t])).pending
    rw [account_snoc]
    exact h.represents

end Holder

lemma lock_proceeds (h : SharedOk s) {c : Request V}
    (hlock : lock s t c = some e) : Proceeds e := by
  rw [lock] at hlock
  split at hlock
  next hfree =>
    cases hlock
    exact .ok (h.update (fun t' ht' => by rw [hfree] at ht'; cases ht') h.represents h.taken
      h.closed rfl
      (.inl ⟨trivial, rfl⟩) trivial h.refused)
  next => cases hlock

lemma step_proceeds (h : SharedOk s) {move : Move V}
    (hstep : step mem t move s = some e) : Proceeds e := by
  have holds := h.holder t
  have hok := h.pc t
  unfold step at hstep
  split at hstep
  next c hpc =>
    cases hstep
    exact .ok (h.outside (by rw [hpc]; exact id) id)
  next c hpc => exact lock_proceeds h hstep
  next c hpc =>
    cases hstep
    exact enter_proceeds h (holds.mp (by rw [hpc]; trivial)) c
  next v hpc =>
    cases hstep
    have hmutex := holds.mp (by rw [hpc]; trivial)
    rw [hpc] at hok
    obtain ⟨q, hstore, hq⟩ := storeBack_spec h.represents hok.1 hok.2 v
    rw [hstore]
    refine .ok (h.update (holder_unique hmutex) ?_
      (taken_snoc h.taken _ nofun) (fun hopen => ?_) rfl
      (.inl ⟨trivial, hmutex⟩) trivial (h.refused.snoc _ nofun))
    · change Represents q (account (s.history ++ [.put t v])).pending
      rw [account_snoc]
      exact hq
    · obtain ⟨t', ht'⟩ := h.closed hopen
      exact ⟨t', mem_append_left _ ht'⟩
  next c hpc => exact lock_proceeds h hstep
  next hpc => exact lock_proceeds h hstep
  next v hpc =>
    cases hstep
    have hmutex := holds.mp (by rw [hpc]; trivial)
    rw [hpc] at hok
    refine .ok (h.update (holder_unique hmutex) ?_ (taken_snoc h.taken _ ?_) (fun hopen => ?_) rfl
      (.inl ⟨trivial, hmutex⟩) trivial (h.refused.snoc _ nofun))
    · change Represents (dropFirst s.q) (account (s.history ++ [.took t v])).pending
      rw [account_snoc]
      refine h.represents.tail_of_ne_nil fun hnil => ?_
      rw [hnil] at hok
      cases hok
    · rintro t' v' heq
      cases heq
      exact hok
    · obtain ⟨t', ht'⟩ := h.closed hopen
      exact ⟨t', mem_append_left _ ht'⟩
  next hpc =>
    cases hstep
    exact .ok (h.release (holds.mp (by rw [hpc]; trivial)) id)
  next => cases hstep

lemma interleave_proceeds (moves : List (Nat × Move V)) (h : SharedOk s)
    (hrun : interleave mem moves s = some e) : Proceeds e := by
  induction moves generalizing s with
  | nil =>
    cases hrun
    exact .ok h
  | cons m moves ih =>
    rw [interleave] at hrun
    split at hrun
    next s' hstep =>
      obtain ⟨_, heq, h'⟩ | heq := step_proceeds h hstep
      · cases heq
        exact ih h' hrun
      · cases heq
    next => exact step_proceeds h hrun

end Invariant

section Delivery

variable {V : Type}

/-- In every interleaving, the items that were returned are the first of those that were
put and not discarded, none of them twice, a thread is refused only if the queue is closed
and empty, and no cell is accessed that has no item. -/
theorem sharedQueue_delivers (mem : Memory) (moves : List (Nat × Move V)) {s : Shared V}
    (hrun : interleave mem moves Shared.new = some (.ok s)) :
    taken s.history <+: kept s.history ∧ (kept s.history).Sublist (puts s.history) ∧
      ((puts s.history).Nodup → (taken s.history).Nodup) ∧
      (∀ before after t, s.history = before ++ .refused t :: after →
        (account before).pending = [] ∧ ∃ t', .closed t' ∈ before) ∧
      ∀ t move f, step mem t move s = some (.error f) → f = .outOfMemory := by
  obtain ⟨_, heq, h⟩ | heq := interleave_proceeds moves sharedOk_new hrun
  · cases heq
    have hfirst : taken s.history <+: kept s.history := by
      rw [h.taken]
      exact List.prefix_append ..
    refine ⟨hfirst, kept_sublist _, fun hnodup => ?_, h.refused, fun t move f hstep => ?_⟩
    · exact (hfirst.sublist.trans (kept_sublist _)).nodup hnodup
    · obtain ⟨_, heq, -⟩ | heq := step_proceeds h hstep
      · cases heq
      · exact Except.error.inj heq
  · cases heq

/-- One thread waits for an item that another one puts, and is refused later. -/
def meeting : List (Nat × Move Nat) :=
  [(1, .call .take), (1, .go), (1, .go), (0, .call (.put 5)), (0, .go), (0, .go), (0, .go),
    (0, .go),
    (1, .go), (1, .go), (1, .go), (1, .go), (0, .call .close), (0, .go), (0, .go), (0, .go),
    (1, .call .take), (1, .go), (1, .go)]

theorem sharedQueue_delivers_meeting :
    ∃ s, interleave flatMemory meeting Shared.new = some (.ok s) ∧
      s.history = [.put 0 5, .took 1 5, .closed 0, .refused 1] ∧
      taken s.history <+: kept s.history ∧
      (account [.put 0 5, .took 1 5, .closed 0]).pending = ([] : List Nat) := by
  have hrun : ((interleave flatMemory meeting Shared.new).bind Except.toOption).map Shared.history =
      some [.put 0 5, .took 1 5, .closed 0, .refused 1] := by decide +kernel
  obtain ⟨s, hs, hhistory⟩ := map_eq_some_iff.mp hrun
  obtain ⟨e, he, hok⟩ := bind_eq_some_iff.mp hs
  cases e with
  | error f => cases hok
  | ok s' =>
    cases hok
    obtain ⟨hfirst, -, -, hrefused, -⟩ := sharedQueue_delivers flatMemory meeting he
    exact ⟨s, he, hhistory, hfirst, (hrefused _ [] 1 hhistory).1⟩

end Delivery

end TyLang.Queue
