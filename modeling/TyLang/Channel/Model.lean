import TyLang.Lib.Fairness

/-!
Channels of `src/functions.c`: `thread_send`, `thread_recv` without a timeout and
`thread_close`, run by any number of threads in any interleaving. A thread holds the mutex from
`TyMutexLock` to `TyMutexUnlock`, and gives it back while it is in `TyCondVarWait`, which it
leaves when it has been signalled, or for no reason at all. The lock of the interpreter, which a
thread gives up while it waits for the mutex, is not part of the model.
-/
namespace TyLang.Channels

inductive Request (V : Type) where
  | send (v : V)
  | recv
  | close
  deriving DecidableEq, Repr

inductive Leave (V : Type) where
  | sent
  /-- `Some(v)` or `None` is to be returned. -/
  | received (answer : Option V)
  | closed
  deriving DecidableEq, Repr

/-- Where a thread is in a call. -/
inductive Pc (V : Type) where
  | idle
  /-- At `TyMutexLock`. -/
  | locking (c : Request V)
  /-- In `thread_send`, behind it. -/
  | pushing (v : V)
  /-- At the test of the loop around `TyCondVarWait`. -/
  | testing
  /-- In `TyCondVarWait`. -/
  | waiting
  /-- In `TyCondVarWait`, which is to take the mutex again and return. -/
  | woken
  /-- Behind the loop. -/
  | taking
  /-- In `thread_close`, behind `TyMutexLock`. -/
  | closing
  /-- At `TyMutexUnlock`. -/
  | unlocking (leave : Leave V)
  /-- At `TyCondVarSignal`. -/
  | signalling
  deriving DecidableEq, Repr

inductive Event (V : Type) where
  | sent (t : Nat) (v : V)
  | received (t : Nat) (answer : Option V)
  | closed (t : Nat)
  deriving DecidableEq, Repr

structure Channel (V : Type) where
  isOpen : Bool
  q : List V
  /-- The thread that holds the mutex. -/
  mutex : Option Nat
  waiters : List Nat
  pc : Nat → Pc V
  history : List (Event V)

variable {V : Type}

namespace Channel

/-- `thread_channel` -/
def new : Channel V := ⟨true, [], none, [], fun _ => .idle, []⟩

section
variable (s : Channel V)

def go (t : Nat) (pc : Pc V) : Channel V :=
  { s with pc := Function.update s.pc t pc }

def record (e : Event V) : Channel V := { s with history := s.history ++ [e] }

/-- `TyMutexLock`, of which the thread returns to `pc`. -/
def lock (t : Nat) (pc : Pc V) : Option (Channel V) :=
  if s.mutex = none then some ({ s with mutex := some t }.go t pc) else none

/-- `TyMutexUnlock` -/
def unlock (t : Nat) (pc : Pc V) : Channel V := { s with mutex := none }.go t pc

/-- `TyCondVarWait` up to where the thread is asleep. -/
def wait (t : Nat) : Channel V :=
  { s with waiters := s.waiters ++ [t] }.unlock t .waiting

def wake (t : Nat) : Channel V :=
  { s with waiters := s.waiters.filter (· ≠ t) }.go t .woken

end

end Channel

def Request.inside : Request V → Pc V
  | .send v => .pushing v
  | .recv => .testing
  | .close => .closing

def Leave.outside : Leave V → Pc V
  | .sent => .signalling
  | .received _ | .closed => .idle

/-- What a thread does next: a new call, its next statement, `TyCondVarSignal` that wakes the
`i`th of the threads that wait, or the end of a wait without a signal. -/
inductive Move (V : Type) where
  | call (c : Request V)
  | go
  | signal (i : Nat)
  | wakeUp
  deriving DecidableEq, Repr

def step (t : Nat) (move : Move V) (s : Channel V) : Option (Channel V) :=
  match s.pc t, move with
  | .idle, .call c => some (s.go t (.locking c))
  | .locking c, .go => s.lock t c.inside
  | .pushing v, .go =>
    some (({ s with q := s.q ++ [v] }.record (.sent t v)).go t (.unlocking .sent))
  | .testing, .go =>
    if s.isOpen && s.q.isEmpty then some (s.wait t) else some (s.go t .taking)
  | .waiting, .wakeUp => some (s.wake t)
  | .woken, .go => s.lock t .testing
  | .taking, .go =>
    some (({ s with q := s.q.tail }.record (.received t s.q.head?)).go t
      (.unlocking (.received s.q.head?)))
  -- nobody is woken
  | .closing, .go =>
    some (({ s with isOpen := false }.record (.closed t)).go t (.unlocking .closed))
  | .unlocking leave, .go => some (s.unlock t leave.outside)
  | .signalling, .signal i =>
    if s.waiters = [] then some (s.go t .idle)
    else s.waiters[i]?.map fun u => (s.wake u).go t .idle
  | _, _ => none

def interleave : List (Nat × Move V) → Channel V → Option (Channel V)
  | [], s => some s
  | (t, move) :: moves, s => (step t move s).bind (interleave moves)

def Move.Own : Move V → Prop
  | .go | .signal _ => True
  | .call _ | .wakeUp => False

def Enabled (s : Channel V) (t : Nat) : Prop :=
  ∃ move : Move V, move.Own ∧ (step t move s).isSome

/-- A run of the system from `thread_channel` on. At some of its times nothing happens. -/
structure Run (V : Type) where
  state : Nat → Channel V
  move : Nat → Option (Nat × Move V)
  start : state 0 = .new
  idles : ∀ n, move n = none → state (n + 1) = state n
  steps : ∀ n t m, move n = some (t, m) → step t m (state n) = some (state (n + 1))

/-- A thread that can go on again and again does go on, whoever else takes the mutex. -/
def Run.Fair (r : Run V) : Prop :=
  ∀ t, Fairness.StrongFair (fun n => Enabled (r.state n) t)
    fun n => ∃ m : Move V, m.Own ∧ r.move n = some (t, m)

inductive Steps (t : Nat) (s : Channel V) : Move V → Channel V → Prop where
  | call (c : Request V) (hpc : s.pc t = .idle) : Steps t s (.call c) (s.go t (.locking c))
  | lock (c : Request V) (hpc : s.pc t = .locking c) (hfree : s.mutex = none) :
      Steps t s .go ({ s with mutex := some t }.go t c.inside)
  | push (v : V) (hpc : s.pc t = .pushing v) :
      Steps t s .go (({ s with q := s.q ++ [v] }.record (.sent t v)).go t (.unlocking .sent))
  | wait (hpc : s.pc t = .testing) (hopen : s.isOpen) (hempty : s.q = []) :
      Steps t s .go (s.wait t)
  | leaveLoop (hpc : s.pc t = .testing) (hready : s.q = [] → s.isOpen = false) :
      Steps t s .go (s.go t .taking)
  | wakeUp (hpc : s.pc t = .waiting) : Steps t s .wakeUp (s.wake t)
  | relock (hpc : s.pc t = .woken) (hfree : s.mutex = none) :
      Steps t s .go ({ s with mutex := some t }.go t .testing)
  | take (hpc : s.pc t = .taking) :
      Steps t s .go (({ s with q := s.q.tail }.record (.received t s.q.head?)).go t
        (.unlocking (.received s.q.head?)))
  | close (hpc : s.pc t = .closing) :
      Steps t s .go (({ s with isOpen := false }.record (.closed t)).go t (.unlocking .closed))
  | unlock (leave : Leave V) (hpc : s.pc t = .unlocking leave) :
      Steps t s .go (s.unlock t leave.outside)
  | signalNone (i : Nat) (hpc : s.pc t = .signalling) (hnone : s.waiters = []) :
      Steps t s (.signal i) (s.go t .idle)
  | signal (i u : Nat) (hpc : s.pc t = .signalling) (hu : u ∈ s.waiters) :
      Steps t s (.signal i) ((s.wake u).go t .idle)

lemma lock_eq_some {s s' : Channel V} {t : Nat} {pc : Pc V} (h : s.lock t pc = some s') :
    s.mutex = none ∧ s' = { s with mutex := some t }.go t pc := by
  rw [Channel.lock] at h
  split at h
  next hfree => exact ⟨hfree, (Option.some.inj h).symm⟩
  next => cases h

lemma steps_of_step {t : Nat} {move : Move V} {s s' : Channel V} (h : step t move s = some s') :
    Steps t s move s' := by
  unfold step at h
  split at h
  next c hpc => cases h; exact .call c hpc
  next c hpc =>
    obtain ⟨hfree, rfl⟩ := lock_eq_some h
    exact .lock c hpc hfree
  next v hpc => cases h; exact .push v hpc
  next hpc =>
    split at h
    next hwait =>
      rw [Bool.and_eq_true, List.isEmpty_iff] at hwait
      cases h
      exact .wait hpc hwait.1 hwait.2
    next hgo =>
      cases h
      refine .leaveLoop hpc fun hempty => ?_
      rw [hempty] at hgo
      simpa using hgo
  next hpc => cases h; exact .wakeUp hpc
  next hpc =>
    obtain ⟨hfree, rfl⟩ := lock_eq_some h
    exact .relock hpc hfree
  next hpc => cases h; exact .take hpc
  next hpc => cases h; exact .close hpc
  next leave hpc => cases h; exact .unlock leave hpc
  next i hpc =>
    split at h
    next hnone => cases h; exact .signalNone i hpc hnone
    next =>
      obtain ⟨u, hu, rfl⟩ := Option.map_eq_some_iff.mp h
      exact .signal i u hpc (List.mem_of_getElem? hu)
  next => cases h

end TyLang.Channels
