import TyLang.Channel.Model
import TyLang.Lib.Runs

/-!
What holds in every state of every run of a channel. The values that were sent are those that
were received, followed by those in the queue, and a receiver that got `None` came when the
channel was closed and the queue was empty.
-/
namespace TyLang.Channels
open List Function

variable {V : Type} {s s' : Channel V} {t : Nat} {move : Move V} {pc : Pc V}

def Event.sentItem : Event V → Option V
  | .sent _ v => some v
  | .received _ _ | .closed _ => none

def Event.receivedItem : Event V → Option V
  | .received _ answer => answer
  | .sent _ _ | .closed _ => none

section
variable (history : List (Event V))
include history

def sends : List V := history.filterMap Event.sentItem

def receipts : List V := history.filterMap Event.receivedItem

@[simp]
lemma sends_snoc (e : Event V) : sends (history ++ [e]) = sends history ++ e.sentItem.toList := by
  cases e <;> simp [sends, Event.sentItem]

@[simp]
lemma receipts_snoc (e : Event V) :
    receipts (history ++ [e]) = receipts history ++ e.receivedItem.toList := by
  rcases e with _ | ⟨_, _ | _⟩ | _ <;> simp [receipts, Event.receivedItem]

/-- A receiver got `None` behind a `close`, when all that had been sent was received. -/
def NoneOk : Prop :=
  ∀ before after t, history = before ++ .received t none :: after →
    receipts before = sends before ∧ ∃ t', .closed t' ∈ before

end

lemma NoneOk.snoc {history : List (Event V)} (h : NoneOk history) (e : Event V)
    (he : ∀ t, e = .received t none →
      receipts history = sends history ∧ ∃ t', .closed t' ∈ history) : NoneOk (history ++ [e]) := by
  intro before after t hsplit
  rcases Runs.split_snoc hsplit with ⟨rfl, rfl⟩ | ⟨after', hold⟩
  · exact he t rfl
  · exact h before after' t hold

def Pc.Holding : Pc V → Prop
  | .pushing _ | .testing | .taking | .closing | .unlocking _ => True
  | .idle | .locking _ | .waiting | .woken | .signalling => False

lemma Request.inside_holding (c : Request V) : c.inside.Holding := by
  cases c <;> trivial

lemma Leave.outside_not_holding (leave : Leave V) : ¬ leave.outside.Holding := by
  cases leave <;> exact id

/-- The mutex and the condition variable know the threads that are at them. -/
structure Placed (s : Channel V) : Prop where
  holder : ∀ t, (s.pc t).Holding ↔ s.mutex = some t
  waits : ∀ t, s.pc t = .waiting ↔ t ∈ s.waiters

structure Logged (s : Channel V) : Prop where
  queued : sends s.history = receipts s.history ++ s.q
  closed : s.isOpen = false → ∃ t, .closed t ∈ s.history
  taking : ∀ t, s.pc t = .taking → s.q = [] → s.isOpen = false
  none : NoneOk s.history

lemma placed_new : Placed (.new : Channel V) where
  holder _ := ⟨False.elim, nofun⟩
  waits _ := ⟨nofun, nofun⟩

lemma logged_new : Logged (.new : Channel V) where
  queued := rfl
  closed := nofun
  taking := nofun
  none before after t h := by
    have := congrArg length h
    simp [Channel.new] at this

lemma forall_update_iff (P : Pc V → Prop) {f : Nat → Pc V} {Q Q' : Nat → Prop}
    (h : ∀ t, P (f t) ↔ Q t) (self : P pc ↔ Q' t) (others : ∀ u, u ≠ t → (Q' u ↔ Q u)) (u : Nat) :
    P (update f t pc u) ↔ Q' u := by
  by_cases hu : u = t
  · subst hu
    rwa [update_self]
  · rw [update_of_ne hu, h u]
    exact (others u hu).symm

lemma mem_wake {u : Nat} : u ∈ (s.wake t).waiters ↔ u ∈ s.waiters ∧ u ≠ t := by
  simp [Channel.wake, Channel.go]

namespace Placed

section
variable (h : Placed s)
include h

lemma outside (hbefore : ¬ (s.pc t).Holding) (hafter : ¬ pc.Holding)
    (hwaits : s.pc t ≠ .waiting) (hwaits' : pc ≠ .waiting) : Placed (s.go t pc) where
  holder := forall_update_iff Pc.Holding h.holder
    ⟨fun hin => absurd hin hafter, fun hm => absurd ((h.holder t).mpr hm) hbefore⟩ fun _ _ => .rfl
  waits := forall_update_iff (· = .waiting) h.waits
    ⟨fun hw => absurd hw hwaits', fun hm => absurd ((h.waits t).mpr hm) hwaits⟩ fun _ _ => .rfl

lemma acquire (hfree : s.mutex = none) (hwaits : s.pc t ≠ .waiting)
    (hafter : pc.Holding) : Placed ({ s with mutex := some t }.go t pc) where
  holder := forall_update_iff Pc.Holding h.holder ⟨fun _ => rfl, fun _ => hafter⟩ fun u hu => by
    rw [hfree]
    exact ⟨fun hm => absurd (Option.some.inj hm).symm hu, nofun⟩
  waits := forall_update_iff (· = .waiting) h.waits
    ⟨fun hw => by cases hw; exact hafter.elim,
      fun hm => absurd ((h.waits t).mpr hm) hwaits⟩ fun _ _ => .rfl

section
variable (hbefore : (s.pc t).Holding)
include hbefore

lemma not_waiter : t ∉ s.waiters := fun hm => by
  rwa [(h.waits t).mpr hm] at hbefore

lemma stay (hafter : pc.Holding) (isOpen : Bool) (q : List V) (history : List (Event V)) :
    Placed ((⟨isOpen, q, s.mutex, s.waiters, s.pc, history⟩ : Channel V).go t pc) where
  holder := forall_update_iff Pc.Holding h.holder
    ⟨fun _ => (h.holder t).mp hbefore, fun _ => hafter⟩
    fun _ _ => .rfl
  waits := forall_update_iff (· = .waiting) h.waits
    ⟨fun hw => by cases hw; exact hafter.elim, fun hm => absurd hm (h.not_waiter hbefore)⟩
    fun _ _ => .rfl

lemma others_not_holding {u : Nat} (hu : u ≠ t) :
    s.mutex ≠ some u := fun hm => by
  rw [(h.holder t).mp hbefore] at hm
  exact hu (Option.some.inj hm).symm

lemma release (hafter : ¬ pc.Holding) {waiters : List Nat} (hself : pc = .waiting ↔ t ∈ waiters)
    (hothers : ∀ u, u ≠ t → (u ∈ waiters ↔ u ∈ s.waiters)) :
    Placed ({ s with waiters := waiters }.unlock t pc) where
  holder := forall_update_iff Pc.Holding h.holder ⟨fun hin => absurd hin hafter, nofun⟩ fun _ hu =>
    ⟨nofun, fun hm => absurd hm (h.others_not_holding hbefore hu)⟩
  waits := forall_update_iff (· = .waiting) h.waits hself hothers

end

lemma wake (hwaits : s.pc t = .waiting) : Placed (s.wake t) where
  holder := forall_update_iff Pc.Holding h.holder
    ⟨False.elim, fun hm => by have := (h.holder t).mpr hm; rw [hwaits] at this; exact this⟩
    fun _ _ => .rfl
  waits := forall_update_iff (· = .waiting) h.waits
    ⟨nofun, fun hm => absurd rfl (mem_wake.mp hm).2⟩
    fun _ hu => mem_wake.trans (and_iff_left hu)

lemma step (hstep : Steps t s move s') : Placed s' := by
  cases hstep with
  | call c hpc => exact h.outside (by rw [hpc]; exact id) id (by rw [hpc]; nofun) nofun
  | lock c hpc hfree => exact h.acquire hfree (by rw [hpc]; nofun) c.inside_holding
  | push v hpc | take hpc | close hpc | leaveLoop hpc hready =>
    exact h.stay (by rw [hpc]; trivial) (by trivial) _ _ _
  | wait hpc hopen hempty =>
    exact h.release (by rw [hpc]; trivial) id (by simp) fun u hu => by simp [hu]
  | wakeUp hpc => exact h.wake hpc
  | relock hpc hfree => exact h.acquire hfree (by rw [hpc]; nofun) trivial
  | unlock leave hpc =>
    have hbefore : (s.pc t).Holding := by rw [hpc]; trivial
    refine h.release hbefore leave.outside_not_holding ⟨fun hw => ?_, fun hm => ?_⟩
      fun _ _ => .rfl
    · cases leave <;> cases hw
    · exact absurd hm (h.not_waiter hbefore)
  | signalNone i hpc hnone => exact h.outside (by rw [hpc]; exact id) id (by rw [hpc]; nofun) nofun
  | signal i u hpc hu =>
    have hwaits := (h.waits u).mpr hu
    have hne : t ≠ u := fun heq => by rw [← heq, hpc] at hwaits; cases hwaits
    have hpc' : (s.wake u).pc t = .signalling := by
      rw [← hpc]
      exact update_of_ne hne _ _
    exact (h.wake hwaits).outside (by rw [hpc']; exact id) id (by rw [hpc']; nofun) nofun

end

end Placed

namespace Logged

lemma go (h : Logged s) (hpc : pc ≠ .taking) (mutex : Option Nat) (waiters : List Nat) :
    Logged ({ s with mutex := mutex, waiters := waiters }.go t pc) where
  queued := h.queued
  closed := h.closed
  taking u hu := by
    refine h.taking u ?_
    change update s.pc t pc u = .taking at hu
    by_cases heq : u = t
    · subst heq
      rw [update_self] at hu
      exact absurd hu hpc
    · rwa [update_of_ne heq] at hu
  none := h.none

lemma not_taking (hplaced : Placed s) (hbefore : (s.pc t).Holding) (hpc : pc ≠ .taking)
    (u : Nat) : update s.pc t pc u ≠ .taking := by
  by_cases heq : u = t
  · subst heq
    rwa [update_self]
  · rw [update_of_ne heq]
    intro hu
    refine hplaced.others_not_holding hbefore heq ((hplaced.holder u).mp ?_)
    rw [hu]
    trivial

lemma push (h : Logged s) (hplaced : Placed s) {v : V} (hpc : s.pc t = .pushing v) :
    Logged (({ s with q := s.q ++ [v] }.record (.sent t v)).go t (.unlocking .sent)) where
  queued := by
    change sends (s.history ++ [.sent t v]) = receipts (s.history ++ [.sent t v]) ++ (s.q ++ [v])
    simp [h.queued, Event.sentItem, Event.receivedItem]
  closed hclosed := by
    obtain ⟨u, hu⟩ := h.closed hclosed
    exact ⟨u, mem_append_left _ hu⟩
  taking u hu := absurd hu (not_taking hplaced (by rw [hpc]; trivial) (by nofun) u)
  none := h.none.snoc _ nofun

lemma close (h : Logged s) (hplaced : Placed s) (hpc : s.pc t = .closing) :
    Logged (({ s with isOpen := false }.record (.closed t)).go t (.unlocking .closed)) where
  queued := by
    change sends (s.history ++ [.closed t]) = receipts (s.history ++ [.closed t]) ++ s.q
    simp [h.queued, Event.sentItem, Event.receivedItem]
  closed _ := ⟨t, mem_append_right _ (mem_singleton_self _)⟩
  taking u hu := absurd hu (not_taking hplaced (by rw [hpc]; trivial) (by nofun) u)
  none := h.none.snoc _ nofun

lemma take (h : Logged s) (hplaced : Placed s) (hpc : s.pc t = .taking) :
    Logged (({ s with q := s.q.tail }.record (.received t s.q.head?)).go t
      (.unlocking (.received s.q.head?))) where
  queued := by
    change sends (s.history ++ [.received t s.q.head?]) =
      receipts (s.history ++ [.received t s.q.head?]) ++ s.q.tail
    rw [sends_snoc, receipts_snoc, h.queued]
    cases s.q <;> simp [Event.sentItem, Event.receivedItem]
  closed hclosed := by
    obtain ⟨u, hu⟩ := h.closed hclosed
    exact ⟨u, mem_append_left _ hu⟩
  taking u hu := absurd hu (not_taking hplaced (by rw [hpc]; trivial) (by nofun) u)
  none := h.none.snoc _ fun u hnone => by
    have hempty : s.q = [] := head?_eq_none_iff.mp (Event.received.inj hnone).2
    refine ⟨?_, h.closed (h.taking t hpc hempty)⟩
    rw [h.queued, hempty, append_nil]

lemma leaveLoop (h : Logged s) (hready : s.q = [] → s.isOpen = false) :
    Logged (s.go t .taking) where
  queued := h.queued
  closed := h.closed
  taking _ _ := hready
  none := h.none

lemma step (h : Logged s) (hplaced : Placed s) (hstep : Steps t s move s') : Logged s' := by
  cases hstep with
  | call c hpc => exact h.go (by nofun) _ _
  | lock c hpc hfree => exact h.go (by cases c <;> nofun) _ _
  | push v hpc => exact h.push hplaced hpc
  | wait hpc hopen hempty | wakeUp hpc => exact h.go (by nofun) _ _
  | leaveLoop hpc hready => exact h.leaveLoop hready
  | relock hpc hfree | signalNone i hpc hnone => exact h.go (by nofun) _ _
  | take hpc => exact h.take hplaced hpc
  | close hpc => exact h.close hplaced hpc
  | unlock leave hpc => exact h.go (by cases leave <;> nofun) _ _
  | signal i u hpc hu => exact (h.go (by nofun) _ _ : Logged (s.wake u)).go (by nofun) _ _

end Logged

namespace Run

variable (r : Run V)

lemma invariant {P : Channel V → Prop} (start : P .new)
    (step : ∀ s t move s', P s → Steps t s move s' → P s') (n : Nat) : P (r.state n) := by
  induction n with
  | zero =>
    rwa [r.start]
  | succ n ih =>
    cases hmove : r.move n with
    | none =>
      rwa [r.idles n hmove]
    | some m => exact step _ _ _ _ ih (steps_of_step (r.steps n m.1 m.2 hmove))

lemma placed (n : Nat) : Placed (r.state n) :=
  r.invariant placed_new (fun _ _ _ _ h hstep => h.step hstep) n

lemma logged (n : Nat) : Logged (r.state n) :=
  (r.invariant (P := fun s => Placed s ∧ Logged s) ⟨placed_new, logged_new⟩
    (fun _ _ _ _ h hstep => ⟨h.1.step hstep, h.2.step h.1 hstep⟩) n).2

lemma receipts_first (n : Nat) : receipts (r.state n).history <+: sends (r.state n).history :=
  ⟨(r.state n).q, (r.logged n).queued.symm⟩

end Run

end TyLang.Channels
