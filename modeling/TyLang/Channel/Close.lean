import TyLang.Channel.Order

/-!
What happens to receivers once a channel has been closed. In a fair run the mutex becomes free
again and again, and a receiver that is not asleep goes through its call. `thread_close` does
not wake those that are.
-/
namespace TyLang.Channels
open List Option

variable {V : Type} {s s' : Channel V} {t u : Nat} {move : Move V} {n : Nat}

section Definitions

def Pc.InRecv : Pc V → Prop
  | .locking .recv | .testing | .waiting | .woken | .taking | .unlocking (.received _) => True
  | _ => False

def Run.Returns (r : Run V) (t n : Nat) : Prop :=
  ∃ m, n ≤ m ∧ (∀ k, n ≤ k → k ≤ m → ((r.state k).pc t).InRecv) ∧
    (∃ answer, (r.state m).pc t = .unlocking (.received answer)) ∧ (r.state (m + 1)).pc t = .idle

def Run.Quiet (r : Run V) : Prop :=
  ∀ n t, (r.state n).pc t = .closing → r.move n = some (t, .go) → (r.state n).waiters = []

@[simp]
def Pc.rank : Pc V → Nat
  | .locking _ | .woken => 4
  | .testing => 3
  | .pushing _ | .taking | .closing => 2
  | .unlocking _ => 1
  | .idle | .waiting | .signalling => 0

end Definitions

section Step

@[simp]
lemma go_pc_self (pc : Pc V) : (s.go t pc).pc t = pc := Function.update_self ..

lemma go_pc_of_ne (h : u ≠ t) (pc : Pc V) : (s.go t pc).pc u = s.pc u :=
  Function.update_of_ne h ..

section
variable (h : Steps t s move s')
include h

lemma Steps.others (hu : u ≠ t) (hawake : u ∉ s.waiters) : s'.pc u = s.pc u := by
  cases h with
  | call | lock | push | wait | leaveLoop | wakeUp | relock | take | close | unlock | signalNone =>
    exact go_pc_of_ne hu _
  | signal i w hpc hw =>
    have hne : u ≠ w := fun heq => hawake (heq ▸ hw)
    rw [go_pc_of_ne hu]
    exact go_pc_of_ne hne _

lemma Steps.rank_lt (hpc : 0 < (s.pc t).rank) : (s'.pc t).rank < (s.pc t).rank := by
  cases h with
  | call c hat | wakeUp hat | signalNone i hat hnone | signal i w hat hw =>
    rw [hat] at hpc
    exact absurd hpc (Nat.lt_irrefl 0)
  | lock c hat hfree =>
    rw [hat, go_pc_self]
    cases c <;> simp [Request.inside]
  | unlock leave hat =>
    rw [hat, Channel.unlock, go_pc_self]
    cases leave <;> simp [Leave.outside]
  | push v hat | leaveLoop hat hready | relock hat hfree | take hat | close hat =>
    rw [hat, go_pc_self]
    simp
  | wait hat hopen hempty =>
    rw [hat, Channel.wait, Channel.unlock, go_pc_self]
    simp

lemma Steps.mutex (hm : s.mutex = some u) : s'.mutex = some u ∨ s'.mutex = none := by
  cases h with
  | lock c hpc hfree | relock hpc hfree =>
    rw [hfree] at hm
    cases hm
  | call | push | leaveLoop | wakeUp | take | close | signalNone | signal => exact .inl hm
  | _ => exact .inr rfl

lemma Steps.isOpen (hclosed : s.isOpen = false) : s'.isOpen = false := by
  cases h with
  | close => rfl
  | _ => exact hclosed

lemma Steps.waiters (hquiet : s.isOpen = false → s.waiters = [])
    (hclose : s.pc t = .closing → move = .go → s.waiters = []) (hclosed : s'.isOpen = false) :
    s'.waiters = [] := by
  cases h with
  | call | lock | push | leaveLoop | relock | take | unlock | signalNone => exact hquiet hclosed
  | wait hpc hopen hempty => exact absurd (hopen.symm.trans hclosed) nofun
  | wakeUp hpc =>
    change s.waiters.filter _ = []
    rw [hquiet hclosed, filter_nil]
  | signal i w hpc hw =>
    change s.waiters.filter _ = []
    rw [hquiet hclosed, filter_nil]
  | close hpc => exact hclose hpc rfl

lemma Steps.returns (hin : (s.pc t).InRecv) (hout : ¬ (s'.pc t).InRecv) :
    (∃ answer, s.pc t = .unlocking (.received answer)) ∧ s'.pc t = .idle := by
  cases h with
  | call c hat | push v hat | close hat | signalNone i hat hnone | signal i w hat hw =>
    rw [hat] at hin
    exact hin.elim
  | lock c hat hfree =>
    rw [hat] at hin
    rw [go_pc_self] at hout
    cases c with
    | recv => exact absurd trivial hout
    | send v | close => exact hin.elim
  | wait hat hopen hempty =>
    rw [Channel.wait, Channel.unlock, go_pc_self] at hout
    exact absurd trivial hout
  | wakeUp hat =>
    rw [Channel.wake, go_pc_self] at hout
    exact absurd trivial hout
  | leaveLoop hat hready | relock hat hfree | take hat =>
    rw [go_pc_self] at hout
    exact absurd trivial hout
  | unlock leave hat =>
    rw [hat] at hin
    rw [hat, Channel.unlock, go_pc_self]
    cases leave with
    | received answer => exact ⟨⟨answer, rfl⟩, rfl⟩
    | _ => exact hin.elim

end

lemma enabled_of_rank (hpc : 0 < (s.pc t).rank) (hfree : (s.pc t).Holding ∨ s.mutex = none) :
    Enabled s t := by
  refine ⟨.go, trivial, ?_⟩
  cases hat : s.pc t with
  | idle | waiting | signalling =>
    rw [hat] at hpc
    exact absurd hpc (Nat.lt_irrefl 0)
  | pushing v | taking | closing | unlocking leave =>
    simp only [step, hat]
    rfl
  | testing =>
    simp only [step, hat]
    split <;> rfl
  | locking c | woken =>
    have hfree := hfree.resolve_left (by rw [hat]; exact id)
    simp only [step, hat, Channel.lock, if_pos hfree]
    rfl

end Step

namespace Run

variable (r : Run V)

lemma rank_step (hpc : 0 < ((r.state n).pc u).rank) (hawake : u ∉ (r.state n).waiters) :
    ((r.state (n + 1)).pc u).rank ≤ ((r.state n).pc u).rank ∧
      ((∃ m : Move V, m.Own ∧ r.move n = some (u, m)) →
        ((r.state (n + 1)).pc u).rank < ((r.state n).pc u).rank) := by
  cases hmove : r.move n with
  | none =>
    rw [r.idles n hmove]
    exact ⟨.refl, nofun⟩
  | some move =>
    have hstep := steps_of_step (r.steps n move.1 move.2 hmove)
    by_cases hu : u = move.1
    · subst hu
      have hlt := hstep.rank_lt hpc
      exact ⟨hlt.le, fun _ => hlt⟩
    · rw [hstep.others hu hawake]
      refine ⟨.refl, fun ⟨m, _, hm⟩ => absurd ?_ hu⟩
      rw [some.inj hm]

lemma mutex_step (hm : (r.state n).mutex = some u) :
    (r.state (n + 1)).mutex = some u ∨ (r.state (n + 1)).mutex = none := by
  cases hmove : r.move n with
  | none =>
    rw [r.idles n hmove]
    exact .inl hm
  | some move => exact (steps_of_step (r.steps n move.1 move.2 hmove)).mutex hm

lemma isOpen_step (hclosed : (r.state n).isOpen = false) : (r.state (n + 1)).isOpen = false := by
  cases hmove : r.move n with
  | none => rwa [r.idles n hmove]
  | some move => exact (steps_of_step (r.steps n move.1 move.2 hmove)).isOpen hclosed

lemma returns_step (hin : ((r.state n).pc t).InRecv)
    (hawake : t ∉ (r.state n).waiters) (hout : ¬ ((r.state (n + 1)).pc t).InRecv) :
    (∃ answer, (r.state n).pc t = .unlocking (.received answer)) ∧
      (r.state (n + 1)).pc t = .idle := by
  cases hmove : r.move n with
  | none =>
    rw [r.idles n hmove] at hout
    exact absurd hin hout
  | some move =>
    have hstep := steps_of_step (r.steps n move.1 move.2 hmove)
    by_cases ht : t = move.1
    · subst ht
      exact hstep.returns hin hout
    · rw [hstep.others ht hawake] at hout
      exact absurd hin hout

lemma waiters_closed (quiet : r.Quiet) (n : Nat) (hclosed : (r.state n).isOpen = false) :
    (r.state n).waiters = [] := by
  induction n with
  | zero =>
    rw [r.start]
    rfl
  | succ n ih =>
    cases hmove : r.move n with
    | none =>
      rw [r.idles n hmove] at hclosed ⊢
      exact ih hclosed
    | some move =>
      refine (steps_of_step (r.steps n move.1 move.2 hmove)).waiters ih (fun hpc hgo => ?_) hclosed
      exact quiet n move.1 hpc (by rw [hmove, ← hgo])

lemma rank_pos_of_holding {pc : Pc V} (h : pc.Holding) : 0 < pc.rank := by
  cases pc with
  | pushing v | testing | taking | closing | unlocking leave => exact Nat.succ_pos _
  | idle | locking c | waiting | woken | signalling => exact h.elim

lemma rank_pos_of_inRecv {pc : Pc V} (h : pc.InRecv) (hawake : pc ≠ .waiting) : 0 < pc.rank := by
  cases pc with
  | locking c | testing | woken | taking | closing | unlocking leave | pushing v =>
    exact Nat.succ_pos _
  | waiting => exact absurd rfl hawake
  | _ => exact h.elim

lemma mutex_freed (fair : r.Fair) {start : Nat} (hm : (r.state start).mutex = some u) :
    ∃ n, start ≤ n ∧ (r.state n).mutex = none := by
  have holding {n : Nat} (hn : (r.state n).mutex = some u) : ((r.state n).pc u).Holding :=
    ((r.placed n).holder u).mpr hn
  have rank {n : Nat} (hn : (r.state n).mutex = some u) :=
    r.rank_step (rank_pos_of_holding (holding hn)) ((r.placed n).not_waiter (holding hn))
  obtain ⟨n, hn, hbefore, hafter⟩ := (fair u).leaves (fun n => (r.state n).mutex = some u)
    (fun n => ((r.state n).pc u).rank)
    (fun always from' => by
      have hin := holding (always (max start from') (le_max_left ..))
      exact ⟨_, le_max_right .., enabled_of_rank (rank_pos_of_holding hin) (.inl hin)⟩)
    (fun n hp _ => (rank hp).1) (fun n hp hoccurs _ => (rank hp).2 hoccurs) hm
  exact ⟨n + 1, by omega, (r.mutex_step (hbefore n hn .refl)).resolve_left hafter⟩

lemma mutex_free_again (fair : r.Fair) (start : Nat) :
    ∃ n, start ≤ n ∧ (r.state n).mutex = none := by
  cases hm : (r.state start).mutex with
  | none => exact ⟨start, .refl, hm⟩
  | some u => exact r.mutex_freed fair hm

lemma returns_of_closed (fair : r.Fair) (quiet : r.Quiet) {start : Nat}
    (hclosed : (r.state start).isOpen = false) (hin : ((r.state start).pc t).InRecv) :
    r.Returns t start := by
  have awake {n : Nat} (hn : (r.state n).isOpen = false) : t ∉ (r.state n).waiters := by
    rw [r.waiters_closed quiet n hn]
    exact not_mem_nil
  have pos {n : Nat} (hn : (r.state n).isOpen = false ∧ ((r.state n).pc t).InRecv) :
      0 < ((r.state n).pc t).rank :=
    rank_pos_of_inRecv hn.2 fun hw => awake hn.1 (((r.placed n).waits t).mp hw)
  have rank {n : Nat} (hn : (r.state n).isOpen = false ∧ ((r.state n).pc t).InRecv) :=
    r.rank_step (pos hn) (awake hn.1)
  obtain ⟨n, hn, hbefore, hafter⟩ := (fair t).leaves
    (fun n => (r.state n).isOpen = false ∧ ((r.state n).pc t).InRecv)
    (fun n => ((r.state n).pc t).rank)
    (fun always from' => by
      obtain ⟨n, hn, hfree⟩ := r.mutex_free_again fair (max start from')
      exact ⟨n, (le_max_right ..).trans hn,
        enabled_of_rank (pos (always n ((le_max_left ..).trans hn))) (.inr hfree)⟩)
    (fun n hp _ => (rank hp).1) (fun n hp hoccurs _ => (rank hp).2 hoccurs) ⟨hclosed, hin⟩
  have hlast := hbefore n hn .refl
  have hout : ¬ ((r.state (n + 1)).pc t).InRecv := fun h => hafter ⟨r.isOpen_step hlast.1, h⟩
  exact ⟨n, hn, fun k hk hkn => (hbefore k hk hkn).2, r.returns_step hlast.2 (awake hlast.1) hout⟩

end Run

/-- The values received are the first of those sent, in their order, a receiver gets `None` only
when nothing is left in a closed channel, and a receiver of a closed channel returns, if nobody
was asleep when it was closed. -/
theorem channel_delivers (r : Run V) :
    (∀ n, receipts (r.state n).history <+: sends (r.state n).history ∧ NoneOk (r.state n).history) ∧
      (r.Fair → r.Quiet → ∀ n t, (r.state n).isOpen = false → ((r.state n).pc t).InRecv →
        r.Returns t n) :=
  ⟨fun n => ⟨r.receipts_first n, (r.logged n).none⟩,
    fun fair quiet _ _ hclosed hin => r.returns_of_closed fair quiet hclosed hin⟩

section Finite

lemma interleave_append (before after : List (Nat × Move V)) (s : Channel V) :
    interleave (before ++ after) s = (interleave before s).bind (interleave after) := by
  induction before generalizing s with
  | nil => rfl
  | cons m before ih =>
    rw [cons_append, interleave, interleave, bind_assoc]
    exact bind_congr fun s' _ => ih s'

def stateAt (moves : List (Nat × Move V)) (n : Nat) : Channel V :=
  (interleave (moves.take n) .new).getD .new

variable {moves : List (Nat × Move V)}

lemma interleave_take (h : (interleave moves .new).isSome) (n : Nat) :
    interleave (moves.take n) .new = some (stateAt moves n) := by
  rw [← take_append_drop n moves, interleave_append] at h
  rw [stateAt]
  cases hs : interleave (moves.take n) .new with
  | none =>
    rw [hs] at h
    cases h
  | some s => rfl

lemma stateAt_of_length_le (hn : moves.length ≤ n) :
    stateAt moves n = stateAt moves moves.length := by
  rw [stateAt, stateAt, take_of_length_le hn, take_length]

def Run.ofMoves (moves : List (Nat × Move V)) (h : (interleave moves .new).isSome) : Run V where
  state := stateAt moves
  move n := moves[n]?
  start := rfl
  idles n hn := by
    have hlen : moves.length ≤ n := getElem?_eq_none_iff.mp hn
    rw [stateAt_of_length_le (Nat.le_succ_of_le hlen), stateAt_of_length_le hlen]
  steps n t m hm := by
    have hnext := interleave_take h (n + 1)
    rw [take_add_one, hm, interleave_append, interleave_take h n] at hnext
    simpa [interleave] using hnext

lemma Run.fair_ofMoves (h : (interleave moves .new).isSome)
    (stuck : ∀ t, ¬ Enabled (stateAt moves moves.length) t) : (Run.ofMoves moves h).Fair := by
  intro t able
  obtain ⟨n, hn, henabled⟩ := able moves.length
  change Enabled (stateAt moves n) t at henabled
  rw [stateAt_of_length_le hn] at henabled
  exact absurd henabled (stuck t)

lemma not_enabled {s : Channel V} {t : Nat} (h : s.pc t = .idle ∨ s.pc t = .waiting) :
    ¬ Enabled s t := by
  rintro ⟨move, hown, hsome⟩
  obtain ⟨s', hstep⟩ := isSome_iff_exists.mp hsome
  cases steps_of_step hstep with
  | call | wakeUp => exact hown
  | lock c hat | push v hat | wait hat | leaveLoop hat | relock hat | take hat | close hat
  | unlock leave hat | signalNone i hat | signal i w hat =>
    rw [hat] at h
    rcases h with h | h <;> cases h

end Finite

/-- `send(7)`, `close()` and `recv()`, one after the other. -/
def sendCloseRecv : List (Nat × Move Nat) :=
  [(1, .call (.send 7)), (1, .go), (1, .go), (1, .go), (1, .signal 0),
    (1, .call .close), (1, .go), (1, .go), (1, .go),
    (0, .call .recv), (0, .go), (0, .go), (0, .go), (0, .go)]

theorem channel_delivers_sent : ∃ r : Run Nat, r.Fair ∧ r.Quiet ∧ (r.state 10).isOpen = false ∧
    ((r.state 10).pc 0).InRecv ∧ r.Returns 0 10 := by
  have hsome : (interleave sendCloseRecv .new).isSome := by decide
  have hfair : (Run.ofMoves sendCloseRecv hsome).Fair :=
    Run.fair_ofMoves hsome fun t => not_enabled (.inl (by
      match t with
      | 0 | 1 => rfl
      | t + 2 => rfl))
  have hquiet : (Run.ofMoves sendCloseRecv hsome).Quiet := by
    intro n t _ _
    change (stateAt sendCloseRecv n).waiters = []
    rcases Nat.lt_or_ge n sendCloseRecv.length with hlt | hge
    · exact (by decide : ∀ n < sendCloseRecv.length, (stateAt sendCloseRecv n).waiters = []) n hlt
    · rw [stateAt_of_length_le hge]
      rfl
  exact ⟨_, hfair, hquiet, rfl, trivial,
    (channel_delivers (Run.ofMoves sendCloseRecv hsome)).2 hfair hquiet 10 0 rfl trivial⟩

/-- A receiver goes to sleep, and another thread closes the channel. -/
def recvClose : List (Nat × Move Nat) :=
  [(0, .call .recv), (0, .go), (0, .go), (1, .call .close), (1, .go), (1, .go), (1, .go)]

/-- The receiver that was asleep sleeps for ever. -/
theorem close_leaves_asleep : ∃ r : Run Nat, r.Fair ∧ (r.state 7).isOpen = false ∧
    ((r.state 7).pc 0).InRecv ∧ ¬ r.Returns 0 7 := by
  have hsome : (interleave recvClose .new).isSome := by decide
  have hfair : (Run.ofMoves recvClose hsome).Fair :=
    Run.fair_ofMoves hsome fun t => not_enabled (by
      match t with
      | 0 => exact .inr rfl
      | 1 => exact .inl rfl
      | t + 2 => exact .inl rfl)
  refine ⟨Run.ofMoves recvClose hsome, hfair, rfl, trivial, fun ⟨m, hm, _, _, hidle⟩ => ?_⟩
  change (stateAt recvClose (m + 1)).pc 0 = .idle at hidle
  rw [stateAt_of_length_le (Nat.le_succ_of_le hm)] at hidle
  cases hidle

end TyLang.Channels
