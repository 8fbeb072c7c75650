import TyLang.Gc.Mark
import TyLang.Lib.Removal

/-!
How the storage of a value goes from the thread that sends it to the one that receives
it: `Forget` of `src/vm.c`, which `thread_send` calls, and `GCForget` and
`GCTakeOwnership` of `src/gc.c`.
-/
namespace TyLang.Gc
open List

open Marking (Repeats Reaches)

section Model

/-- What stands in front of an allocation, apart from its mark. -/
structure Headers where
  hard : Alloc → Nat
  size : Alloc → Nat

structure Thread where
  allocs : List Alloc
  memoryUsed : Nat

/-- The items of the list, also those behind its end. -/
structure Forgetting where
  items : List Alloc
  count : Nat
  marks : Marks
  used : Nat

variable (headers : Headers)

/-- One round of the loop of `GCForget`, and nothing once the end is reached. -/
def forgetRound (s : Forgetting) (i : Nat) : Forgetting :=
  if i < s.count then
    match s.items[i]?, s.items[s.count - 1]? with
    | some a, some last =>
      if s.marks a || headers.hard a != 0 then
        { items := (s.items.set i last).set (s.count - 1) a
          count := s.count - 1
          marks := Function.update s.marks a false
          used := s.used - min (headers.size a) s.used }
      else s
    | _, _ => s
  else s

def gcForget (thread : Thread) (marks : Marks) : Forgetting :=
  (List.range thread.allocs.length).foldl (forgetRound headers)
    ⟨thread.allocs, thread.allocs.length, marks, thread.memoryUsed⟩

structure Sent where
  sender : Thread
  as : List Alloc
  marks : Marks

variable (H : Heap)

/-- The result has the same two levels as that of the marking. -/
def forget (fuel : Nat) (v : Val) (thread : Thread) (as : List Alloc) : Option (Option Sent) :=
  (valueMark H fuel v).map fun result => result.map fun marks =>
    let s := gcForget headers thread marks
    ⟨⟨s.items.take s.count, s.used⟩, as ++ s.items.drop s.count, s.marks⟩

def threadSend (fuel : Nat) (v : Val) (thread : Thread) : Option (Option Sent) :=
  forget headers H fuel v thread []

def gcTakeOwnership (thread : Thread) (as : List Alloc) : Thread :=
  as.foldl (fun thread a => ⟨thread.allocs ++ [a], thread.memoryUsed + headers.size a⟩) thread

end Model

variable {a : Alloc}

section Rounds

variable {headers : Headers} {front rest behind : List Alloc} {marks : Marks} {used : Nat}

lemma forgetRounds_end (rounds : List Nat) (s : Forgetting) (h : ∀ i ∈ rounds, s.count ≤ i) :
    rounds.foldl (forgetRound headers) s = s := by
  induction rounds with
  | nil => rfl
  | cons i rounds ih =>
    rw [forall_mem_cons] at h
    rw [foldl_cons, forgetRound, if_neg (by omega)]
    exact ih h.2

/-- The allocations that a list of rounds takes out: those with a mark, and the pinned. -/
def taken (headers : Headers) (marks : Marks) (a : Alloc) : Bool := marks a || headers.hard a != 0

def between (front rest behind : List Alloc) (marks : Marks) (used : Nat) : Forgetting :=
  ⟨front ++ (rest ++ behind), front.length + rest.length, marks, used⟩

lemma forgetRound_keep (h : taken headers marks a = false) :
    forgetRound headers (between front (a :: rest) behind marks used) front.length =
      between (front ++ [a]) rest behind marks used := by
  have hsame : between front (a :: rest) behind marks used =
      between (front ++ [a]) rest behind marks used := by
    simp [between, Nat.add_comm, Nat.add_left_comm]
  rw [← hsame, between, forgetRound, if_pos (by simp)]
  split
  next b last hb hlast =>
    obtain rfl : a = b := by simpa using hb
    exact if_neg (by simpa [taken] using h)
  next => rfl

lemma forgetRound_last {front behind : List Alloc} (h : taken headers marks a) :
    forgetRound headers (between front [a] behind marks used) front.length =
      between front [] (a :: behind) (Function.update marks a false)
        (used - min (headers.size a) used) := by
  rw [taken] at h
  simp [forgetRound, between, h]

lemma swap_last (front rest behind : List Alloc) (a b : Alloc) :
    ((front ++ (a :: (rest ++ [b]) ++ behind)).set front.length b).set
      (front.length + (rest.length + 1)) a =
      front ++ [b] ++ (rest ++ a :: behind) := by
  simp only [append_assoc, set_append_right _ _ .refl, Nat.sub_self, cons_append,
    set_cons_zero, nil_append]
  rw [set_append_right _ _ (by omega), Nat.add_sub_cancel_left, set_cons_succ,
    set_append_right _ _ .refl, Nat.sub_self, set_cons_zero]

lemma forgetRound_swap {a b : Alloc} (h : taken headers marks a) :
    forgetRound headers (between front (a :: (rest ++ [b])) behind marks used) front.length =
      between (front ++ [b]) rest (a :: behind) (Function.update marks a false)
        (used - min (headers.size a) used) := by
  have hcount : front.length + (a :: (rest ++ [b])).length - 1 =
      front.length + (rest.length + 1) := by simp
  have hfirst : (front ++ (a :: (rest ++ [b]) ++ behind))[front.length]? = some a := by simp
  have hlast : (front ++ (a :: (rest ++ [b]) ++ behind))[front.length + (rest.length + 1)]? =
      some b := by
    simp
  rw [taken] at h
  rw [forgetRound, between, if_pos (by simp)]
  simp only [hcount, hfirst, hlast, h, if_true, swap_last]
  rw [between, length_append, length_singleton, Nat.add_assoc, Nat.add_comm 1]

lemma unmark_eq (marks : Marks) (a : Alloc) (removed : List Alloc) :
    (fun x => Function.update marks a false x && !removed.contains x) =
      fun x => marks x && !(removed ++ [a]).contains x := by
  funext x
  by_cases hx : x = a
  · simp [hx]
  · simp [hx]

lemma taken_unmark (marks : Marks) {a x : Alloc} (h : x ≠ a) :
    taken headers (Function.update marks a false) x = taken headers marks x := by
  rw [taken, Function.update_of_ne h, taken]

/-- What is left to look at is removed or kept, and nothing else is touched. The induction
is on the length, since both ends of the list move. -/
lemma forgetRounds (n k : Nat) (front rest behind : List Alloc) (marks : Marks) (used : Nat)
    (hn : rest.length ≤ n) (hk : rest.length ≤ k) (hnodup : rest.Nodup) :
    ∃ kept removed used', Removes (taken headers marks) rest kept removed ∧
      (List.range' front.length k).foldl (forgetRound headers)
        (between front rest behind marks used) =
        between (front ++ kept) [] (removed ++ behind)
          (fun a => marks a && !removed.contains a) used' := by
  induction n generalizing k front rest behind marks used with
  | zero =>
    obtain rfl := length_eq_zero_iff.mp (Nat.le_zero.mp hn)
    refine ⟨[], [], used, .nil, ?_⟩
    rw [forgetRounds_end _ _ fun i hi => by simpa [between] using (mem_range'_1.mp hi).1]
    simp
  | succ n ih =>
    cases rest with
    | nil => exact ih k front [] behind marks used (Nat.zero_le _) hk hnodup
    | cons a rest =>
      rw [length_cons] at hn hk
      rw [nodup_cons] at hnodup
      obtain _ | k := k
      · omega
      rw [range'_succ, foldl_cons]
      cases htaken : taken headers marks a with
      | false =>
        rw [forgetRound_keep htaken]
        obtain ⟨kept, removed, used', hremoves, hrun⟩ :=
          ih k (front ++ [a]) rest behind marks used (by omega) (by omega) hnodup.2
        refine ⟨a :: kept, removed, used', .keep htaken hremoves, ?_⟩
        simpa using hrun
      | true =>
        rcases eq_nil_or_concat rest with rfl | ⟨rest, b, rfl⟩
        · refine ⟨[], [a], used - min (headers.size a) used, .last htaken, ?_⟩
          rw [forgetRound_last htaken, forgetRounds_end _ _ fun i hi => ?_, append_nil,
            ← nil_append [a], ← unmark_eq]
          · simp
          · have hi := (mem_range'_1.mp hi).1
            simp only [between, length_nil]
            omega
        · rw [concat_eq_append] at hnodup hn hk ⊢
          rw [length_append, length_singleton] at hn hk
          rw [forgetRound_swap htaken]
          obtain ⟨kept, removed, used', hremoves, hrun⟩ := ih k (front ++ [b]) rest (a :: behind)
            (Function.update marks a false) (used - min (headers.size a) used) (by omega) (by omega)
            (nodup_append.mp hnodup.2).1
          have hold := hremoves.congr fun x hx => taken_unmark marks fun hxa =>
            hnodup.1 (hxa ▸ mem_append_left _ hx)
          refine ⟨b :: kept, removed ++ [a], used', .swap htaken hold, ?_⟩
          rw [← unmark_eq]
          simpa using hrun

lemma gcForget_removes (thread : Thread) (marks : Marks) (hnodup : thread.allocs.Nodup) :
    ∃ kept removed used', Removes (taken headers marks) thread.allocs kept removed ∧
      gcForget headers thread marks =
        ⟨kept ++ removed, kept.length, fun a => marks a && !removed.contains a, used'⟩ := by
  obtain ⟨kept, removed, used', hremoves, hrun⟩ := @forgetRounds headers
    thread.allocs.length thread.allocs.length [] thread.allocs [] marks thread.memoryUsed
    .refl .refl hnodup
  refine ⟨kept, removed, used', hremoves, ?_⟩
  rw [gcForget, range_eq_range']
  simpa [between] using hrun

lemma gcTakeOwnership_allocs (thread : Thread) (as : List Alloc) :
    (gcTakeOwnership headers thread as).allocs = thread.allocs ++ as := by
  induction as generalizing thread with
  | nil => exact (append_nil _).symm
  | cons a as ih => exact (ih _).trans (append_assoc thread.allocs [a] as)

end Rounds

section Transfer

/-- The allocation belongs to the storage of the value. -/
def Keeps (H : Heap) (v : Val) (a : Alloc) : Prop := ∃ w, Behind H v w ∧ a ∈ storage H w

/-- The lists of two threads, in which no allocation is twice. -/
structure Owners where
  sender : Thread
  receiver : Thread
  nodup : (sender.allocs ++ receiver.allocs).Nodup

/-- The storage of the value goes over from the sender to the receiver and nothing else
does, no allocation has two owners or none, and the marks are clear. -/
structure Transfers (H : Heap) (headers : Headers) (v : Val) (owners : Owners) (sent : Sent) :
    Prop where
  kept : ∀ a, a ∈ sent.sender.allocs ↔ a ∈ owners.sender.allocs ∧ ¬ Keeps H v a
  out : ∀ a, a ∈ sent.as ↔ a ∈ owners.sender.allocs ∧ Keeps H v a
  once : (sent.sender.allocs ++ sent.as).Nodup
  clear : ∀ a, sent.marks a = false
  gained : ∀ a, a ∈ (gcTakeOwnership headers owners.receiver sent.as).allocs ↔
    a ∈ owners.receiver.allocs ∨ a ∈ sent.as
  owned : (sent.sender.allocs ++ (gcTakeOwnership headers owners.receiver sent.as).allocs).Nodup

/-- What `Forget` relies on: the marking returns, finds what the sender has of the storage
and marks nothing else, and the loop of `GCForget` never takes an allocation with a mark
from the end of the list. -/
structure Sendable (H : Heap) (v : Val) (allocs : List Alloc) : Prop where
  returns : ∀ w, Reaches (actions H) v w →
    markFails H w = false ∧ ¬ Relation.TransGen (Repeats (actions H)) w w
  found : ∀ a ∈ allocs, Keeps H v a → Followed H v a
  listed : ∀ a, Followed H v a → a ∈ allocs
  apart : ∀ a ∈ allocs.drop (allocs.length + 1 - {a | Followed H v a}.ncard), ¬ Followed H v a

variable {H : Heap} {v : Val} {headers : Headers} {allocs : List Alloc} {marks : Marks}

lemma keeps_of_followed : Followed H v a → Keeps H v a
  | ⟨w, hw, ha⟩ => ⟨w, behind_of_reaches hw, mem_storage.mpr (.inl ha)⟩

lemma taken_iff (hhard : ∀ a ∈ allocs, headers.hard a = 0) (hmarks : ∀ a, marks a ↔ Followed H v a)
    (ha : a ∈ allocs) : taken headers marks a ↔ Followed H v a := by
  rw [← hmarks, taken, hhard a ha]
  simp

lemma ncard_followed (hnodup : allocs.Nodup) (hlisted : ∀ a, Followed H v a → a ∈ allocs)
    {p : Alloc → Bool} (hp : ∀ a ∈ allocs, p a ↔ Followed H v a) :
    {a | Followed H v a}.ncard = allocs.countP p := by
  have hset : {a | Followed H v a} = ((allocs.filter p).toFinset : Set Alloc) := by
    ext a
    simp only [Set.mem_ofPred_eq, coe_toFinset, mem_filter]
    exact ⟨fun h => ⟨hlisted a h, (hp a (hlisted a h)).mpr h⟩, fun h => (hp a h.1).mp h.2⟩
  rw [hset, Set.ncard_coe_finset, toFinset_card_of_nodup (hnodup.filter p), countP_eq_length_filter]

lemma kept_unfollowed_iff (hnodup : allocs.Nodup) (hlisted : ∀ a, Followed H v a → a ∈ allocs)
    {p : Alloc → Bool} (hp : ∀ a ∈ allocs, p a ↔ Followed H v a) {kept removed : List Alloc}
    (hremoves : Removes p allocs kept removed) :
    (∀ a ∈ kept, p a = false) ↔
      ∀ a ∈ allocs.drop (allocs.length + 1 - {a | Followed H v a}.ncard), ¬ Followed H v a := by
  rw [hremoves.kept_iff, ncard_followed hnodup hlisted hp]
  refine forall₂_congr fun a ha => ?_
  rw [← hp a (mem_of_mem_drop ha), Bool.not_eq_true]

lemma threadSend_eq (H : Heap) (headers : Headers) {fuel : Nat} (thread : Thread)
    (hnodup : thread.allocs.Nodup) (hrun : valueMark H fuel v = some (some marks)) :
    ∃ kept removed used, Removes (taken headers marks) thread.allocs kept removed ∧
      threadSend headers H fuel v thread =
        some (some ⟨⟨kept, used⟩, removed, fun a => marks a && !removed.contains a⟩) := by
  obtain ⟨kept, removed, used, hremoves, hforget⟩ := gcForget_removes thread marks hnodup
  refine ⟨kept, removed, used, hremoves, ?_⟩
  rw [threadSend, forget, hrun]
  simp [hforget]

lemma valueMark_of_threadSend {fuel : Nat} {thread : Thread} {sent : Sent}
    (h : threadSend headers H fuel v thread = some (some sent)) :
    ∃ marks, valueMark H fuel v = some (some marks) := by
  obtain ⟨result, hrun, hresult⟩ := Option.map_eq_some_iff.mp h
  obtain ⟨marks, rfl, -⟩ := Option.map_eq_some_iff.mp hresult
  exact ⟨marks, hrun⟩

section Removed

variable {owners : Owners} {kept removed : List Alloc} {used : Nat}

lemma sendable_of_transfers (hhard : ∀ a ∈ owners.sender.allocs, headers.hard a = 0)
    (hmarks : ∀ a, marks a ↔ Followed H v a)
    (hreturns : ∀ w, Reaches (actions H) v w →
      markFails H w = false ∧ ¬ Relation.TransGen (Repeats (actions H)) w w)
    (hremoves : Removes (taken headers marks) owners.sender.allocs kept removed)
    (h : Transfers H headers v owners ⟨⟨kept, used⟩, removed,
      fun a => marks a && !removed.contains a⟩) :
    Sendable H v owners.sender.allocs := by
  have htaken := fun a ha => taken_iff hhard hmarks (a := a) ha
  have hlisted : ∀ a, Followed H v a → a ∈ owners.sender.allocs := by
    intro a ha
    have hclear : (marks a && !removed.contains a) = false := h.clear a
    rw [(hmarks a).mpr ha, Bool.true_and, Bool.not_eq_false', contains_iff_mem] at hclear
    exact hremoves.perm.mem_iff.mpr (mem_append_right _ hclear)
  refine ⟨hreturns, fun a ha hkeeps => ?_, hlisted, ?_⟩
  · exact (htaken a ha).mp (hremoves.of_mem_removed ((h.out a).mpr ⟨ha, hkeeps⟩))
  · rw [← kept_unfollowed_iff (nodup_append.mp owners.nodup).1 hlisted htaken hremoves]
    intro a ha
    have hstay := (h.kept a).mp ha
    rw [← Bool.not_eq_true]
    exact fun hp => hstay.2 (keeps_of_followed ((htaken a hstay.1).mp hp))

lemma transfers_of_sendable (hhard : ∀ a ∈ owners.sender.allocs, headers.hard a = 0)
    (hmarks : ∀ a, marks a ↔ Followed H v a)
    (hremoves : Removes (taken headers marks) owners.sender.allocs kept removed)
    (h : Sendable H v owners.sender.allocs) :
    Transfers H headers v owners ⟨⟨kept, used⟩, removed,
      fun a => marks a && !removed.contains a⟩ := by
  have hnodup := (nodup_append.mp owners.nodup).1
  have htaken := fun a ha => taken_iff hhard hmarks (a := a) ha
  have hmem := fun a => hremoves.perm.mem_iff (a := a)
  have hkept := (kept_unfollowed_iff hnodup h.listed htaken hremoves).mpr h.apart
  have hgone : ∀ a ∈ removed, Keeps H v a := by
    intro a ha
    exact keeps_of_followed
      ((htaken a ((hmem a).mpr (mem_append_right _ ha))).mp (hremoves.of_mem_removed ha))
  have hstay : ∀ a ∈ kept, ¬ Keeps H v a := by
    intro a ha hkeeps
    have hin := (hmem a).mpr (mem_append_left _ ha)
    exact Bool.false_ne_true ((hkept a ha).symm.trans ((htaken a hin).mpr (h.found a hin hkeeps)))
  have hout : ∀ a ∈ owners.sender.allocs, Keeps H v a → a ∈ removed := by
    intro a ha hkeeps
    exact (mem_append.mp ((hmem a).mp ha)).resolve_left fun hin => hstay a hin hkeeps
  refine ⟨fun a => ⟨fun ha => ⟨?_, hstay a ha⟩, fun ha => ?_⟩,
    fun a => ⟨fun ha => ⟨?_, hgone a ha⟩, fun ha => hout a ha.1 ha.2⟩,
    hremoves.perm.nodup_iff.mp hnodup, fun a => ?_, fun a => ?_, ?_⟩
  · exact (hmem a).mpr (mem_append_left _ ha)
  · exact (mem_append.mp ((hmem a).mp ha.1)).resolve_right fun hin => ha.2 (hgone a hin)
  · exact (hmem a).mpr (mem_append_right _ ha)
  · change (marks a && !removed.contains a) = false
    cases hmark : marks a with
    | false => exact Bool.false_and _
    | true =>
      have hfollowed := (hmarks a).mp hmark
      have hin := hout a (h.listed a hfollowed) (keeps_of_followed hfollowed)
      rw [contains_iff_mem.mpr hin]
      rfl
  · rw [gcTakeOwnership_allocs, mem_append]
  · rw [gcTakeOwnership_allocs]
    have hperm : (kept ++ (owners.receiver.allocs ++ removed)).Perm
        (owners.sender.allocs ++ owners.receiver.allocs) :=
      calc (kept ++ (owners.receiver.allocs ++ removed)).Perm
            (kept ++ (removed ++ owners.receiver.allocs)) := perm_append_comm.append_left kept
        _ |>.Perm (kept ++ removed ++ owners.receiver.allocs) := by rw [append_assoc]
        _ |>.Perm (owners.sender.allocs ++ owners.receiver.allocs) :=
          hremoves.perm.symm.append_right _
    exact hperm.nodup_iff.mpr owners.nodup

end Removed

/-- For a list without pinned allocations, the storage of a value goes over exactly if the
value is sendable. -/
theorem threadSend_transfers_iff (H : FiniteHeap) (v : { v // v ∈ H.values }) (headers : Headers)
    (owners : Owners) (hhard : ∀ a ∈ owners.sender.allocs, headers.hard a = 0) :
    (∃ fuel sent, threadSend headers H.toHeap fuel v owners.sender = some (some sent) ∧
      Transfers H.toHeap headers v owners sent) ↔ Sendable H.toHeap v owners.sender.allocs := by
  have hnodup := (nodup_append.mp owners.nodup).1
  constructor
  · rintro ⟨fuel, sent, hsend, htransfers⟩
    obtain ⟨marks, hrun⟩ := valueMark_of_threadSend hsend
    obtain ⟨kept, removed, used, hremoves, heq⟩ :=
      threadSend_eq H.toHeap headers owners.sender hnodup hrun
    obtain rfl : _ = sent := Option.some.inj (Option.some.inj (heq.symm.trans hsend))
    exact sendable_of_transfers hhard (valueMark_marks hrun).1 (valueMark_marks hrun).2 hremoves
      htransfers
  · intro h
    obtain ⟨marks, hrun⟩ := valueMark_returns v.property h.returns
    obtain ⟨kept, removed, used, hremoves, heq⟩ :=
      threadSend_eq H.toHeap headers owners.sender hnodup hrun
    exact ⟨_, _, heq, transfers_of_sendable hhard (valueMark_marks hrun).1 hremoves h⟩

end Transfer

section Concrete

def twoStrings : Heap :=
  { emptyHeap with array := fun _ => [.string (some 0), .string (some 1)] }

def twoStringsFinite : FiniteHeap where
  toHeap := twoStrings
  values := [.array 0, .string (some 0), .string (some 1)]
  closed := by decide

def plainHeaders : Headers := ⟨fun _ => 0, fun _ => 16⟩

lemma reaches_array {w : Val} (h : Reaches (actions twoStrings) (.array 0) w) :
    w ∈ twoStringsFinite.values :=
  mem_values (H := twoStringsFinite) (by decide) h

lemma followed_array :
    Followed twoStrings (.array 0) a ↔ a ∈ [.array 0, .string 0, .string 1] := by
  constructor
  · rintro ⟨w, hw, act, hact, ha⟩
    have hsets : ∀ w ∈ twoStringsFinite.values, ∀ act ∈ actions twoStrings w,
        ∀ a ∈ act.sets, a ∈ [.array 0, .string 0, .string 1] := by decide
    exact hsets w (reaches_array hw) act hact a ha
  · have hstep : ∀ s ∈ [0, 1], Reaches (actions twoStrings) (.array 0) (.string (some s)) :=
      fun s hs => .single ⟨_, .head _, by revert s; decide⟩
    intro ha
    simp only [mem_cons, not_mem_nil, or_false] at ha
    rcases ha with rfl | rfl | rfl
    · exact ⟨_, .refl, _, .head _, .head _⟩
    · exact ⟨_, hstep 0 (by decide), _, .head _, .head _⟩
    · exact ⟨_, hstep 1 (by decide), _, .head _, .head _⟩

/-- What the sender has: the storage of the array, and two strings of its own. -/
def fiveAllocs : List Alloc := [.array 0, .string 0, .string 1, .string 2, .string 3]

lemma sendable_array : Sendable twoStrings (.array 0) fiveAllocs where
  returns w hw := by
    have hfine : ∀ w ∈ twoStringsFinite.values, markFails twoStrings w = false ∧
        ∀ act ∈ actions twoStrings w, act.guard = none → act.pushes = [] := by decide
    obtain ⟨hmark, hpushes⟩ := hfine w (reaches_array hw)
    refine ⟨hmark, fun hcycle => ?_⟩
    obtain ⟨u, ⟨act, hact, hguard, hin⟩, -⟩ := Relation.TransGen.head'_iff.mp hcycle
    rw [hpushes act hact hguard] at hin
    cases hin
  found a _ := by
    rintro ⟨w, hw, ha⟩
    have hall : ∀ w ∈ twoStringsFinite.values, unfollowed twoStrings w = [] ∧
        ∀ a ∈ storage twoStrings w, a ∈ [.array 0, .string 0, .string 1] := by decide
    rw [followed_array]
    rcases reaches_or_unfollowed hw with hw | ⟨u, hu, x, hx, -⟩
    · exact (hall w (reaches_array hw)).2 a ha
    · rw [(hall u (reaches_array hu)).1] at hx
      cases hx
  listed a ha := by
    rw [followed_array] at ha
    revert a
    decide
  apart := by
    have hset : {a | Followed twoStrings (.array 0) a} =
        (([.array 0, .string 0, .string 1] : List Alloc).toFinset : Set Alloc) := by
      ext a
      rw [coe_toFinset]
      exact followed_array
    rw [hset, Set.ncard_coe_finset]
    simp only [followed_array]
    decide

/-- The array goes with its two strings; the strings behind them stay. -/
theorem threadSend_transfers_array :
    ∃ fuel sent, threadSend plainHeaders twoStrings fuel (.array 0) ⟨fiveAllocs, 80⟩ =
        some (some sent) ∧
      Transfers twoStrings plainHeaders (.array 0) ⟨⟨fiveAllocs, 80⟩, ⟨[], 0⟩, by decide⟩ sent :=
  (threadSend_transfers_iff twoStringsFinite ⟨.array 0, by decide⟩ plainHeaders
    ⟨⟨fiveAllocs, 80⟩, ⟨[], 0⟩, by decide⟩ fun _ _ => rfl).mpr sendable_array

/-- The array comes first and is swapped with its first string, so the string stays with
the sender and keeps its mark. -/
theorem threadSend_skips :
    (threadSend plainHeaders twoStrings 4 (.array 0) ⟨[.array 0, .string 1, .string 0], 48⟩).map
      (fun result => result.map fun sent => (sent.sender.allocs, sent.as, sent.marks (.string 0))) =
        some (some ([.string 0], [.string 1, .array 0], true)) := by
  decide

end Concrete

end TyLang.Gc
