import TyLang.Queue.Refine

/-!
`Iter.tee` (`lib/prelude.ty`): generators that share one source. Each one has a queue. A generator
whose queue is empty pulls an item for all of them. Calls of `__next__` may come in any order.
-/
namespace TyLang.Prelude
open List Queue

variable {V : Type}

/-- The number of calls of the source, the queues, and which generators have returned. -/
structure Tee (V : Type) where
  pulls : Nat
  queues : List (Buffer V)
  finished : Nat → Bool

section Model

def tee (n : Nat) : Tee V := ⟨0, replicate n queueNew, fun _ => false⟩

variable (mem : Memory) (source : Nat → Option V)

def pushAll (x : V) (queues : List (Buffer V)) : Except Failure (List (Buffer V)) :=
  queues.mapM fun q => do
    let (_, q) ← queuePush mem q [x]
    return q

def get (t : Tee V) : Except Failure (Bool × Tee V) :=
  match source t.pulls with
  | some x => do
    let queues ← pushAll mem x t.queues
    return (true, { t with pulls := t.pulls + 1, queues := queues })
  | none => .ok (false, { t with pulls := t.pulls + 1 })

/-- `go` up to the next `yield` or `return`, in a number of rounds. -/
def go (i : Nat) : Nat → Tee V → Except Failure (Option (Option V × Tee V))
  | 0, _ => .ok none
  | rounds + 1, t =>
    match t.queues[i]? with
    | none => .ok none
    | some q => do
      let (popped, q) ← queueTryPop q []
      let t := { t with queues := t.queues.set i q }
      match popped with
      | .some x => return some (some x, t)
      | _ =>
        let (more, t) ← get mem source t
        if more then go i rounds t
        else return some (none, { t with finished := Function.update t.finished i true })

/-- A generator that has returned yields `None` for ever. -/
def next (rounds : Nat) (t : Tee V) (i : Nat) : Except Failure (Option (Option V × Tee V)) :=
  if t.finished i then .ok (some (none, t)) else go mem source i rounds t

/-- What the calls return, with the generators. -/
abbrev Log (V : Type) := List (Nat × Option V)

def runTee (rounds : Nat) : List Nat → Tee V → Except Failure (Option (Log V × Tee V))
  | [], t => .ok (some ([], t))
  | i :: calls, t => do
    match ← next mem source rounds t i with
    | none => return none
    | some (r, t) =>
      match ← runTee rounds calls t with
      | none => return none
      | some (log, t) => return some ((i, r) :: log, t)

end Model

/-! ### Results of calls -/

def resultsOf (i : Nat) (log : Log V) : List (Option V) := (log.filter (·.1 = i)).map (·.2)

def nones (log : Log V) : Nat := log.countP (·.2.isNone)

variable {log : Log V} {i j : Nat} {r : Option V}

lemma resultsOf_concat_self : resultsOf i (log ++ [(i, r)]) = resultsOf i log ++ [r] := by
  simp [resultsOf]

lemma resultsOf_concat_of_ne (h : j ≠ i) : resultsOf j (log ++ [(i, r)]) = resultsOf j log := by
  simp [resultsOf, h.symm]

lemma nones_concat : nones (log ++ [(i, r)]) = nones log + if r = none then 1 else 0 := by
  cases r <;> simp [nones]

/-! ### Lists of queues -/

section Lists

variable {A B : Type} {R : A → B → Prop} {as : List A} {bs : List B} {a : A} {b : B}

lemma exists_of_forall₂ (h : List.Forall₂ R as bs) (hb : bs[i]? = some b) :
    ∃ a, as[i]? = some a ∧ R a b := by
  induction h generalizing i with
  | nil => simp at hb
  | cons hab h ih =>
    cases i with
    | zero =>
      cases hb
      exact ⟨_, rfl, hab⟩
    | succ i => exact ih hb

lemma forall₂_set (h : List.Forall₂ R as bs) (hab : R a b) (i : Nat) :
    List.Forall₂ R (as.set i a) (bs.set i b) := by
  induction h generalizing i with
  | nil => exact .nil
  | cons hab' h ih =>
    cases i with
    | zero => exact .cons hab h
    | succ i => exact .cons hab' (ih i)

end Lists

variable {mem : Memory} {limit : Nat} {x : V} {queues : List (Buffer V)}

lemma pushAll_does {xss : List (List V)}
    (h : List.Forall₂ Represents queues xss)
    (hlimit : ∀ xs ∈ xss, limitFor (xs.length + 1) ≤ limit) :
    Does mem limit (pushAll mem x queues)
      fun queues' => List.Forall₂ Represents queues' (xss.map (· ++ [x])) := by
  induction h with
  | nil => exact Does.ok .nil
  | @cons q xs queues xss hq h ih =>
    rw [forall_mem_cons] at hlimit
    rw [pushAll, mapM_cons]
    have hpush : Does mem limit (queuePush mem q [x]) (Agrees (callList .push [x] xs)) :=
      call_does hq .push [x] hlimit.1
    refine Does.bind (hpush.bind fun r hr =>
      Does.ok (P := fun q' => Represents q' (xs ++ [x])) hr.2)
      fun q' hq' => ?_
    exact (ih hlimit.2).bind fun queues' hqueues => Does.ok (.cons hq' hqueues)

/-! ### Runs -/

/-- The items that were pulled, and how many of them each generator has yielded. -/
structure Inv (source : Nat → Option V) (taken : List V) (ks : List Nat) (log : Log V) (t : Tee V) :
    Prop where
  source_eq : taken.map some = (List.range taken.length).map source
  queues : List.Forall₂ Represents t.queues (ks.map fun k => taken.drop k)
  results : ∀ i k, ks[i]? = some k → k ≤ taken.length ∧ ∃ m,
    resultsOf i log = (taken.take k).map some ++ replicate m none ∧
    (t.finished i = false → m = 0) ∧
    (t.finished i → k = taken.length ∧ source taken.length = none)
  le_pulls : taken.length ≤ t.pulls
  pulls_le : t.pulls ≤ taken.length + nones log
  exhausted : taken.length < t.pulls → source taken.length = none

variable {source : Nat → Option V} {taken : List V} {ks : List Nat} {t : Tee V} {k : Nat}

lemma inv_tee (source : Nat → Option V) (n : Nat) :
    Inv source [] (replicate n 0) [] (tee n) where
  source_eq := rfl
  queues := by
    induction n with
    | zero => exact .nil
    | succ n ih => exact .cons represents_new ih
  results i k hk := by
    obtain rfl := (mem_replicate.mp (mem_of_getElem? hk)).2
    exact ⟨.refl, 0, rfl, fun _ => rfl, nofun⟩
  le_pulls := Nat.le_refl 0
  pulls_le := Nat.le_refl 0
  exhausted := nofun

section
variable (h : Inv source taken ks log t)
include h

/-- One generator yields the next item. -/
lemma Inv.yielded (hk : ks[i]? = some k)
    (hopen : t.finished i = false) (hx : taken[k]? = some x) {q : Buffer V}
    (hq : Represents q (taken.drop (k + 1))) :
    Inv source taken (ks.set i (k + 1)) (log ++ [(i, some x)])
      { t with queues := t.queues.set i q } where
  source_eq := h.source_eq
  queues := by
    rw [map_set]
    exact forall₂_set h.queues hq i
  results j l hl := by
    by_cases hj : j = i
    · subst hj
      obtain ⟨hlt, -⟩ := List.getElem?_eq_some_iff.mp hk
      obtain ⟨-, m, hres, hm, -⟩ := h.results j k hk
      rw [getElem?_set_self hlt] at hl
      cases hl
      obtain ⟨hkx, -⟩ := List.getElem?_eq_some_iff.mp hx
      refine ⟨hkx, 0, ?_, fun _ => rfl, fun hfin => by rw [hopen] at hfin; cases hfin⟩
      rw [resultsOf_concat_self, hres, hm hopen, take_add_one, hx]
      simp
    · rw [getElem?_set_ne (Ne.symm hj)] at hl
      rw [resultsOf_concat_of_ne hj]
      exact h.results j l hl
  le_pulls := h.le_pulls
  pulls_le := by
    rw [nones_concat]
    exact h.pulls_le
  exhausted := h.exhausted

/-- One generator finds that there are no more items, or has found it before. -/
lemma Inv.returned (hk : ks[i]? = some taken.length)
    (hnone : source taken.length = none) {pulls : Nat} (hle : t.pulls ≤ pulls)
    (hle' : pulls ≤ t.pulls + 1) :
    Inv source taken ks (log ++ [(i, none)])
      { t with pulls := pulls, finished := Function.update t.finished i true } where
  source_eq := h.source_eq
  queues := h.queues
  results j l hl := by
    obtain ⟨hl', m, hres, hm, hfin⟩ := h.results j l hl
    by_cases hj : j = i
    · subst hj
      rw [hk] at hl
      cases hl
      refine ⟨hl', m + 1, ?_, by simp, fun _ => ⟨rfl, hnone⟩⟩
      rw [resultsOf_concat_self, hres, append_assoc, ← replicate_succ']
    · dsimp only
      rw [resultsOf_concat_of_ne hj, Function.update_of_ne hj]
      exact ⟨hl', m, hres, hm, hfin⟩
  le_pulls := Nat.le_trans h.le_pulls hle
  pulls_le := by
    rw [nones_concat, if_pos rfl]
    exact Nat.le_trans hle' (Nat.succ_le_succ h.pulls_le)
  exhausted _ := hnone

/-- One more item is pulled. -/
lemma Inv.pulled (hx : source t.pulls = some x) (hpulls : t.pulls = taken.length)
    (hqueues : List.Forall₂ Represents queues ((ks.map fun k => taken.drop k).map (· ++ [x]))) :
    Inv source (taken ++ [x]) ks log { t with pulls := t.pulls + 1, queues := queues } where
  source_eq := by
    rw [map_append, h.source_eq, length_append, length_singleton, range_succ, map_append, ← hpulls]
    simp [hx]
  queues := by
    rw [map_map] at hqueues
    have hdrop : ks.map ((· ++ [x]) ∘ fun k => taken.drop k) =
        ks.map fun k => (taken ++ [x]).drop k := by
      refine map_congr_left fun k hk => ?_
      obtain ⟨j, hj⟩ := mem_iff_getElem?.mp hk
      exact (drop_append_of_le_length (h.results j k hj).1).symm
    rwa [hdrop] at hqueues
  results j l hl := by
    obtain ⟨hle, m, hres, hm, hfin⟩ := h.results j l hl
    refine ⟨by rw [length_append]; omega, m, ?_, hm, fun hf => ?_⟩
    · rwa [take_append_of_le_length hle]
    · have hnone := (hfin hf).2
      rw [← hpulls, hx] at hnone
      cases hnone
  le_pulls := by simp [hpulls]
  pulls_le := by
    simp [hpulls]
  exhausted hlt := by
    simp [hpulls] at hlt

lemma Inv.pulls_eq
    (hsource : ∀ k, source k = none → source (k + 1) = none) (hx : source t.pulls = some x) :
    t.pulls = taken.length := by
  by_contra hne
  have hnone := h.exhausted (by have := h.le_pulls; omega)
  have hlater : ∀ d, source (taken.length + d) = none := by
    intro d
    induction d with
    | zero => exact hnone
    | succ d ih => exact hsource _ ih
  have hpull := hlater (t.pulls - taken.length)
  rw [Nat.add_sub_cancel' h.le_pulls, hx] at hpull
  cases hpull

end

variable (mem) in
lemma Inv.tryPop (h : Inv source taken ks log t) (hk : ks[i]? = some k)
    (hlimit : limitFor taken.length ≤ limit) : ∃ q, t.queues[i]? = some q ∧
      Does mem limit (queueTryPop q []) fun out =>
        out.1 = (taken[k]?.map Result.some).getD .none ∧ Represents out.2 (taken.drop (k + 1)) := by
  obtain ⟨q, hq, hrep⟩ := exists_of_forall₂ (i := i) h.queues (by rw [getElem?_map, hk]; rfl)
  have hle : limitFor ((taken.drop k).length + 0) ≤ limit := by
    refine Nat.le_trans (limitFor_mono ?_) hlimit
    rw [length_drop]
    omega
  have hpop : Does mem limit (queueTryPop q []) (Agrees (callList .tryPop [] (taken.drop k))) :=
    call_does hrep .tryPop [] hle
  refine ⟨q, hq, hpop.imp (fun ⟨out, hout, hr, hq'⟩ => ⟨out, hout, ?_, ?_⟩) id⟩
  · rwa [← head?_drop]
  · rwa [← tail_drop]

variable (mem) in
/-- A generator with an item in its queue yields it. -/
lemma Inv.go_some (h : Inv source taken ks log t) (hk : ks[i]? = some k)
    (hopen : t.finished i = false) (hx : taken[k]? = some x)
    (hlimit : limitFor taken.length ≤ limit) (rounds : Nat) :
    Does mem limit (go mem source i (rounds + 1) t) fun out => ∃ t',
      out = some (some x, t') ∧ Inv source taken (ks.set i (k + 1)) (log ++ [(i, some x)]) t' := by
  obtain ⟨q, hq, hpop⟩ := h.tryPop mem hk hlimit
  rw [go, hq]
  refine hpop.bind fun ⟨popped, q'⟩ ⟨hr, hq'⟩ => ?_
  rw [hx] at hr
  subst hr
  exact Does.ok ⟨_, rfl, h.yielded hk hopen hx hq'⟩

section
variable (h : Inv source taken ks log t)
include h

section
variable (hsource : ∀ k, source k = none → source (k + 1) = none)
include hsource

/-- A generator with an empty queue pulls an item, or returns because there are no more. -/
lemma Inv.go_none (hk : ks[i]? = some taken.length)
    (hopen : t.finished i = false) (hlimit : limitFor (taken.length + 1) ≤ limit) (rounds : Nat) :
    Does mem limit (go mem source i (rounds + 2) t) fun out => ∃ r t' taken' ks',
      out = some (r, t') ∧ Inv source taken' ks' (log ++ [(i, r)]) t' ∧ ks'.length = ks.length ∧
      (taken'.length ∈ ks' ∨ taken' = taken ∧ ks' = ks) ∧ taken'.length ≤ taken.length + 1 := by
  have hle : limitFor taken.length ≤ limit := Nat.le_trans (limitFor_mono (Nat.le_succ _)) hlimit
  obtain ⟨q, hq, hpop⟩ := h.tryPop mem hk hle
  rw [go, hq]
  refine hpop.bind fun ⟨popped, q'⟩ ⟨hr, hq'⟩ => ?_
  rw [getElem?_eq_none .refl] at hr
  subst hr
  -- the queue stays empty
  have h1 : Inv source taken ks log { t with queues := t.queues.set i q' } := by
    refine { h with queues := ?_ }
    obtain ⟨hi, hki⟩ := List.getElem?_eq_some_iff.mp hk
    have hset := forall₂_set h.queues hq' i
    rwa [drop_eq_nil_of_le (Nat.le_succ _), ← drop_length, ← hki, ← map_set,
      set_getElem_self] at hset
  dsimp only
  rw [get]
  cases hs : source t.pulls with
  | none =>
    have hnone : source taken.length = none := by
      rcases Nat.lt_or_eq_of_le h.le_pulls with hlt | heq
      · exact h.exhausted hlt
      · rw [heq, hs]
    exact Does.ok ⟨none, _, taken, ks, rfl, h1.returned hk hnone (Nat.le_succ _) .refl, rfl,
      .inr ⟨rfl, rfl⟩, Nat.le_succ _⟩
  | some x =>
    have hpulls := h.pulls_eq hsource hs
    have hpush : Does mem limit (pushAll mem x (t.queues.set i q')) _ := pushAll_does h1.queues (by
      intro xs hxs
      obtain ⟨k, -, rfl⟩ := mem_map.mp hxs
      refine Nat.le_trans (limitFor_mono ?_) hlimit
      rw [length_drop]
      omega)
    refine Does.bind (hpush.bind fun queues hqueues => Does.ok (P := fun out : Bool × Tee V =>
      out.1 ∧ Inv source (taken ++ [x]) ks log out.2 ∧ out.2.finished i = false)
      ⟨rfl, h1.pulled hs hpulls hqueues, hopen⟩) ?_
    rintro ⟨more, t'⟩ ⟨rfl, h', hopen'⟩
    have hlen : (taken ++ [x]).length = taken.length + 1 := length_append
    have hgo := h'.go_some mem hk hopen' getElem?_concat_length (hlen ▸ hlimit) rounds
    refine hgo.imp (fun ⟨out, hout, t'', heq, hinv⟩ => ⟨out, hout, some x, t'', _, _, heq, hinv,
      length_set .., .inl ?_, Nat.le_of_eq hlen⟩) id
    obtain ⟨hi, -⟩ := List.getElem?_eq_some_iff.mp hk
    rw [hlen]
    exact mem_set hi _

/-- What a call does: the generator yields the next item, or returns because there are no more. -/
lemma Inv.next_does (hi : i < ks.length)
    (hlead : taken.length ∈ ks) (hlimit : limitFor (taken.length + 1) ≤ limit) (rounds : Nat) :
    Does mem limit (next mem source (rounds + 2) t i) fun out => ∃ r t' taken' ks',
      out = some (r, t') ∧ Inv source taken' ks' (log ++ [(i, r)]) t' ∧ ks'.length = ks.length ∧
      taken'.length ∈ ks' ∧ taken'.length ≤ taken.length + 1 := by
  have hk := getElem?_eq_getElem hi
  generalize ks[i] = k at hk
  obtain ⟨hle, -, -, -, hfin⟩ := h.results i k hk
  rw [next]
  split
  · next hfinished =>
    obtain ⟨rfl, hnone⟩ := hfin hfinished
    have hagain := h.returned hk hnone .refl (Nat.le_succ _)
    rw [← hfinished, Function.update_eq_self] at hagain
    exact Does.ok ⟨none, t, taken, ks, rfl, hagain, rfl, hlead, Nat.le_succ _⟩
  · next hopen =>
    have hopen := Bool.eq_false_iff.mpr hopen
    rcases Nat.lt_or_eq_of_le hle with hlt | rfl
    · have hlimit := Nat.le_trans (limitFor_mono (Nat.le_succ _)) hlimit
      have hgo := h.go_some mem hk hopen (getElem?_eq_getElem hlt) hlimit (rounds + 1)
      refine hgo.imp (fun ⟨out, hout, t', heq, hinv⟩ => ⟨out, hout, _, t', _, _, heq, hinv,
        length_set .., ?_, Nat.le_succ _⟩) id
      -- the generator that leads is another one
      obtain ⟨j, hj⟩ := mem_iff_getElem?.mp hlead
      have hne : i ≠ j := by
        rintro rfl
        rw [hk, Option.some.injEq] at hj
        omega
      rw [← getElem?_set_ne hne] at hj
      exact mem_of_getElem? hj
    · refine (h.go_none hsource hk hopen hlimit rounds).imp ?_ id
      rintro ⟨out, hout, r, t', taken', ks', heq, hinv, hlen, hmem, hle⟩
      refine ⟨out, hout, r, t', taken', ks', heq, hinv, hlen, ?_, hle⟩
      rcases hmem with hmem | ⟨rfl, rfl⟩
      · exact hmem
      · exact hlead

lemma Inv.run_does (hlead : taken.length ∈ ks)
    {calls : List Nat} (hcalls : ∀ i ∈ calls, i < ks.length)
    (hlimit : limitFor (taken.length + calls.length) ≤ limit) (rounds : Nat) :
    Does mem limit (runTee mem source (rounds + 2) calls t) fun out => ∃ log' t' taken' ks',
      out = some (log', t') ∧ log'.map (·.1) = calls ∧ Inv source taken' ks' (log ++ log') t' ∧
      ks'.length = ks.length ∧ taken'.length ∈ ks' := by
  induction calls generalizing taken ks log t with
  | nil => exact Does.ok ⟨[], t, taken, ks, rfl, rfl, by rwa [append_nil], rfl, hlead⟩
  | cons i calls ih =>
    rw [forall_mem_cons] at hcalls
    rw [length_cons] at hlimit
    refine (h.next_does hsource hcalls.1 hlead (Nat.le_trans (limitFor_mono (by omega)) hlimit)
      rounds).bind ?_
    rintro _ ⟨r, t', taken', ks', rfl, h', hlen, hlead', hle⟩
    rw [← hlen] at hcalls
    refine Does.bind (ih h' hlead' hcalls.2 (Nat.le_trans (limitFor_mono (by omega)) hlimit)) ?_
    rintro _ ⟨log', t'', taken'', ks'', rfl, hlog, h'', hlen', hlead''⟩
    refine Does.ok ⟨(i, r) :: log', t'', taken'', ks'', rfl, by rw [map_cons, hlog], ?_,
      hlen'.trans hlen, hlead''⟩
    rwa [append_assoc, singleton_append] at h''

end

lemma Inv.take_eq (hk : k ≤ taken.length) :
    (taken.take k).map some = (List.range k).map source := by
  rw [map_take, h.source_eq, ← map_take, take_range, Nat.min_eq_left hk]

lemma Inv.source_ne_none (hj : j < taken.length) : source j ≠ none := by
  have heq := congrArg (·[j]?) h.source_eq
  simp only [getElem?_map, getElem?_range hj, getElem?_eq_getElem hj,
    Option.map_some, Option.some.injEq] at heq
  rw [← heq]
  exact nofun

end

/-- In every run each generator yields the items of the source in order, and then `None`. The source
is called at most once for each item of the generator that has most, and once for each `None`. -/
theorem tee_splits (mem : Memory) (source : Nat → Option V)
    (hsource : ∀ k, source k = none → source (k + 1) = none) (n : Nat) (hn : 1 ≤ n)
    (calls : List Nat) (hcalls : ∀ i ∈ calls, i < n) (rounds : Nat) (hrounds : 2 ≤ rounds) :
    (∃ log t, runTee mem source rounds calls (tee n) = .ok (some (log, t)) ∧ log.map (·.1) = calls ∧
      (∀ i < n, ∃ k m, resultsOf i log = (List.range k).map source ++ replicate m none ∧
        (∀ j < k, source j ≠ none) ∧ (0 < m → source k = none)) ∧
      ∃ i < n, t.pulls ≤ ((resultsOf i log).filter Option.isSome).length + nones log) ∨
    (runTee mem source rounds calls (tee n) = .error .outOfMemory ∧
      ∃ bytes ≤ limitFor calls.length, mem.grants (headerSize + bytes) = false) := by
  obtain ⟨rounds, rfl⟩ := Nat.exists_eq_add_of_le' hrounds
  have hlead : ([] : List V).length ∈ replicate n 0 := mem_replicate.mpr ⟨by omega, rfl⟩
  have hrun : Does mem _ (runTee mem source (rounds + 2) calls (tee n)) _ :=
    (inv_tee source n).run_does hsource hlead (by simpa using hcalls)
      (Nat.le_of_eq (congrArg limitFor (Nat.zero_add calls.length))) rounds
  refine hrun.imp ?_ id
  rintro ⟨_, hout, log, t, taken, ks, rfl, hlog, h, hlen, hlead⟩
  rw [nil_append] at h
  rw [length_replicate] at hlen
  refine ⟨log, t, hout, hlog, fun i hi => ?_, ?_⟩
  · have hk := getElem?_eq_getElem (show i < ks.length by omega)
    obtain ⟨hle, m, hres, hopen, hfin⟩ := h.results i _ hk
    refine ⟨_, m, by rw [hres, h.take_eq hle], fun j hj => h.source_ne_none (by omega),
      fun hm => ?_⟩
    cases hf : t.finished i with
    | false => exact absurd (hopen hf) (by omega)
    | true =>
      obtain ⟨heq, hnone⟩ := hfin hf
      rw [heq, hnone]
  · obtain ⟨i, hk⟩ := mem_iff_getElem?.mp hlead
    obtain ⟨-, m, hres, -⟩ := h.results i _ hk
    obtain ⟨hi, -⟩ := List.getElem?_eq_some_iff.mp hk
    refine ⟨i, by omega, ?_⟩
    have hfilter : ((resultsOf i log).filter Option.isSome).length = taken.length := by
      rw [hres, take_length]
      simp [filter_map]
    rw [hfilter]
    exact h.pulls_le

def twoItems (k : Nat) : Option Nat := [7, 8][k]?

theorem tee_splits_two : ∃ log t, runTee flatMemory twoItems 2 [1, 0, 1, 1] (tee 2) =
    .ok (some (log, t)) ∧ ∃ i < 2,
      t.pulls ≤ ((resultsOf i log).filter Option.isSome).length + nones log := by
  have hsource : ∀ k, twoItems k = none → twoItems (k + 1) = none := by
    simp only [twoItems, getElem?_eq_none_iff]
    omega
  rcases tee_splits flatMemory twoItems hsource 2 (by decide) [1, 0, 1, 1] (by decide) 2
    (by decide) with ⟨log, t, hrun, -, -, hpulls⟩ | ⟨herror, -⟩
  · exact ⟨log, t, hrun, hpulls⟩
  · have hok : (runTee flatMemory twoItems 2 [1, 0, 1, 1] (tee 2)).toOption.isSome := rfl
    rw [herror] at hok
    cases hok

example : (runTee flatMemory twoItems 2 [1, 0, 1, 1, 0, 0, 0] (tee 2)).toOption.bind
    (Option.map fun out => (out.1, out.2.pulls)) =
    some ([(1, some 7), (0, some 7), (1, some 8), (1, none), (0, some 8), (0, none),
      (0, none)], 4) :=
  rfl

end TyLang.Prelude
