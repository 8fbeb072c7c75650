import TyLang.Operators.Dispatch

/-!
What the two levels of caches of the operators hold. An answer is always that of the
definitions at the time at which it was found. `op_add` empties the cache of the
group, so that one never gets stale; the answers that threads keep stay right as
long as no new definition changes one of them.
-/
namespace TyLang.Operators
open List Function

variable {sub : BitVec 32 → BitVec 32 → Bool} {s : State} {t1 t2 : BitVec 32} {op : Nat}

def State.defs (s : State) (op : Nat) : List OperatorSpec :=
  match s.groups[op]? with
  | none => []
  | some g => g.defs

/-- The thread keeps `ref` as the answer for an operator and two classes, or is about to. -/
def Thread.Recalls (t : Thread) (op : Nat) (t1 t2 : BitVec 32) (ref : Int) : Prop :=
  (∃ c, t.caches[op]? = some c ∧ ⟨keyFor t1 t2, ref⟩ ∈ c) ∨ t.pc = .store op t1 t2 ref

structure Fresh (sub : BitVec 32 → BitVec 32 → Bool) (s : State) : Prop where
  group : ∀ (op : Nat) (g : DispatchGroup), s.groups[op]? = some g → ∀ t1 t2 ref,
    ⟨keyFor t1 t2, ref⟩ ∈ g.cache → ref = checkSlow sub g.defs t1 t2
  thread : ∀ th op t1 t2 ref, (s.threads th).Recalls op t1 t2 ref →
    ref = checkSlow sub (s.defs op) t1 t2
  slow : ∀ th op t1 t2, (s.threads th).pc = .slow op t1 t2 → op < s.groups.length

lemma fresh_start : Fresh sub start := by
  refine ⟨?_, ?_, ?_⟩
  · intro op g hg
    cases hg
  · rintro th op t1 t2 ref (⟨c, hc, -⟩ | hpc)
    · cases hc
    · cases hpc
  · intro th op t1 t2 hpc
    cases hpc

lemma defs_of_getElem? {g : DispatchGroup} (h : s.groups[op]? = some g) : s.defs op = g.defs := by
  simp only [State.defs, h]

lemma Fresh.update (h : Fresh sub s) (th : Nat) (t : Thread)
    (hrecalls : ∀ op t1 t2 ref, t.Recalls op t1 t2 ref → ref = checkSlow sub (s.defs op) t1 t2)
    (hslow : ∀ op t1 t2, t.pc = .slow op t1 t2 → op < s.groups.length) :
    Fresh sub { s with threads := update s.threads th t } := by
  refine ⟨h.group, ?_, ?_⟩
  · intro th' op t1 t2 ref hrec
    by_cases hth : th' = th
    · subst hth
      change (Function.update s.threads th' t th').Recalls op t1 t2 ref at hrec
      rw [update_self] at hrec
      exact hrecalls op t1 t2 ref hrec
    · change (Function.update s.threads th t th').Recalls op t1 t2 ref at hrec
      rw [update_of_ne hth] at hrec
      exact h.thread th' op t1 t2 ref hrec
  · intro th' op t1 t2 hpc
    by_cases hth : th' = th
    · subst hth
      change (Function.update s.threads th' t th').pc = _ at hpc
      rw [update_self] at hpc
      exact hslow op t1 t2 hpc
    · change (Function.update s.threads th t th').pc = _ at hpc
      rw [update_of_ne hth] at hpc
      exact h.slow th' op t1 t2 hpc

lemma Fresh.setPc (h : Fresh sub s) (th : Nat) {pc : Pc}
    (hstore : ∀ op t1 t2 ref, pc = .store op t1 t2 ref → ref = checkSlow sub (s.defs op) t1 t2)
    (hslow : ∀ op t1 t2, pc = .slow op t1 t2 → op < s.groups.length) :
    Fresh sub (s.setPc th pc) := by
  apply h.update th _ _ hslow
  rintro op t1 t2 ref (hcached | hpc)
  · exact h.thread th op t1 t2 ref (.inl hcached)
  · exact hstore op t1 t2 ref hpc

lemma Fresh.setGroup (h : Fresh sub s) {g : DispatchGroup}
    (hg : s.groups[op]? = some g) (cache : List CacheEntry)
    (hcache : ∀ t1 t2 ref, ⟨keyFor t1 t2, ref⟩ ∈ cache → ref = checkSlow sub g.defs t1 t2) :
    Fresh sub { s with groups := s.groups.set op { g with cache := cache } } := by
  obtain ⟨hop, hgop⟩ := List.getElem?_eq_some_iff.mp hg
  have hget (op' : Nat) : (s.groups.set op { g with cache := cache })[op']? =
      if op = op' then some { g with cache := cache } else s.groups[op']? := by
    rw [getElem?_set, if_pos hop]
  have hdefs (op' : Nat) :
      State.defs { s with groups := s.groups.set op { g with cache := cache } } op' =
        s.defs op' := by
    simp only [State.defs, hget]
    by_cases heq : op = op'
    · subst heq
      rw [if_pos rfl, hg]
    · rw [if_neg heq]
  refine ⟨?_, ?_, ?_⟩
  · intro op' g' hg' t1 t2 ref hmem
    rw [hget] at hg'
    by_cases heq : op = op'
    · subst heq
      rw [if_pos rfl] at hg'
      cases hg'
      exact hcache t1 t2 ref hmem
    · rw [if_neg heq] at hg'
      exact h.group op' g' hg' t1 t2 ref hmem
  · intro th op' t1 t2 ref hrec
    rw [hdefs]
    exact h.thread th op' t1 t2 ref hrec
  · intro th op' t1 t2 hpc
    rw [length_set]
    exact h.slow th op' t1 t2 hpc

/-- An answer that is what the search of the current definitions finds. -/
def Answer.Current (sub : BitVec 32 → BitVec 32 → Bool) (s : State) (a : Answer) : Prop :=
  a.ref = checkSlow sub (s.defs a.op) a.t1 a.t2

/-- A step that succeeds, keeps the state fresh and answers from the current definitions. -/
def Sound (sub : BitVec 32 → BitVec 32 → Bool) (s : State)
    (r : Option (State × Option Answer)) : Prop :=
  ∃ s' a, r = some (s', a) ∧ Fresh sub s' ∧ ∀ b, a = some b → b.Current sub s

variable {s' : State}

lemma Fresh.sound_quiet (h : Fresh sub s') : Sound sub s (some (s', none)) :=
  ⟨s', none, rfl, h, fun _ hb => by cases hb⟩

lemma Fresh.sound_answer {b : Answer} (h : Fresh sub s') (hb : b.Current sub s) :
    Sound sub s (some (s', some b)) :=
  ⟨s', some b, rfl, h, fun _ hb' => by cases hb'; exact hb⟩

lemma Fresh.setPc_lookup (h : Fresh sub s) (th op : Nat) (t1 t2 : BitVec 32) :
    Fresh sub (s.setPc th (.lookup op t1 t2)) :=
  h.setPc th (fun _ _ _ _ hpc => by cases hpc) (fun _ _ _ hpc => by cases hpc)

lemma Fresh.setPc_store (h : Fresh sub s) (th : Nat) {ref : Int}
    (href : ref = checkSlow sub (s.defs op) t1 t2) :
    Fresh sub (s.setPc th (.store op t1 t2 ref)) :=
  h.setPc th (fun _ _ _ _ hpc => by cases hpc; exact href) (fun _ _ _ hpc => by cases hpc)

lemma Fresh.callStep_sound (h : Fresh sub s) (th op : Nat) (t1 t2 : BitVec 32) :
    Sound sub s (callStep s th op t1 t2) := by
  unfold callStep
  split
  · exact (h.setPc_lookup th op t1 t2).sound_quiet
  rename_i c hc
  obtain ⟨ref, hcheck, hmem⟩ := checkCache_spec c (keyFor t1 t2)
  rw [hcheck]
  by_cases href : ref ≠ opCacheMiss
  · simp only [if_pos href]
    exact h.sound_answer (h.thread th op t1 t2 ref (.inl ⟨c, hc, hmem href⟩))
  · simp only [if_neg href]
    exact (h.setPc_lookup th op t1 t2).sound_quiet

lemma Fresh.lookupStep_sound (h : Fresh sub s) (th op : Nat) (t1 t2 : BitVec 32) :
    Sound sub s (lookupStep s th op t1 t2) := by
  unfold lookupStep
  split
  · rename_i hnone
    have hcur : opNoImpl = checkSlow sub (s.defs op) t1 t2 := by
      simp only [State.defs, hnone]
      rfl
    exact (h.setPc_store th hcur).sound_answer hcur
  · rename_i g hg
    obtain ⟨ref, hcheck, hmem⟩ := checkCache_spec g.cache (keyFor t1 t2)
    rw [hcheck]
    by_cases href : ref ≠ opCacheMiss
    · simp only [if_pos href]
      have hcur : ref = checkSlow sub (s.defs op) t1 t2 := by
        rw [defs_of_getElem? hg]
        exact h.group op g hg t1 t2 ref (hmem href)
      exact (h.setPc_store th hcur).sound_answer hcur
    · simp only [if_neg href]
      have hlen : op < s.groups.length := (List.getElem?_eq_some_iff.mp hg).1
      exact (h.setPc th (fun _ _ _ _ hpc => by cases hpc)
        (fun _ _ _ hpc => by cases hpc; exact hlen)).sound_quiet

lemma Fresh.slowStep_sound (h : Fresh sub s) {th op : Nat}
    (hpc : (s.threads th).pc = .slow op t1 t2) : Sound sub s (slowStep sub s th op t1 t2) := by
  have hlen := h.slow th op t1 t2 hpc
  have hg : s.groups[op]? = some s.groups[op] := getElem?_eq_getElem hlen
  unfold slowStep
  rw [hg]
  have hcur : checkSlow sub s.groups[op].defs t1 t2 = checkSlow sub (s.defs op) t1 t2 := by
    rw [defs_of_getElem? hg]
  refine Fresh.sound_answer ?_ (show Answer.Current sub s ⟨op, t1, t2, _⟩ from hcur)
  -- the thread moves on first, then the cache of the group is refilled
  apply (h.setPc_store th hcur).setGroup hg
  intro u1 u2 ref hmem
  rcases mem_updateCache.mp hmem with hmem | heq
  · exact h.group op _ hg u1 u2 ref hmem
  · obtain ⟨hkey, rfl⟩ := CacheEntry.mk.inj heq
    obtain ⟨rfl, rfl⟩ := keyFor_inj hkey
    rfl

lemma mem_of_padded {caches : List (List CacheEntry)} {n op : Nat} {c : List CacheEntry}
    {e : CacheEntry} (hc : (caches ++ replicate n [])[op]? = some c) (he : e ∈ c) :
    caches[op]? = some c := by
  by_cases hop : op < caches.length
  · rwa [getElem?_append_left hop] at hc
  · rw [getElem?_append_right (by omega)] at hc
    have hnil := eq_of_mem_replicate (mem_of_getElem? hc)
    rw [hnil] at he
    cases he

lemma Fresh.storeStep (h : Fresh sub s) {th op : Nat} {ref : Int}
    (hpc : (s.threads th).pc = .store op t1 t2 ref) :
    Fresh sub (storeStep s th op t1 t2 ref) := by
  have href := h.thread th op t1 t2 ref (.inr hpc)
  apply h.update th _ _ (fun _ _ _ hpc' => by cases hpc')
  rintro op' u1 u2 ref' (⟨c, hc, hmem⟩ | hpc')
  · change (modify _ op _)[op']? = some c at hc
    rw [getElem?_modify] at hc
    obtain ⟨c', hc', rfl⟩ := Option.map_eq_some_iff.mp hc
    by_cases heq : op = op'
    · subst heq
      rw [if_pos rfl] at hmem
      rcases mem_updateCache.mp hmem with hmem | hnew
      · exact h.thread th op u1 u2 ref' (.inl ⟨c', mem_of_padded hc' hmem, hmem⟩)
      · obtain ⟨hkey, rfl⟩ := CacheEntry.mk.inj hnew
        obtain ⟨rfl, rfl⟩ := keyFor_inj hkey
        exact href
    · rw [if_neg heq] at hmem
      exact h.thread th op' u1 u2 ref' (.inl ⟨c', mem_of_padded hc' hmem, hmem⟩)
  · cases hpc'

/-! ### New definitions -/

lemma le_fit2 : ∀ fuel cap min, 0 < cap → min ≤ cap + fuel → min ≤ fit2 fuel cap min := by
  intro fuel
  induction fuel with
  | zero => exact fun cap min _ h => h
  | succ fuel ih =>
    intro cap min hcap h
    unfold fit2
    split
    · exact ih (2 * cap) min (by omega) (by omega)
    · omega

lemma lt_length_grow (groups : List DispatchGroup) (op : Nat) : op < (grow groups op).length := by
  unfold grow
  rw [length_append, length_replicate]
  have hfit := le_fit2 (op + 1) (if 0 < groups.length then 2 * groups.length else 4) (op + 1)
    (by split <;> omega) (by omega)
  omega

def State.grown (s : State) (op : Nat) : State :=
  { s with groups := if s.groups.length ≤ op then grow s.groups op else s.groups }

lemma State.lt_length_grown (s : State) (op : Nat) : op < (s.grown op).groups.length := by
  unfold State.grown
  split
  · exact lt_length_grow _ _
  · rename_i hlt
    exact Nat.lt_of_not_le hlt

section
variable (s : State) (op op' : Nat)

lemma State.getElem?_grown :
    (s.grown op).groups[op']? = s.groups[op']? ∨
      s.groups[op']? = none ∧ ∀ g ∈ (s.grown op).groups[op']?, g = ⟨[], []⟩ := by
  unfold State.grown
  split
  · by_cases hop : op' < s.groups.length
    · exact .inl (getElem?_append_left hop)
    · refine .inr ⟨getElem?_eq_none (by omega), fun g hg => ?_⟩
      change (grow s.groups op)[op']? = some g at hg
      unfold grow at hg
      rw [getElem?_append_right (by omega)] at hg
      exact eq_of_mem_replicate (mem_of_getElem? hg)
  · exact .inl rfl

lemma State.defs_grown : (s.grown op).defs op' = s.defs op' := by
  unfold State.defs
  rcases s.getElem?_grown op op' with heq | ⟨hnone, hnew⟩
  · rw [heq]
  · rw [hnone]
    cases hg : (s.grown op).groups[op']? with
    | none => rfl
    | some g => rw [hnew g hg]

lemma opAdd_groups (spec : OperatorSpec) :
    (opAdd s op spec).groups[op']? =
      ((s.grown op).groups[op']?).map fun g =>
        if op = op' then ⟨[], g.defs ++ [spec]⟩ else g := by
  change ((s.grown op).groups.modify op _)[op']? = _
  rw [getElem?_modify]
  split <;> rfl

lemma opAdd_defs (spec : OperatorSpec) :
    (opAdd s op spec).defs op' = if op = op' then s.defs op' ++ [spec] else s.defs op' := by
  rw [← s.defs_grown op op']
  unfold State.defs
  rw [opAdd_groups]
  by_cases heq : op = op'
  · subst heq
    rw [if_pos rfl, getElem?_eq_getElem (s.lt_length_grown op)]
    simp
  · simp only [if_neg heq]
    cases (s.grown op).groups[op']? with
    | none => rfl
    | some g => rfl

end

/-- The new definition changes no answer that a thread keeps or is about to keep. -/
def Fits (sub : BitVec 32 → BitVec 32 → Bool) (s : State) : Action → Prop
  | .add op spec => ∀ th t1 t2 ref, (s.threads th).Recalls op t1 t2 ref →
      checkSlow sub (s.defs op ++ [spec]) t1 t2 = checkSlow sub (s.defs op) t1 t2
  | _ => True

lemma Fresh.opAdd (h : Fresh sub s) {spec : OperatorSpec}
    (hfit : Fits sub s (.add op spec)) : Fresh sub (opAdd s op spec) := by
  refine ⟨?_, ?_, ?_⟩
  · intro op' g hg t1 t2 ref hmem
    rw [opAdd_groups] at hg
    obtain ⟨g', hg', rfl⟩ := Option.map_eq_some_iff.mp hg
    by_cases heq : op = op'
    · rw [if_pos heq] at hmem
      cases hmem
    · rw [if_neg heq] at hmem ⊢
      rcases s.getElem?_grown op op' with hold | ⟨-, hnew⟩
      · exact h.group op' g' (hold ▸ hg') t1 t2 ref hmem
      · rw [hnew g' hg'] at hmem
        cases hmem
  · intro th op' t1 t2 ref hrec
    have href := h.thread th op' t1 t2 ref hrec
    rw [opAdd_defs]
    by_cases heq : op = op'
    · subst heq
      rwa [if_pos rfl, hfit th t1 t2 ref hrec]
    · rwa [if_neg heq]
  · intro th op' t1 t2 hpc
    have hlt := h.slow th op' t1 t2 hpc
    change op' < ((s.grown op).groups.modify op _).length
    rw [length_modify]
    unfold State.grown
    split
    · have := lt_length_grow s.groups op
      simp only
      omega
    · exact hlt

/-! ### Runs -/

/-- A call that can be made, or a thread that is in one. -/
def Enabled (s : State) : Action → Prop
  | .add _ _ => True
  | .call th _ _ _ => (s.threads th).pc = .idle
  | .resume th => (s.threads th).pc ≠ .idle

lemma Fresh.step_sound (h : Fresh sub s) {act : Action} (hen : Enabled s act)
    (hfit : Fits sub s act) : Sound sub s (step sub s act) := by
  cases act with
  | add op spec => exact (h.opAdd hfit).sound_quiet
  | call th op t1 t2 =>
    simp only [step, show (s.threads th).pc = .idle from hen]
    exact h.callStep_sound th op t1 t2
  | resume th =>
    cases hpc : (s.threads th).pc with
    | idle => exact absurd hpc hen
    | lookup op t1 t2 =>
      simp only [step, hpc]
      exact h.lookupStep_sound th op t1 t2
    | slow op t1 t2 =>
      simp only [step, hpc]
      exact h.slowStep_sound hpc
    | store op t1 t2 ref =>
      simp only [step, hpc]
      exact (h.storeStep hpc).sound_quiet

lemma enabled_of_step {act : Action} {r : State × Option Answer}
    (hstep : step sub s act = some r) : Enabled s act := by
  cases act with
  | add op spec => trivial
  | call th op t1 t2 =>
    change (s.threads th).pc = .idle
    cases hpc : (s.threads th).pc with
    | idle => rfl
    | _ => simp only [step, hpc] at hstep; cases hstep
  | resume th =>
    intro hpc
    simp only [step, hpc] at hstep
    cases hstep

/-- Every new definition of the run fits the state it comes in. -/
def AllFit (sub : BitVec 32 → BitVec 32 → Bool) (s : State) : List Action → Prop
  | [] => True
  | act :: acts => Fits sub s act ∧ ∀ s' a, step sub s act = some (s', a) → AllFit sub s' acts

lemma Fresh.run (acts : List Action) :
    ∀ s s', Fresh sub s → AllFit sub s acts → run sub s acts = some s' → Fresh sub s' := by
  induction acts with
  | nil =>
    intro s s' h _ hrun
    cases hrun
    exact h
  | cons act acts ih =>
    intro s s' h hfit hrun
    unfold Operators.run at hrun
    split at hrun
    · cases hrun
    · rename_i s1 a hstep
      obtain ⟨s₂, b, hsound, h2, -⟩ := h.step_sound (enabled_of_step hstep) hfit.1
      rw [hstep] at hsound
      cases hsound
      exact ih s1 s' h2 (hfit.2 s1 a hstep) hrun

def Pc.left : Pc → Nat
  | .idle => 0
  | .store .. => 1
  | .slow .. => 2
  | .lookup .. => 3

lemma setPc_pc (s : State) (th : Nat) (pc : Pc) : ((s.setPc th pc).threads th).pc = pc := by
  simp only [State.setPc, update_self]

lemma left_lt_of_resume {th : Nat} {a : Option Answer}
    (hstep : step sub s (.resume th) = some (s', a)) :
    (s'.threads th).pc.left < (s.threads th).pc.left := by
  cases hpc : (s.threads th).pc with
  | idle =>
    simp only [step, hpc] at hstep
    cases hstep
  | lookup op t1 t2 =>
    simp only [step, hpc, lookupStep] at hstep
    split at hstep
    · cases hstep
      rw [setPc_pc]
      simp only [Pc.left]
      decide
    · split at hstep
      · cases hstep
      · split at hstep <;>
        · cases hstep
          rw [setPc_pc]
          simp only [Pc.left]
          decide
  | slow op t1 t2 =>
    simp only [step, hpc, slowStep] at hstep
    split at hstep
    · cases hstep
    · cases hstep
      change ((s.setPc th _).threads th).pc.left < _
      rw [setPc_pc]
      simp only [Pc.left]
      decide
  | store op t1 t2 ref =>
    simp only [step, hpc] at hstep
    cases hstep
    simp only [storeStep, update_self, Pc.left]
    decide

/-- In a run whose new definitions change no answer that a thread keeps, every call of
`op_dispatch` goes through and is answered from the definitions there are at that time. -/
theorem op_dispatch_current (sub : BitVec 32 → BitVec 32 → Bool) (acts : List Action) (s : State)
    (hfit : AllFit sub start acts) (hrun : run sub start acts = some s) :
    (∀ act s' a, step sub s act = some (s', some a) →
      a.ref = checkSlow sub (s.defs a.op) a.t1 a.t2) ∧
    (∀ th, (s.threads th).pc = .idle → ∀ op t1 t2, ∃ r, step sub s (.call th op t1 t2) = some r) ∧
    ∀ th, (s.threads th).pc ≠ .idle → ∃ s' a, step sub s (.resume th) = some (s', a) ∧
      (s'.threads th).pc.left < (s.threads th).pc.left := by
  have h := fresh_start.run acts start s hfit hrun
  refine ⟨?_, ?_, ?_⟩
  · intro act s' a hstep
    have hfits : Fits sub s act := by
      cases act with
      | add op spec => cases hstep
      | _ => trivial
    obtain ⟨s₂, b, hsound, -, hcur⟩ := h.step_sound (enabled_of_step hstep) hfits
    rw [hstep] at hsound
    cases hsound
    exact hcur a rfl
  · intro th hpc op t1 t2
    have hen : Enabled s (.call th op t1 t2) := hpc
    obtain ⟨s', a, hstep, -, -⟩ := h.step_sound hen trivial
    exact ⟨_, hstep⟩
  · intro th hpc
    have hen : Enabled s (.resume th) := hpc
    obtain ⟨s', a, hstep, -, -⟩ := h.step_sound hen trivial
    exact ⟨s', a, hstep, left_lt_of_resume hstep⟩

theorem op_dispatch_current_cached :
    ∃ s, run (· == ·) start [.add 0 ⟨5, 5, 7⟩, .call 0 0 5 5, .resume 0, .resume 0, .resume 0] =
        some s ∧
      ∀ act s' a, step (· == ·) s act = some (s', some a) →
        a.ref = checkSlow (· == ·) (s.defs a.op) a.t1 a.t2 := by
  refine ⟨_, rfl, (op_dispatch_current (· == ·) [.add 0 ⟨5, 5, 7⟩, .call 0 0 5 5, .resume 0,
    .resume 0, .resume 0] _ ⟨?_, ?_⟩ rfl).1⟩
  · rintro th t1 t2 ref (⟨c, hc, -⟩ | hpc)
    · cases hc
    · cases hpc
  · exact fun _ _ _ => ⟨trivial, fun _ _ _ => ⟨trivial, fun _ _ _ => ⟨trivial, fun _ _ _ =>
      ⟨trivial, fun _ _ _ => trivial⟩⟩⟩⟩

/-- A thread that found no implementation does not see one that is added later. -/
theorem op_dispatch_stale :
    ∃ s s' a, run (· == ·) start [.call 0 0 5 5, .resume 0, .resume 0, .add 0 ⟨5, 5, 7⟩] = some s ∧
      step (· == ·) s (.call 0 0 5 5) = some (s', some a) ∧ a = ⟨0, 5, 5, -1⟩ ∧
      checkSlow (· == ·) (s.defs 0) 5 5 = 7 :=
  ⟨_, _, _, rfl, rfl, rfl, rfl⟩

end TyLang.Operators
