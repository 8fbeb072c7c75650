import TyLang.Lib.Segment
import TyLang.Try.Exec

/-!
The code of a function agrees with the try statements noted at its lines: each
instruction passes control only to lines where those are open that its execution
leaves open. The one exception is the jump of a `break` or `continue` out of a
finally block, which leaves a try statement open that is not open at its target.
-/
namespace TyLang.Try
open List Segment

variable {E : Type} {code : List (Line E)} {instr : Instr E} {returns : Bool} {a : Nat}

def openAt (code : List (Line E)) (a : Nat) : Option (List TryState) :=
  code[a]?.bind Line.inside

lemma openAt_of_line {inside : Option (List TryState)}
    (h : code[a]? = some ⟨instr, inside⟩) : openAt code a = inside := by
  simp [openAt, h]

/-- Each try statement has its `TRY` in the code, where those around it are open. -/
def Chain (code : List (Line E)) : List TryState → Prop
  | [] => True
  | y :: rest => (∃ c f e, code[y.pos]? = some ⟨.TRY c f e, some rest⟩) ∧ Chain code rest

/-- The addresses from `lo` to `hi` are before the finally blocks of the try
statements, or in those that are running theirs. -/
def Span (code : List (Line E)) (lo hi : Nat) (tries : List TryState) : Prop :=
  ∀ y ∈ tries, ∀ c f e i, code[y.pos]? = some ⟨.TRY c f e, i⟩ →
    if y.ctx = .TRY_FINALLY then f ≤ lo else hi ≤ f

/-- The jump from the end of a try body, where `open` are the try statements open
at it, to the finally block at `b`. -/
def Completes (code : List (Line E)) (b : Nat) (tries : List TryState) : Prop :=
  ∃ y rest c e, tries = y :: rest ∧ y.ctx = .TRY_TRY ∧
    code[y.pos]? = some ⟨.TRY c b e, some rest⟩ ∧ openAt code e = some rest

def InstrOk (code : List (Line E)) (a : Nat) (tries : List TryState) : Instr E → Prop
  | .EVAL => openAt code (a + 1) = some tries
  | .JUMP l => ∃ b there, l = .addr b ∧ openAt code b = some there ∧
      (there.length = tries.length → there = tries ∨ Completes code b tries)
  | .JUMP_IF_NOT l | .MATCH _ l =>
    openAt code (a + 1) = some tries ∧ ∃ b, l = .addr b ∧ openAt code b = some tries
  | .THROW _ => True
  | .TRY c f _ => ∃ t, openAt code (a + 1) = some (⟨a, t, .TRY_TRY⟩ :: tries) ∧
      openAt code c = some (⟨a, t, .TRY_CATCH⟩ :: tries) ∧
      openAt code f = some (⟨a, t, .TRY_FINALLY⟩ :: tries)
  | .RETHROW => ∃ y rest, tries = y :: rest ∧ y.ctx = .TRY_CATCH
  | .CATCH => ∃ y rest c e, tries = y :: rest ∧ y.ctx = .TRY_CATCH ∧
      code[y.pos]? = some ⟨.TRY c (a + 1) e, some rest⟩ ∧ openAt code e = some rest
  | .FINALLY => ∃ y rest, tries = y :: rest ∧ openAt code (a + 1) = some rest
  | .END_TRY => ∃ y rest, tries = y :: rest ∧ y.ctx = .TRY_FINALLY
  | .RETURN => tries = []

structure LineOk (code : List (Line E)) (a : Nat) (line : Line E) : Prop where
  chain : ∀ tries, line.inside = some tries → Chain code tries
  span : ∀ tries, line.inside = some tries → Span code a (a + 1) tries
  instr : ∀ tries, line.inside = some tries → InstrOk code a tries line.instr

/-- What the surrounding code promises to the code of a statement. The jumps
that are still open there go where `σ` says. -/
structure Promised (code : List (Line E)) (σ : Target → Target) (st : CompilerState) : Prop where
  addr : ∀ a, σ (.addr a) = .addr a
  chain : Chain code st.tries
  tryStamps : ∀ y ∈ st.tries, y.t ≤ st.t
  loopStamps : ∀ l ∈ st.loops, l.t ≤ st.t
  breaks : ∀ l ∈ st.loops, ∃ b, σ (.breaks l.t) = .addr b ∧
    openAt code b = some (around l st.tries)
  continues : ∀ l ∈ st.loops, ∃ b, σ (.continues l.t) = .addr b ∧
    openAt code b = some (around l st.tries)

section Patch

section
variable (σ : Target → Target)

@[simp] lemma patchJumpsTo_nil :
    patchJumpsTo σ ([] : List (Line E)) = [] := rfl

@[simp] lemma patchJumpsTo_cons (line : Line E) (rest : List (Line E)) :
    patchJumpsTo σ (line :: rest) = line.patch σ :: patchJumpsTo σ rest := rfl

@[simp] lemma patchJumpsTo_append (xs ys : List (Line E)) :
    patchJumpsTo σ (xs ++ ys) = patchJumpsTo σ xs ++ patchJumpsTo σ ys := map_append

@[simp] lemma length_patchJumpsTo (xs : List (Line E)) :
    (patchJumpsTo σ xs).length = xs.length := length_map _

end

@[simp] lemma patchJumpsTo_patchJumpsTo (σ τ : Target → Target) (xs : List (Line E)) :
    patchJumpsTo σ (patchJumpsTo τ xs) = patchJumpsTo (σ ∘ τ) xs := by
  simp only [patchJumpsTo, map_map]
  refine map_congr_left fun line _ => ?_
  cases line with
  | mk instr inside => cases instr <;> rfl

lemma patchJumpsTo_id (xs : List (Line E)) : patchJumpsTo id xs = xs := by
  refine (map_congr_left fun line _ => ?_).trans (map_id xs)
  cases line with
  | mk instr inside => cases instr <;> rfl

@[simp] lemma patchJumpsTo_emitFinallies (σ : Target → Target) (n : Nat) (tries : List TryState) :
    patchJumpsTo σ (emitFinallies n tries : List (Line E)) = emitFinallies n tries := by
  induction n generalizing tries with
  | zero => rfl
  | succ n ih => simp only [emitFinallies, patchJumpsTo_cons, ih, Line.patch, Instr.patch]

@[simp] lemma length_emitFinallies (n : Nat) (tries : List TryState) :
    (emitFinallies n tries : List (Line E)).length = n := by
  induction n generalizing tries with
  | zero => rfl
  | succ n ih => simp [emitFinallies, ih]

end Patch

section Parts
variable {tries : List TryState} {lo hi lo' hi' : Nat}

lemma Span.mono (h : Span code lo hi tries) (hlo : lo ≤ lo') (hhi : hi' ≤ hi) :
    Span code lo' hi' tries := by
  intro y hy c f e i hline
  have hy := h y hy c f e i hline
  by_cases hctx : y.ctx = .TRY_FINALLY
  · rw [if_pos hctx] at hy ⊢
    omega
  · rw [if_neg hctx] at hy ⊢
    omega

lemma Span.of_subset {tries' : List TryState} (h : Span code lo hi tries)
    (hsub : ∀ y ∈ tries', y ∈ tries) : Span code lo hi tries' :=
  fun y hy => h y (hsub y hy)

lemma Chain.drop (h : Chain code tries) (n : Nat) : Chain code (tries.drop n) := by
  induction n generalizing tries with
  | zero => exact h
  | succ n ih =>
    cases tries with
    | nil => exact h
    | cons y rest => exact ih h.2

lemma lineOk_some (hchain : Chain code tries)
    (hspan : Span code a (a + 1) tries) (hinstr : InstrOk code a tries instr) :
    LineOk code a ⟨instr, some tries⟩ where
  chain := by rintro _ ⟨⟩; exact hchain
  span := by rintro _ ⟨⟩; exact hspan
  instr := by rintro _ ⟨⟩; exact hinstr

lemma lineOk_live (hchain : Chain code tries) (hspan : Span code a (a + 1) tries)
    (hinstr : returns = false → InstrOk code a tries instr) :
    LineOk code a ⟨instr, live returns tries⟩ := by
  cases returns with
  | false => exact lineOk_some hchain hspan (hinstr rfl)
  | true => exact ⟨nofun, nofun, nofun⟩

lemma emitFinallies_ok {n pos : Nat} (hn : n ≤ tries.length) (hchain : Chain code tries)
    (hspan : Span code pos (pos + n) tries)
    (hcode : Stands code pos (emitFinallies n tries))
    (hnext : openAt code (pos + n) = some (tries.drop n)) :
    openAt code pos = some tries ∧ Every (LineOk code) pos (emitFinallies n tries) := by
  induction n generalizing tries pos with
  | zero => exact ⟨hnext, trivial⟩
  | succ n ih =>
    cases tries with
    | nil => cases hn
    | cons y rest =>
      obtain ⟨hline, hcode⟩ := hcode
      have hrest : Span code (pos + 1) (pos + 1 + n) rest :=
        (hspan.mono (by omega) (by omega)).of_subset fun y hy => .tail _ hy
      obtain ⟨hopen, hlines⟩ := ih (Nat.le_of_succ_le_succ hn) hchain.2 hrest hcode
        (by rwa [show pos + 1 + n = pos + (n + 1) by omega])
      refine ⟨openAt_of_line hline, lineOk_some hchain ?_ ⟨y, rest, rfl, hopen⟩, hlines⟩
      exact hspan.mono .refl (by omega)

section
variable (loop : LoopState) (tries : List TryState)

lemma around_eq_drop : around loop tries = tries.drop (crossed loop tries).length := by
  have h : crossed loop tries ++ around loop tries = tries := takeWhile_append_dropWhile
  calc around loop tries
      = (crossed loop tries ++ around loop tries).drop (crossed loop tries).length :=
        drop_left.symm
    _ = tries.drop (crossed loop tries).length := by rw [h]

lemma exits_le :
    exits loop tries ≤ (crossed loop tries).length := countP_le_length

lemma crossed_length_le : (crossed loop tries).length ≤ tries.length :=
  (List.takeWhile_prefix _).length_le

end

end Parts

section Promises
variable {σ : Target → Target} {st : CompilerState} {pos : Nat}

lemma around_inTry {l : LoopState} {ctx : TryPhase} (h : l.t ≤ st.t) :
    around l (st.inTry pos ctx).tries = around l st.tries := by
  simp [CompilerState.inTry, around, Nat.lt_succ_of_le h]

lemma Promised.inTry (hp : Promised code σ st) {c f e : Nat}
    (hline : code[pos]? = some ⟨.TRY c f e, some st.tries⟩) (ctx : TryPhase) :
    Promised code σ (st.inTry pos ctx) where
  addr := hp.addr
  chain := ⟨⟨c, f, e, hline⟩, hp.chain⟩
  tryStamps := by
    intro y hy
    rcases mem_cons.mp hy with rfl | hy
    · exact .refl
    · exact Nat.le_succ_of_le (hp.tryStamps y hy)
  loopStamps l hl := Nat.le_succ_of_le (hp.loopStamps l hl)
  breaks l hl := by
    rw [around_inTry (hp.loopStamps l hl)]
    exact hp.breaks l hl
  continues l hl := by
    rw [around_inTry (hp.loopStamps l hl)]
    exact hp.continues l hl

lemma Promised.success (hp : Promised code σ st) (a : Nat) :
    Promised code (σ ∘ successJumps a) st where
  addr := hp.addr
  chain := hp.chain
  tryStamps := hp.tryStamps
  loopStamps := hp.loopStamps
  breaks := hp.breaks
  continues := hp.continues

lemma around_inLoop (h : ∀ y ∈ st.tries, y.t ≤ st.t) : around ⟨st.t + 1⟩ st.tries = st.tries := by
  unfold around
  cases htries : st.tries with
  | nil => rfl
  | cons y rest =>
    have hy : ¬ st.t + 1 < y.t := by
      have := h y (by rw [htries]; exact mem_cons_self)
      omega
    rw [dropWhile_cons_of_neg (by simpa using hy)]

lemma Promised.inLoop (hp : Promised code σ st) {start stop : Nat}
    (hstart : openAt code start = some st.tries) (hstop : openAt code stop = some st.tries) :
    Promised code (σ ∘ loopJumps (st.t + 1) start stop) st.inLoop := by
  have hown := congrArg some (around_inLoop hp.tryStamps).symm
  have hne : ∀ l ∈ st.loops, l.t ≠ st.t + 1 := by
    intro l hl
    have := hp.loopStamps l hl
    omega
  refine ⟨hp.addr, hp.chain, fun y hy => Nat.le_succ_of_le (hp.tryStamps y hy), ?_, ?_, ?_⟩
  all_goals
    intro l hl
    rcases mem_cons.mp hl with rfl | hl
  · exact .refl
  · exact Nat.le_succ_of_le (hp.loopStamps l hl)
  · exact ⟨stop, by simp [loopJumps, hp.addr], hstop.trans hown⟩
  · simpa [loopJumps, hne l hl, CompilerState.inLoop] using hp.breaks l hl
  · exact ⟨start, by simp [loopJumps, hp.addr], hstart.trans hown⟩
  · simpa [loopJumps, hne l hl, CompilerState.inLoop] using hp.continues l hl

lemma Span.inTry {lo hi c f e : Nat} {ctx : TryPhase} (h : Span code lo hi st.tries)
    (hline : code[pos]? = some ⟨.TRY c f e, some st.tries⟩)
    (hf : if ctx = .TRY_FINALLY then f ≤ lo else hi ≤ f) :
    Span code lo hi (st.inTry pos ctx).tries := by
  intro y hy c' f' e' i hline'
  rcases mem_cons.mp hy with rfl | hy
  · cases hline.symm.trans hline'
    exact hf
  · exact h y hy c' f' e' i hline'

end Promises

/-- Control that arrives at the code of a statement finds the try statements open
that the statement is in, if the code after it does. That code is reached unless
the statement always returns, and after a list of catch clauses in any case, as
the last pattern may fail. -/
def Opens (code : List (Line E)) (k : Kind) (st : CompilerState) (pos : Nat)
    (out : List (Line E) × Bool) : Prop :=
  ∀ σ, Stands code pos (patchJumpsTo σ out.1) →
    (k = .handlers ∨ out.2 = false → openAt code (pos + out.1.length) = some st.tries) →
    openAt code pos = some st.tries

/-- The code of a statement agrees with the try statements noted in it, wherever
it is put. -/
def Sound (code : List (Line E)) (k : Kind) (st : CompilerState) (pos : Nat)
    (out : List (Line E) × Bool) : Prop :=
  ∀ σ, Promised code σ st → Stands code pos (patchJumpsTo σ out.1) →
    Span code pos (pos + out.1.length) st.tries →
    (k = .handlers ∨ out.2 = false → openAt code (pos + out.1.length) = some st.tries) →
    (k = .handlers → out.2 = false → ∃ b, σ .success = .addr b ∧ openAt code b = some st.tries) →
    Every (LineOk code) pos (patchJumpsTo σ out.1)

structure Fits (code : List (Line E)) (k : Kind) (st : CompilerState) (pos : Nat)
    (out : List (Line E) × Bool) : Prop where
  opens : Opens code k st pos out
  sound : Sound code k st pos out

section Constructs
variable {st : CompilerState} {pos : Nat} {σ : Target → Target}

section Placed
variable {k : Kind} {lines : List (Line E)} {returns : Bool} {σ : Target → Target}
  (h : Fits code k st pos (lines, returns)) (hk : k ≠ .handlers)
  (hcode : Stands code pos (patchJumpsTo σ lines))
  (hnext : returns = false → openAt code (pos + lines.length) = some st.tries)

include h hk hcode hnext

lemma Fits.opened : openAt code pos = some st.tries :=
  h.opens σ hcode fun h => hnext (h.resolve_left hk)

lemma Fits.every {lo hi : Nat} (hp : Promised code σ st) (hspan : Span code lo hi st.tries)
    (hlo : lo ≤ pos) (hhi : pos + lines.length ≤ hi) :
    Every (LineOk code) pos (patchJumpsTo σ lines) :=
  h.sound σ hp hcode (hspan.mono hlo hhi) (fun h => hnext (h.resolve_left hk)) fun h => absurd h hk

end Placed

lemma openAt_live {tries : List TryState} (hline : code[a]? = some ⟨instr, live returns tries⟩)
    (h : Kind.stmt = .handlers ∨ returns = false) : openAt code a = some tries := by
  rcases h with h | rfl
  · cases h
  · exact openAt_of_line hline

lemma fits_leave {target : Target} {loop : LoopState} (htarget : ∀ σ, Promised code σ st →
      ∃ b, σ target = .addr b ∧ openAt code b = some (around loop st.tries)) :
    Fits code .stmt st pos (emitLeave target loop st.tries, false) := by
  refine ⟨fun σ hcode _ => ?_, fun σ hp hcode hspan _ _ => ?_⟩
  · unfold emitLeave at hcode
    cases hexits : exits loop st.tries with
    | zero | succ n =>
      rw [hexits] at hcode
      exact openAt_of_line hcode.1
  have hexits := exits_le loop st.tries
  have hcrossed := crossed_length_le loop st.tries
  obtain ⟨b, hb, hopen⟩ := htarget σ hp
  simp only [emitLeave, patchJumpsTo_append, patchJumpsTo_emitFinallies, stands_append,
    every_append, length_emitFinallies, length_append, length_singleton] at *
  obtain ⟨hfirst, hjump, -⟩ := hcode
  have hfinallies := emitFinallies_ok (by omega) hp.chain
    (hspan.mono .refl (by omega)) hfirst (openAt_of_line hjump)
  refine ⟨hfinallies.2, lineOk_some (hp.chain.drop _) ?_ ?_, trivial⟩
  · exact (hspan.mono (by omega) (by omega)).of_subset fun y hy => mem_of_mem_drop hy
  · refine ⟨b, _, hb, hopen, fun hlength => .inl ?_⟩
    rw [around_eq_drop, length_drop, length_drop] at hlength
    rw [around_eq_drop, show (crossed loop st.tries).length = exits loop st.tries by omega]

lemma fits_return {out : List (Line E)} (hout : emitReturn st = some out) :
    Fits code .stmt st pos (out, true) := by
  unfold emitReturn at hout
  split at hout
  · cases hout
  cases hout
  refine ⟨fun σ hcode _ => openAt_of_line hcode.1, fun σ hp hcode hspan _ _ => ?_⟩
  simp only [patchJumpsTo_cons, patchJumpsTo_append, patchJumpsTo_emitFinallies, stands_cons,
    stands_append, every_cons, every_append, length_emitFinallies, length_cons,
    length_append] at *
  obtain ⟨heval, hfirst, hreturn, -⟩ := hcode
  have hfinallies := emitFinallies_ok .refl hp.chain
    (hspan.mono (Nat.le_succ _) (by omega)) hfirst
    ((openAt_of_line hreturn).trans (by rw [drop_length]))
  refine ⟨lineOk_some hp.chain ?_ hfinallies.1, hfinallies.2, lineOk_some trivial ?_ rfl, trivial⟩
  · exact hspan.mono .refl (by omega)
  · exact forall_mem_nil _

lemma fits_try {body handlers fin : List (Line E) × Bool}
    (hbody : Fits code .stmt (st.inTry pos .TRY_TRY) (pos + 1) body)
    (hhandlers : Fits code .handlers (st.inTry pos .TRY_CATCH) (pos + 1 + body.1.length + 1)
      handlers)
    (hfin : Fits code .stmt (st.inTry pos .TRY_FINALLY)
      (pos + 1 + body.1.length + 1 + handlers.1.length + 1 + 1) fin)
    (hreturns : body.2 = false ∨ handlers.2 = false → returns = false) :
    Fits code .stmt st pos (emitTry st pos body handlers fin, returns) := by
  refine ⟨fun σ hcode _ => openAt_of_line hcode.1, fun σ hp hcode hspan hnext _ => ?_⟩
  simp only [emitTry, patchJumpsTo_cons, patchJumpsTo_append, patchJumpsTo_patchJumpsTo,
    stands_cons, stands_append, every_cons, every_append, length_patchJumpsTo, length_cons,
    length_append, length_nil, Line.patch, Instr.patch, hp.addr] at *
  obtain ⟨htry, hbodyCode, hjump, hhandlersCode, hrethrow, hcatch, hfinCode, hend, -⟩ := hcode
  have hafter (h : body.2 = false ∨ handlers.2 = false) :
      openAt code (pos + 1 + body.1.length + 1 + handlers.1.length + 1 + 1 + fin.1.length + 1) =
        some st.tries := by
    have := hnext (.inr (hreturns h))
    rwa [show pos + (body.1.length + (handlers.1.length + (fin.1.length + (0 + 1) + 1 + 1) + 1) + 1)
      = pos + 1 + body.1.length + 1 + handlers.1.length + 1 + 1 + fin.1.length + 1 by omega] at this
  -- the three parts see the try statement in its three states
  have inside (ctx : TryPhase) := hp.inTry htry ctx
  have hfinallyAt (lo hi : Nat) (ctx : TryPhase) (hlo : pos ≤ lo) (hhi : hi ≤ pos + _)
      (hf : if ctx = .TRY_FINALLY then
          pos + 1 + body.1.length + 1 + handlers.1.length + 1 + 1 ≤ lo
        else hi ≤ pos + 1 + body.1.length + 1 + handlers.1.length + 1 + 1) :
      Span code lo hi (st.inTry pos ctx).tries :=
    (hspan.mono hlo hhi).inTry htry hf
  have hbodyOpen := hbody.opens σ hbodyCode (openAt_live hjump)
  have hcatchOpen := hhandlers.opens _ hhandlersCode fun _ => openAt_of_line hrethrow
  have hfinOpen := hfin.opens σ hfinCode (openAt_live hend)
  refine ⟨?_, ?body, ?_, ?handlers, ?_, ?_, ?fin, ?_, trivial⟩
  case body =>
    exact hbody.sound σ (inside _) hbodyCode
      (hfinallyAt _ _ _ (by omega) (by omega) (by simp; omega))
      (openAt_live hjump) (by simp)
  case handlers =>
    exact hhandlers.sound _ ((inside _).success _) hhandlersCode
      (hfinallyAt _ _ _ (by omega) (by omega) (by simp; omega)) (fun _ => openAt_of_line hrethrow)
      fun _ h => ⟨_, hp.addr _, openAt_live hcatch (.inr h)⟩
  case fin =>
    exact hfin.sound σ (inside _) hfinCode (hfinallyAt _ _ _ (by omega) (by omega) (by simp))
      (openAt_live hend) (by simp)
  · exact lineOk_some hp.chain (hspan.mono .refl (by omega))
      ⟨_, hbodyOpen, hcatchOpen, hfinOpen⟩
  · refine lineOk_live (inside _).chain (hfinallyAt _ _ _ (by omega) (by omega) (by simp; omega))
      fun h => ⟨_, _, rfl, hfinOpen, fun _ => .inr ?_⟩
    exact ⟨_, _, _, _, rfl, rfl, htry, hafter (.inl h)⟩
  · exact lineOk_some (inside _).chain
      (hfinallyAt _ _ _ (by omega) (by omega) (by simp)) ⟨_, _, rfl, rfl⟩
  · exact lineOk_live (inside _).chain
      (hfinallyAt _ _ _ (by omega) (by omega) (by simp))
      fun h => ⟨_, _, _, _, rfl, rfl, htry, hafter (.inr h)⟩
  · exact lineOk_live (inside _).chain
      (hfinallyAt _ _ _ (by omega) (by omega) (by simp)) fun _ => ⟨_, _, rfl, rfl⟩

lemma length_emitForHead (tries : List TryState) (next cond : Bool) (stop : Nat) :
    (emitForHead tries pos next cond stop : List (Line E)).length = forHeadSize next cond := by
  cases next <;> cases cond <;> rfl

lemma opens_forHead {next cond : Bool} {stop : Nat}
    (hcode : Stands code pos (patchJumpsTo σ (emitForHead st.tries pos next cond stop)))
    (hnext : openAt code (pos + forHeadSize next cond) = some st.tries) :
    openAt code pos = some st.tries ∧
      openAt code (if next then pos + 1 else pos) = some st.tries := by
  cases next with
  | true => exact ⟨openAt_of_line hcode.1, openAt_of_line hcode.2.1⟩
  | false =>
    cases cond with
    | true => exact ⟨openAt_of_line hcode.1, openAt_of_line hcode.1⟩
    | false => exact ⟨hnext, hnext⟩

lemma sound_forHead {next cond : Bool} {stop lo hi : Nat}
    (haddr : ∀ a, σ (.addr a) = .addr a) (hchain : Chain code st.tries)
    (hspan : Span code lo hi st.tries) (hlo : lo ≤ pos) (hhi : pos + forHeadSize next cond ≤ hi)
    (hcode : Stands code pos (patchJumpsTo σ (emitForHead st.tries pos next cond stop)))
    (hnext : openAt code (pos + forHeadSize next cond) = some st.tries)
    (hstop : openAt code stop = some st.tries) :
    Every (LineOk code) pos (patchJumpsTo σ (emitForHead st.tries pos next cond stop)) := by
  have hline {instr : Instr E} (i : Nat) (hi : i < forHeadSize next cond)
      (h : InstrOk code (pos + i) st.tries instr) : LineOk code (pos + i) ⟨instr, some st.tries⟩ :=
    lineOk_some hchain (hspan.mono (by omega) (by omega)) h
  cases next with
  | true =>
    cases cond with
    | true =>
      obtain ⟨-, -, htest, hexit, -⟩ := hcode
      exact ⟨hline 0 (by decide) ⟨_, _, haddr _, openAt_of_line htest, fun _ => .inl rfl⟩,
        hline 1 (by decide) (openAt_of_line htest), hline 2 (by decide) (openAt_of_line hexit),
        hline 3 (by decide) ⟨hnext, _, haddr _, hstop⟩, trivial⟩
    | false =>
      exact ⟨hline 0 (by decide) ⟨_, _, haddr _, hnext, fun _ => .inl rfl⟩,
        hline 1 (by decide) hnext, trivial⟩
  | false =>
    cases cond with
    | true =>
      obtain ⟨-, hexit, -⟩ := hcode
      exact ⟨hline 0 (by decide) (openAt_of_line hexit),
        hline 1 (by decide) ⟨hnext, _, haddr _, hstop⟩, trivial⟩
    | false => trivial

end Constructs

lemma emitStatement_fits {k : Kind} (s : Node E k) {st : CompilerState} {pos : Nat}
    {out : List (Line E) × Bool} (h : emitStatement st pos s = some out) :
    Fits code k st pos out := by
  induction s generalizing st pos out with
    simp only [emitStatement, Option.bind_eq_bind, Option.bind_eq_some_iff] at h
  | expression =>
    cases h
    exact ⟨fun σ hcode _ => openAt_of_line hcode.1, fun σ hp hcode hspan hnext _ =>
      ⟨lineOk_some hp.chain hspan (hnext (.inr rfl)), trivial⟩⟩
  | throw exc =>
    cases h
    refine ⟨fun σ hcode _ => openAt_of_line hcode.1, fun σ hp hcode hspan hnext _ => ?_⟩
    obtain ⟨-, hthrow, -⟩ := hcode
    exact ⟨lineOk_some hp.chain (hspan.mono .refl (by simp)) (openAt_of_line hthrow),
      lineOk_some hp.chain (hspan.mono (Nat.le_succ _) (by simp)) trivial, trivial⟩
  | block body ih =>
    exact ⟨fun σ hcode hnext => (ih h).opens σ hcode fun h => hnext (h.imp nofun id),
      fun σ hp hcode hspan hnext _ =>
        (ih h).sound σ hp hcode hspan (fun h => hnext (h.imp nofun id)) nofun⟩
  | nil =>
    cases h
    exact ⟨fun σ _ hnext => hnext (.inr rfl), fun _ _ _ _ _ _ => trivial⟩
  | noHandler =>
    cases h
    exact ⟨fun σ _ hnext => hnext (.inl rfl), fun _ _ _ _ _ _ => trivial⟩
  | cons s rest ihs ihrest =>
    obtain ⟨⟨first, returns⟩, hfirst, h⟩ := h
    cases returns with
    | true =>
      cases h
      exact ⟨fun σ hcode _ => (ihs hfirst).opened nofun hcode nofun, fun σ hp hcode hspan _ _ =>
        (ihs hfirst).every nofun hcode nofun hp hspan .refl .refl⟩
    | false =>
      simp only [Bool.false_eq_true, if_false, Option.bind_eq_some_iff] at h
      obtain ⟨⟨others, returns⟩, hothers, h⟩ := h
      cases h
      refine ⟨fun σ hcode hnext => ?_, fun σ hp hcode hspan hnext _ => ?_⟩
      all_goals
        simp only [patchJumpsTo_append, stands_append, every_append, length_patchJumpsTo,
          length_append, ← Nat.add_assoc] at *
        have hopen := (ihrest hothers).opened nofun hcode.2 fun h => hnext (.inr h)
      · exact (ihs hfirst).opened nofun hcode.1 fun _ => hopen
      · exact ⟨(ihs hfirst).every nofun hcode.1 (fun _ => hopen) hp hspan (by omega) (by omega),
          (ihrest hothers).every nofun hcode.2 (fun h => hnext (.inr h)) hp hspan (by omega)
            (by omega)⟩
  | ifThen s ih =>
    obtain ⟨⟨inner, returns⟩, hinner, h⟩ := h
    cases h
    refine ⟨fun σ hcode _ => openAt_of_line hcode.1, fun σ hp hcode hspan hnext _ => ?_⟩
    simp only [patchJumpsTo_cons, stands_cons, every_cons, length_cons, Line.patch,
      Instr.patch, hp.addr] at *
    obtain ⟨heval, hjump, hcode⟩ := hcode
    have hafter : openAt code (pos + 2 + inner.length) = some st.tries := by
      rw [← hnext (.inr trivial)]
      congr 1
      omega
    have hopen := (ih hinner).opened nofun hcode fun _ => hafter
    refine ⟨?_, ?_, ?_⟩
    · exact lineOk_some hp.chain (hspan.mono (by omega) (by omega)) (openAt_of_line hjump)
    · exact lineOk_some hp.chain (hspan.mono (by omega) (by omega)) ⟨hopen, _, rfl, hafter⟩
    · exact (ih hinner).every nofun hcode (fun _ => hafter) hp hspan (by omega) (by omega)
  | ifElse s1 s2 ih1 ih2 =>
    obtain ⟨⟨code1, returns1⟩, h1, ⟨code2, returns2⟩, h2, h⟩ := h
    cases h
    refine ⟨fun σ hcode _ => openAt_of_line hcode.1, fun σ hp hcode hspan hnext _ => ?_⟩
    simp only [patchJumpsTo_cons, patchJumpsTo_append, stands_cons, stands_append, every_cons,
      every_append, length_patchJumpsTo, length_cons, length_append, Line.patch,
      Instr.patch, hp.addr] at *
    obtain ⟨heval, hjump, hcode1, hdone, hcode2⟩ := hcode
    have hafter (h : (returns1 && returns2) = false) :
        openAt code (pos + 2 + code1.length + 1 + code2.length) = some st.tries := by
      rw [← hnext (.inr h)]
      congr 1
      omega
    have hafter2 (h : returns2 = false) := hafter (by rw [h, Bool.and_false])
    have hafter1 (h : returns1 = false) := openAt_live hdone (.inr h)
    have hopen2 := (ih2 h2).opened nofun hcode2 hafter2
    have hopen1 := (ih1 h1).opened nofun hcode1 hafter1
    refine ⟨?_, ?_, ?_, ?_, ?_⟩
    · exact lineOk_some hp.chain (hspan.mono (by omega) (by omega)) (openAt_of_line hjump)
    · exact lineOk_some hp.chain (hspan.mono (by omega) (by omega)) ⟨hopen1, _, rfl, hopen2⟩
    · exact (ih1 h1).every nofun hcode1 hafter1 hp hspan (by omega) (by omega)
    · refine lineOk_live hp.chain (hspan.mono (by omega) (by omega)) fun h => ?_
      exact ⟨_, _, rfl, hafter (by rw [h, Bool.false_and]), fun _ => .inl rfl⟩
    · exact (ih2 h2).every nofun hcode2 hafter2 hp hspan (by omega) (by omega)
  | whileLoop s ih =>
    obtain ⟨⟨inner, returns⟩, hinner, h⟩ := h
    cases h
    refine ⟨fun σ hcode _ => openAt_of_line hcode.1, fun σ hp hcode hspan hnext _ => ?_⟩
    simp only [patchJumpsTo_cons, patchJumpsTo_append, patchJumpsTo_patchJumpsTo, patchJumpsTo_nil,
      stands_cons, stands_append, every_cons, every_append, length_patchJumpsTo, length_cons,
      length_append, length_nil, Line.patch, Instr.patch, hp.addr] at *
    obtain ⟨heval, hjump, hcode, hback, -⟩ := hcode
    have hstart : openAt code pos = some st.tries := openAt_of_line heval
    have hstop : openAt code (pos + 2 + inner.length + 1) = some st.tries := by
      rw [← hnext (.inr trivial)]
      congr 1
      omega
    have hafter (h : returns = false) := openAt_live hback (.inr h)
    have hopen := (ih hinner).opened nofun hcode hafter
    refine ⟨?_, ?_, ?_, ?_, trivial⟩
    · exact lineOk_some hp.chain (hspan.mono (by omega) (by omega)) (openAt_of_line hjump)
    · exact lineOk_some hp.chain (hspan.mono (by omega) (by omega)) ⟨hopen, _, rfl, hstop⟩
    · exact (ih hinner).every nofun hcode hafter (hp.inLoop hstart hstop) hspan (by omega)
        (by omega)
    · exact lineOk_live hp.chain (hspan.mono (by omega) (by omega))
        fun _ => ⟨_, _, rfl, hstart, fun _ => .inl rfl⟩
  | forLoop init next cond s ihinit ihs =>
    obtain ⟨⟨first, returns⟩, hfirst, ⟨inner, innerReturns⟩, hinner, h⟩ := h
    cases h
    refine ⟨fun σ hcode _ => ?_, fun σ hp hcode hspan hnext _ => ?_⟩
    all_goals
      simp only [patchJumpsTo_cons, patchJumpsTo_append, patchJumpsTo_patchJumpsTo,
        patchJumpsTo_nil, stands_cons, stands_append, every_cons, every_append,
        length_patchJumpsTo, length_cons, length_append, length_nil,
        length_emitForHead, Line.patch, Instr.patch, Nat.zero_add, ← Nat.add_assoc] at *
      obtain ⟨⟨hfirstCode, hheadCode, hcode⟩, hback, -⟩ := hcode
      have hafter (h : innerReturns = false) := openAt_live hback (.inr h)
      have hbody := (ihs hinner).opened nofun hcode hafter
      obtain ⟨hhead, hstart⟩ := opens_forHead hheadCode hbody
    · exact (ihinit hfirst).opened nofun hfirstCode fun _ => hhead
    · have hstop := hnext (.inr trivial)
      have hp' := hp.inLoop hstart hstop
      refine ⟨⟨?_, ?_, ?_⟩, ?_, trivial⟩
      · exact (ihinit hfirst).every nofun hfirstCode (fun _ => hhead) hp' hspan (by omega)
          (by omega)
      · exact sound_forHead hp'.addr hp.chain hspan (by omega) (by omega) hheadCode hbody hstop
      · exact (ihs hinner).every nofun hcode hafter hp' hspan (by omega) (by omega)
      · exact lineOk_live hp.chain (hspan.mono (by omega) (by omega))
          fun _ => ⟨_, _, hp.addr _, hstart, fun _ => .inl rfl⟩
  | breakLoop depth =>
    obtain ⟨loop, hloop, h⟩ := h
    cases h
    exact fits_leave fun σ hp => hp.breaks loop (mem_of_getElem? hloop)
  | continueLoop depth =>
    obtain ⟨loop, hloop, h⟩ := h
    cases h
    exact fits_leave fun σ hp => hp.continues loop (mem_of_getElem? hloop)
  | returns =>
    obtain ⟨inner, hinner, h⟩ := h
    cases h
    exact fits_return hinner
  | tryCatch s cs ihs ihcs =>
    obtain ⟨body, hbody, handlers, hhandlers, h⟩ := h
    cases h
    exact fits_try (ihs hbody) (ihcs hhandlers)
      ⟨fun _ _ hnext => hnext (.inr rfl), fun _ _ _ _ _ _ => trivial⟩
      (by rintro (h | h) <;> simp [h])
  | tryFinally s cs f ihs ihcs ihf =>
    obtain ⟨body, hbody, handlers, hhandlers, fin, hfin, h⟩ := h
    cases h
    exact fits_try (ihs hbody) (ihcs hhandlers) (ihf hfin) (by rintro (h | h) <;> simp [h])
  | handler p s rest ihs ihrest =>
    obtain ⟨⟨inner, returns⟩, hinner, ⟨others, othersReturn⟩, hothers, h⟩ := h
    cases h
    refine ⟨fun σ hcode _ => openAt_of_line hcode.1, fun σ hp hcode hspan hnext hsuccess => ?_⟩
    simp only [patchJumpsTo_cons, patchJumpsTo_append, stands_cons, stands_append, every_cons,
      every_append, length_patchJumpsTo, length_cons, length_append, Line.patch,
      Instr.patch, hp.addr] at *
    obtain ⟨hmatch, hcode, hjump, hcodeOthers⟩ := hcode
    have hlast : openAt code (pos + 1 + inner.length + 1 + others.length) = some st.tries := by
      rw [← hnext (.inl trivial)]
      congr 1
      omega
    have hafter (h : returns = false) := openAt_live hjump (.inr h)
    have hopenOthers := (ihrest hothers).opens σ hcodeOthers fun _ => hlast
    have hopen := (ihs hinner).opened nofun hcode hafter
    refine ⟨?_, ?_, ?_, ?_⟩
    · exact lineOk_some hp.chain (hspan.mono (by omega) (by omega)) ⟨hopen, _, rfl, hopenOthers⟩
    · exact (ihs hinner).every nofun hcode hafter hp hspan (by omega) (by omega)
    · refine lineOk_live hp.chain (hspan.mono (by omega) (by omega)) fun h => ?_
      obtain ⟨b, hb, hopen⟩ := hsuccess trivial (by rw [h, Bool.false_and])
      exact ⟨b, _, hb, hopen, fun _ => .inl rfl⟩
    · exact (ihrest hothers).sound σ hp hcodeOthers (hspan.mono (by omega) (by simp only; omega))
        (fun _ => hlast)
        fun _ h => hsuccess trivial (by rw [show othersReturn = false from h, Bool.and_false])

lemma promised_start : Promised code id ⟨[], [], 0⟩ where
  addr _ := rfl
  chain := trivial
  tryStamps := nofun
  loopStamps := nofun
  breaks := nofun
  continues := nofun

/-- In the code of a function every line agrees with the try statements noted at
it, and none is open at the first one. -/
lemma emitFunction_ok {body : Node E .stmt} (h : emitFunction body = some code) :
    openAt code 0 = some [] ∧ ∀ a line, code[a]? = some line → LineOk code a line := by
  simp only [emitFunction, Option.bind_eq_bind, Option.bind_eq_some_iff] at h
  obtain ⟨⟨lines, returns⟩, hlines, h⟩ := h
  have hwhole : Stands code 0 code := stands_self [] code
  have hspan (lo hi : Nat) : Span code lo hi [] := nofun
  suffices openAt code 0 = some [] ∧ Every (LineOk code) 0 code by
    refine ⟨this.1, fun a line hline => ?_⟩
    simpa using this.2.get hline
  cases returns with
  | true =>
    cases h
    have hcode : Stands lines 0 (patchJumpsTo id lines) := by rwa [patchJumpsTo_id]
    refine ⟨(emitStatement_fits body hlines).opened nofun hcode nofun, ?_⟩
    have hall := (emitStatement_fits body hlines).every nofun hcode nofun promised_start
      (hspan 0 _) .refl .refl
    rwa [patchJumpsTo_id] at hall
  | false =>
    cases h
    have hcode : Stands (lines ++ [⟨.RETURN, some []⟩]) 0 (patchJumpsTo id lines) := by
      rw [patchJumpsTo_id]
      exact (stands_append.mp hwhole).1
    have hafter : openAt (lines ++ [⟨.RETURN, some []⟩]) (0 + lines.length) = some [] :=
      openAt_of_line (stands_append.mp hwhole).2.1
    refine ⟨(emitStatement_fits body hlines).opened nofun hcode fun _ => hafter,
      every_append.mpr ⟨?_, lineOk_some trivial (hspan _ _) rfl, trivial⟩⟩
    have hall := (emitStatement_fits body hlines).every nofun hcode (fun _ => hafter)
      promised_start (hspan 0 _) .refl .refl
    rwa [patchJumpsTo_id] at hall

end TyLang.Try
