import TyLang.Try.Layout

/-!
What one step of the VM does to `TRY_STACK`, in terms of the try statements that
are open before and after it. All that follows about runs is derived from these
two case distinctions, one for `DoThrow` and one for the instructions.
-/
namespace TyLang.Try

variable {E : Type} {code : List (Line E)} {tries : List TryState} {entries : List Entry}

/-- The entry of a try statement with the addresses `c`, `f` and `e`, by what the
statement is doing. In the finally block the entry tells how the block was
entered: after the body, through `CATCH` or `FINALLY`, or with an exception. -/
inductive Tracks (code : List (Line E)) (rest : List TryState) (c f e : Nat) :
    TryPhase → Entry → Prop
  | body : Tracks code rest c f e .TRY_TRY ⟨c, f, some e, .TRY_TRY⟩
  | handler : Tracks code rest c f e .TRY_CATCH ⟨c, f, some e, .TRY_CATCH⟩
  | completed (h : openAt code e = some rest) :
      Tracks code rest c f e .TRY_FINALLY ⟨c, f, some e, .TRY_TRY⟩
  | left {q : Nat} (h : openAt code q = some rest) :
      Tracks code rest c f e .TRY_FINALLY ⟨c, f, some q, .TRY_FINALLY⟩
  | pending : Tracks code rest c f e .TRY_FINALLY ⟨c, f, none, .TRY_THROW⟩

inductive Agrees (code : List (Line E)) : List TryState → List Entry → Prop
  | nil : Agrees code [] []
  | cons {y : TryState} {rest : List TryState} {t : Entry} {entries : List Entry} {c f e : Nat}
      (line : code[y.pos]? = some ⟨.TRY c f e, some rest⟩)
      (tracks : Tracks code rest c f e y.ctx t) (others : Agrees code rest entries) :
      Agrees code (y :: rest) (t :: entries)

lemma Agrees.length (h : Agrees code tries entries) : entries.length = tries.length := by
  induction h with
  | nil => rfl
  | cons _ _ _ ih => simp [ih]

lemma Tracks.addresses {rest : List TryState} {c f e : Nat} {ctx : TryPhase} {t : Entry}
    (h : Tracks code rest c f e ctx t) : t.catchAt = c ∧ t.finallyAt = f := by
  cases h <;> exact ⟨rfl, rfl⟩

lemma Agrees.get (h : Agrees code tries entries)
    {i : Nat} {y : TryState} {t : Entry} (hy : tries[i]? = some y) (ht : entries[i]? = some t) :
    ∃ c f e inside, code[y.pos]? = some ⟨.TRY c f e, inside⟩ ∧ t.catchAt = c ∧ t.finallyAt = f := by
  induction h generalizing i with
  | nil => cases hy
  | cons line tracks _ ih =>
    cases i with
    | zero =>
      cases hy
      cases ht
      exact ⟨_, _, _, _, line, tracks.addresses⟩
    | succ i => exact ih hy ht

lemma Agrees.drop (h : Agrees code tries entries)
    (k : Nat) : Agrees code (tries.drop k) (entries.drop k) := by
  induction k generalizing tries entries with
  | zero => exact h
  | succ k ih =>
    cases h with
    | nil => exact .nil
    | cons _ _ others => exact ih others

lemma line_of_openAt {a : Nat} (h : openAt code a = some tries) :
    ∃ instr, code[a]? = some ⟨instr, some tries⟩ := by
  unfold openAt at h
  cases hline : code[a]? with
  | none => simp [hline] at h
  | some line =>
    rw [hline] at h
    cases line with
    | mk instr inside =>
      cases h
      exact ⟨instr, rfl⟩

/-- The next instruction is no jump past the end of an open try statement. By
`exits_eq_iff` the only such jumps are those of a `break` or `continue` in a
finally block of a try statement that it leaves. -/
def State.JumpsInside (code : List (Line E)) (s : State E) : Prop :=
  ∀ b tries there, code[s.ip]? = some ⟨.JUMP (.addr b), some tries⟩ →
    openAt code b = some there → there.length = tries.length

/-- The number of entries that are off `TRY_STACK` when the instruction calls
`DoThrow`, if it does. -/
def throwsPast (s : State E) (o : Outcome E) : Instr E → Option Nat
  | .EVAL | .MATCH _ _ =>
    match o with
    | .raise _ => some 0
    | .value _ => none
  | .THROW _ => some 0
  | .END_TRY =>
    match s.tries with
    | ⟨_, _, none, _⟩ :: _ => some 1
    | _ => none
  | _ => none

/-- An exception leaves the innermost finally blocks that are running only where
`DoThrow` pops their entries. -/
def MayLeave : List TryState → List Entry → Prop
  | y :: tries, t :: entries =>
    y.ctx = .TRY_FINALLY → t.state = .TRY_FINALLY ∧ MayLeave tries entries
  | _, _ => True

/-- How `DoThrow` ends when `kept` are the try statements whose entries it does
not pop: the innermost one takes the exception to its catch clauses, or from
there to its finally block, or the process is aborted. -/
inductive Thrown (code : List (Line E)) : List TryState → Result E → Prop
  | uncaught {exc : Option E} : Thrown code [] (.uncaught exc)
  | delivered {y : TryState} {rest : List TryState} {others : List Entry} {c f e : Nat}
      {s' : State E} (line : code[y.pos]? = some ⟨.TRY c f e, some rest⟩)
      (ctx : y.ctx ≠ .TRY_CATCH) (ip : s'.ip = c)
      (after : s'.tries = ⟨c, f, some e, .TRY_CATCH⟩ :: others) (agrees : Agrees code rest others) :
      Thrown code (y :: rest) (.running s')
  | unhandled {y : TryState} {rest : List TryState} {others : List Entry} {c f e : Nat}
      {s' : State E} (line : code[y.pos]? = some ⟨.TRY c f e, some rest⟩)
      (ctx : y.ctx = .TRY_CATCH) (ip : s'.ip = f)
      (after : s'.tries = ⟨c, f, none, .TRY_THROW⟩ :: others) (agrees : Agrees code rest others) :
      Thrown code (y :: rest) (.running s')
  | aborted {y : TryState} {rest : List TryState} {exc : Option E} (ctx : y.ctx = .TRY_FINALLY) :
      Thrown code (y :: rest) (.aborted exc)

/-- The entries that `DoThrow` pops are those of finally blocks that may be left. -/
lemma Agrees.popped (h : Agrees code tries entries) :
    ∃ gone kept, tries = gone ++ kept ∧ (∀ y ∈ gone, y.ctx = .TRY_FINALLY) ∧
      Agrees code kept (entries.dropWhile fun t => decide (t.state = .TRY_FINALLY)) ∧
      (∀ t ∈ (entries.dropWhile fun t => decide (t.state = .TRY_FINALLY)).head?,
        t.state ≠ .TRY_FINALLY) ∧
      (MayLeave tries entries ↔ ∀ y ∈ kept.head?, y.ctx ≠ .TRY_FINALLY) := by
  induction h with
  | nil => exact ⟨[], [], rfl, nofun, .nil, nofun, by simp [MayLeave]⟩
  | @cons y rest t entries c f e line tracks others ih =>
    by_cases hstate : t.state = .TRY_FINALLY
    · have hctx : y.ctx = .TRY_FINALLY := by
        generalize y.ctx = ctx at tracks
        cases tracks with
        | body | handler | completed | pending => cases hstate
        | left => rfl
      obtain ⟨gone, kept, rfl, hgone, hkept, hhead, hleave⟩ := ih
      rw [List.dropWhile_cons_of_pos (by simpa using hstate)]
      refine ⟨y :: gone, kept, rfl, ?_, hkept, hhead, ?_⟩
      · intro z hz
        rcases List.mem_cons.mp hz with rfl | hz
        · exact hctx
        · exact hgone z hz
      · rw [← hleave]
        exact ⟨fun h => (h hctx).2, fun h _ => ⟨hstate, h⟩⟩
    · rw [List.dropWhile_cons_of_neg (by simpa using hstate)]
      refine ⟨[], y :: rest, rfl, nofun, .cons line tracks others, ?_, ?_⟩
      · rintro _ ⟨⟩
        exact hstate
      · refine ⟨?_, fun h hctx => absurd hctx (h y rfl)⟩
        rintro h _ ⟨⟩ hctx
        exact hstate (h hctx).1

variable {s : State E}

/-- `DoThrow`, wherever the exception comes from. -/
lemma doThrow_cases (h : Agrees code tries s.tries) :
    ∃ gone kept, tries = gone ++ kept ∧ (∀ y ∈ gone, y.ctx = .TRY_FINALLY) ∧
      (MayLeave tries s.tries ↔ ∀ y ∈ kept.head?, y.ctx ≠ .TRY_FINALLY) ∧
      Thrown code kept (doThrow s) := by
  obtain ⟨gone, kept, htries, hgone, hkept, hhead, hleave⟩ := h.popped
  refine ⟨gone, kept, htries, hgone, hleave, ?_⟩
  unfold doThrow
  generalize s.tries.dropWhile (fun t => decide (t.state = .TRY_FINALLY)) = entries at hkept hhead
  cases hkept with
  | nil => exact .uncaught
  | @cons y rest t entries c f e line tracks others =>
    have hstate := hhead t rfl
    generalize hctx : y.ctx = ctx at tracks
    cases tracks with
    | body | completed => exact .delivered line (by rw [hctx]; nofun) rfl rfl others
    | handler => exact .unhandled line hctx rfl rfl others
    | left => exact absurd rfl hstate
    | pending => exact .aborted hctx

/-- What one step does when the try statements `tries` are open and `past` says
which entries an exception passes by. -/
inductive Steps (code : List (Line E)) (s : State E) (tries : List TryState) (instr : Instr E) :
    Option Nat → Result E → Prop
  | stay {s' : State E} (other : instr ≠ .FINALLY) (inner : ∀ c f e, instr ≠ .TRY c f e)
      (on : openAt code s'.ip = some tries) (same : s'.tries = s.tries) :
      Steps code s tries instr none (.running s')
  | enter {s' : State E} {c f e stamp : Nat} (is : instr = .TRY c f e)
      (on : openAt code s'.ip = some (⟨s.ip, stamp, .TRY_TRY⟩ :: tries))
      (pushed : s'.tries = ⟨c, f, some e, .TRY_TRY⟩ :: s.tries) :
      Steps code s tries instr none (.running s')
  | finish {s' : State E} {y : TryState} {rest : List TryState} {t t' : Entry}
      {others : List Entry} {c f e : Nat} (open_eq : tries = y :: rest)
      (line : code[y.pos]? = some ⟨.TRY c f e, some rest⟩)
      (route : y.ctx ≠ .TRY_FINALLY ∨ instr = .FINALLY) (inner : ∀ c f e, instr ≠ .TRY c f e)
      (before : s.tries = t :: others) (ip : s'.ip = f) (after : s'.tries = t' :: others)
      (tracks : Tracks code rest c f e .TRY_FINALLY t') (agrees : Agrees code rest others) :
      Steps code s tries instr none (.running s')
  | close {s' : State E} {y : TryState} {rest : List TryState} {t : Entry} {others : List Entry}
      (is : instr = .END_TRY) (open_eq : tries = y :: rest) (ctx : y.ctx = .TRY_FINALLY)
      (on : openAt code s'.ip = some rest) (before : s.tries = t :: others)
      (after : s'.tries = others) (agrees : Agrees code rest others) :
      Steps code s tries instr none (.running s')
  | throws {k : Nat} {s₁ : State E} (other : instr ≠ .FINALLY)
      (inner : ∀ c f e, instr ≠ .TRY c f e)
      (finished : ∀ y ∈ tries.take k, y.ctx = .TRY_FINALLY) (rest : s₁.tries = s.tries.drop k) :
      Steps code s tries instr (some k) (doThrow s₁)
  | returns (other : instr ≠ .FINALLY) (open_eq : tries = []) :
      Steps code s tries instr none (.returned [])

lemma step_eq {instr : Instr E} {inside : Option (List TryState)}
    (hline : code[s.ip]? = some ⟨instr, inside⟩) (o : Outcome E) :
    step code s o = exec s o instr := by
  rw [step, hline]

section Instructions
variable (hok : ∀ a line, code[a]? = some line → LineOk code a line)
include hok

lemma openAt_parts {y : TryState} {rest : List TryState} {c f e : Nat}
    (line : code[y.pos]? = some ⟨.TRY c f e, some rest⟩) :
    ∃ t, openAt code (y.pos + 1) = some (⟨y.pos, t, .TRY_TRY⟩ :: rest) ∧
      openAt code c = some (⟨y.pos, t, .TRY_CATCH⟩ :: rest) ∧
      openAt code f = some (⟨y.pos, t, .TRY_FINALLY⟩ :: rest) :=
  (hok _ _ line).instr rest rfl

lemma exec_cases (o : Outcome E) {instr : Instr E}
    (hline : code[s.ip]? = some ⟨instr, some tries⟩) (hagrees : Agrees code tries s.tries)
    (hjump : s.JumpsInside code) :
    Steps code s tries instr (throwsPast s o instr) (exec s o instr) := by
  have hinstr := (hok _ _ hline).instr tries rfl
  cases instr with
  | EVAL =>
    cases o with
    | raise exc => exact .throws nofun nofun nofun rfl
    | value _ => exact .stay nofun nofun hinstr rfl
  | JUMP target =>
    obtain ⟨b, there, rfl, hthere, hcases⟩ := hinstr
    rcases hcases (hjump b tries there hline hthere) with rfl | hcompletes
    · exact .stay nofun nofun hthere rfl
    obtain ⟨y, rest, c, e, rfl, hctx, line, he⟩ := hcompletes
    generalize hentries : s.tries = entries at hagrees
    cases hagrees with
    | cons line' tracks others =>
      cases line.symm.trans line'
      rw [hctx] at tracks
      cases tracks
      exact .finish rfl line (.inl (by rw [hctx]; nofun)) nofun hentries rfl hentries
        (.completed he) others
  | JUMP_IF_NOT target =>
    obtain ⟨hnext, b, rfl, hb⟩ := hinstr
    cases o with
    | raise exc => exact .stay nofun nofun hnext rfl
    | value truthy =>
      cases truthy with
      | true => exact .stay nofun nofun hnext rfl
      | false => exact .stay nofun nofun hb rfl
  | MATCH pattern fail =>
    obtain ⟨hnext, b, rfl, hb⟩ := hinstr
    cases o with
    | raise exc => exact .throws nofun nofun nofun rfl
    | value _ =>
      simp only [exec]
      split
      · exact .stay nofun nofun hnext rfl
      · exact .stay nofun nofun hb rfl
  | THROW exc => exact .throws nofun nofun nofun rfl
  | TRY c f e =>
    obtain ⟨stamp, hbody, -, -⟩ := hinstr
    exact .enter rfl hbody rfl
  | RETHROW =>
    obtain ⟨y, rest, rfl, hctx⟩ := hinstr
    generalize hentries : s.tries = entries at hagrees
    cases hagrees with
    | cons line tracks others =>
      rw [hctx] at tracks
      cases tracks
      simp only [exec, hentries]
      exact .finish rfl line (.inl (by rw [hctx]; nofun)) nofun hentries rfl rfl .pending others
  | CATCH =>
    obtain ⟨y, rest, c, e, rfl, hctx, line, he⟩ := hinstr
    generalize hentries : s.tries = entries at hagrees
    cases hagrees with
    | cons line' tracks others =>
      cases line.symm.trans line'
      rw [hctx] at tracks
      cases tracks
      simp only [exec, hentries]
      exact .finish rfl line (.inl (by rw [hctx]; nofun)) nofun hentries rfl rfl (.left he)
        others
  | FINALLY =>
    obtain ⟨y, rest, rfl, hnext⟩ := hinstr
    generalize hentries : s.tries = entries at hagrees
    cases hagrees with
    | cons line tracks others =>
      obtain ⟨rfl, rfl⟩ := tracks.addresses
      simp only [exec, hentries]
      exact .finish rfl line (.inr rfl) nofun hentries rfl rfl (.left hnext) others
  | END_TRY =>
    obtain ⟨y, rest, rfl, hctx⟩ := hinstr
    generalize hentries : s.tries = entries at hagrees
    cases hagrees with
    | cons line tracks others =>
      rw [hctx] at tracks
      cases tracks with
      | completed h | left h =>
        simp only [exec, throwsPast, hentries]
        exact .close rfl rfl hctx h hentries rfl others
      | pending =>
        simp only [exec, throwsPast, hentries]
        refine .throws (by simp) (by simp) ?_ (by rw [hentries]; rfl)
        simpa using hctx
  | RETURN =>
    cases hinstr
    generalize hentries : s.tries = entries at hagrees
    cases hagrees
    simp only [exec, hentries]
    exact .returns (by simp) rfl

end Instructions

end TyLang.Try
