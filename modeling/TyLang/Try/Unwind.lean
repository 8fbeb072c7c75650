import TyLang.Lib.Runs
import TyLang.Try.Steps

/-!
`TRY_STACK` while a function runs. Its entries are those of the try statements
that are open at the instruction pointer, as long as no `break` or `continue`
jumps out of a finally block.
-/
namespace TyLang.Try

variable {E : Type} {code : List (Line E)} {s : State E} {body : Node E .stmt}

section
variable (code : List (Line E))

def State.Agrees (s : State E) : Prop :=
  ∃ tries, openAt code s.ip = some tries ∧ Try.Agrees code tries s.tries

def Result.Agrees : Result E → Prop
  | .running s => s.Agrees code
  | .returned entries => entries = []
  | .uncaught _ | .aborted _ => True
  | .stuck => False

/-- The entries of `TRY_STACK` are those of the try statements open at the
instruction pointer. So its height at the end of a statement is that at its
beginning, and an exception goes to no statement that has been left. -/
def State.Balanced (s : State E) : Prop :=
  ∃ tries, openAt code s.ip = some tries ∧ s.tries.length = tries.length ∧
    ∀ (i : Nat) (y : TryState) (t : Entry), tries[i]? = some y → s.tries[i]? = some t →
      ∃ c f e inside, code[y.pos]? = some ⟨.TRY c f e, inside⟩ ∧ t.catchAt = c ∧ t.finallyAt = f

def Result.Balanced : Result E → Prop
  | .running s => s.Balanced code
  | .returned entries => entries = []
  | .uncaught _ | .aborted _ => True
  | .stuck => False

def Result.JumpsInside : Result E → Prop
  | .running s => s.JumpsInside code
  | _ => True

end

lemma State.Agrees.balanced (h : s.Agrees code) : s.Balanced code := by
  obtain ⟨tries, hopen, hagrees⟩ := h
  exact ⟨tries, hopen, hagrees.length, fun i y t => hagrees.get⟩

section Steps
variable (hok : ∀ a line, code[a]? = some line → LineOk code a line)
include hok

lemma Thrown.agrees {kept : List TryState} {r : Result E} (h : Thrown code kept r) :
    r.Agrees code := by
  cases h with
  | uncaught | aborted => trivial
  | delivered line ctx ip after agrees =>
    obtain ⟨stamp, -, hcatch, -⟩ := openAt_parts hok line
    exact ⟨_, by rw [ip, hcatch], by rw [after]; exact .cons line .handler agrees⟩
  | unhandled line ctx ip after agrees =>
    obtain ⟨stamp, -, -, hfinally⟩ := openAt_parts hok line
    exact ⟨_, by rw [ip, hfinally], by rw [after]; exact .cons line .pending agrees⟩

lemma Steps.agrees {tries : List TryState} {instr : Instr E} {past : Option Nat}
    {r : Result E} (hline : code[s.ip]? = some ⟨instr, some tries⟩)
    (hagrees : Agrees code tries s.tries) (h : Steps code s tries instr past r) :
    r.Agrees code := by
  cases h with
  | stay other inner on same => exact ⟨tries, on, by rwa [same]⟩
  | enter is on pushed =>
    cases is
    exact ⟨_, on, by rw [pushed]; exact .cons hline .body hagrees⟩
  | finish open_eq line route inner before ip after tracks agrees =>
    obtain ⟨stamp, -, -, hfinally⟩ := openAt_parts hok line
    exact ⟨_, by rw [ip, hfinally], by rw [after]; exact .cons line tracks agrees⟩
  | close is open_eq ctx on before after agrees => exact ⟨_, on, by rwa [after]⟩
  | @throws k s1 other inner finished rest =>
    obtain ⟨gone, kept, -, -, -, hthrown⟩ :=
      doThrow_cases (s := s1) (by rw [rest]; exact hagrees.drop k)
    exact hthrown.agrees hok
  | returns => rfl

lemma step_agrees (o : Outcome E) (h : s.Agrees code) (hjump : s.JumpsInside code) :
    (step code s o).Agrees code := by
  obtain ⟨tries, hopen, hagrees⟩ := h
  obtain ⟨instr, hline⟩ := line_of_openAt hopen
  rw [step_eq hline]
  exact (exec_cases hok o hline hagrees hjump).agrees hok hline hagrees

omit hok in
/-- A step that jumps past the end of an open try statement leaves its entry. -/
lemma not_balanced_of_jump (o : Outcome E) (h : s.Agrees code)
    (hjump : ¬ s.JumpsInside code) : ¬ (step code s o).Balanced code := by
  obtain ⟨tries, hopen, hagrees⟩ := h
  simp only [State.JumpsInside, not_forall] at hjump
  obtain ⟨b, tries', there, hline, hthere, hne⟩ := hjump
  cases hopen.symm.trans (openAt_of_line hline)
  rw [step_eq hline]
  rintro ⟨there', hthere', hlength, -⟩
  cases hthere.symm.trans hthere'
  exact hne (hlength.symm.trans hagrees.length)

end Steps

lemma agrees_start (h : emitFunction body = some code)
    (w : Nat → Outcome E) : (run code w 0).Agrees code :=
  ⟨[], (emitFunction_ok h).1, .nil⟩

lemma run_agrees_step (h : emitFunction body = some code)
    (w : Nat → Outcome E) (n : Nat) (hn : (run code w n).Agrees code)
    (hjump : (run code w n).JumpsInside code) : (run code w (n + 1)).Agrees code := by
  rw [run]
  cases hr : run code w n with
  | running s =>
    rw [hr] at hn hjump
    exact step_agrees (emitFunction_ok h).2 (w n) hn hjump
  | _ =>
    rwa [hr] at hn

/-- In a run of a function, `TRY_STACK` holds the entries of the open try
statements, and none when the function returns, if and only if no instruction
that is executed jumps past the end of an open try statement. -/
theorem run_balanced_iff {body : Node E .stmt} (h : emitFunction body = some code)
    (w : Nat → Outcome E) :
    (∀ n, (run code w n).Balanced code) ↔ ∀ n, (run code w n).JumpsInside code := by
  refine Runs.forall_iff_of_invariant (agrees_start h w) (run_agrees_step h w) ?_ ?_
  · intro n hn _
    cases hr : run code w n with
    | running s =>
      rw [hr] at hn
      exact State.Agrees.balanced hn
    | _ =>
      rwa [hr] at hn
  · intro n hn hjump hboth
    have hnext := hboth.2
    rw [run] at hnext
    cases hr : run code w n with
    | running s =>
      rw [hr] at hn hjump hnext
      exact not_balanced_of_jump (w n) hn hjump hnext
    | _ =>
      rw [hr] at hjump
      exact hjump trivial

/-- The code has no jump past the end of an open try statement. -/
def jumpsInside (code : List (Line E)) : Bool :=
  code.all fun line =>
    match line with
    | ⟨.JUMP (.addr b), some tries⟩ => (openAt code b).all fun there => there.length == tries.length
    | _ => true

/-- The condition on a run can be checked in its code. -/
lemma run_jumpsInside (h : jumpsInside code) (w : Nat → Outcome E) (n : Nat) :
    (run code w n).JumpsInside code := by
  cases run code w n with
  | returned | uncaught | aborted | stuck => trivial
  | running s =>
    intro b tries there hline hthere
    have hall := List.all_eq_true.mp h _ (List.mem_of_getElem? hline)
    simpa [hthere] using hall

section Examples

def anything : Nat → Bool := fun _ => true

/-- `while c { try { break } catch _ { } finally { e } }` -/
def breakInBody : Node Nat .stmt :=
  .whileLoop (.tryFinally (.breakLoop 1) (.handler anything (.block .nil) .noHandler) .expression)

lemma emitFunction_breakInBody :
    ∃ code, emitFunction breakInBody = some code ∧ jumpsInside code := by
  have hcheck : (emitFunction breakInBody).any jumpsInside := rfl
  simpa [Option.any_eq_true] using hcheck

theorem run_breakInBody_balanced :
    ∃ code, emitFunction breakInBody = some code ∧ ∀ w n, (run code w n).Balanced code := by
  obtain ⟨code, hcode, hcheck⟩ := emitFunction_breakInBody
  exact ⟨code, hcode, fun w => (run_balanced_iff hcode w).mpr (run_jumpsInside hcheck w)⟩

/-- `while c { try { e } catch _ { } finally { break } } throw 1` -/
def breakInFinally : Node Nat .stmt :=
  .block (.cons (.whileLoop (.tryFinally .expression (.handler anything (.block .nil) .noHandler)
    (.breakLoop 1))) (.cons (.throw 1) .nil))

/-- After the loop the entry is still there, and the exception goes to the catch
clause in the loop. -/
theorem run_breakInFinally_leaks :
    ∃ code s s', emitFunction breakInFinally = some code ∧
      run code (fun _ => .value true) 6 = .running s ∧ openAt code s.ip = some [] ∧
      s.tries.length = 1 ∧ ¬ s.Balanced code ∧
      run code (fun _ => .value true) 8 = .running s' ∧ s'.ip = 5 ∧
      s'.tries.map Entry.catchAt = [5] := by
  refine ⟨_, _, _, rfl, rfl, rfl, rfl, ?_, rfl, rfl, rfl⟩
  rintro ⟨tries, hopen, hlength, -⟩
  cases hopen
  cases hlength

end Examples

end TyLang.Try
