import TyLang.Try.Unwind

/-!
How often the finally block of a try statement is started between the push of
its entry on `TRY_STACK` and the removal of that entry. The count is kept beside
the run, from what can be seen of it: the addresses in the entries and the
instruction pointer before and after a step.
-/
namespace TyLang.Try
open List

variable {E : Type} {code : List (Line E)} {tries : List TryState} {s s' : State E}

def isFinally : Option (Line E) → Bool
  | some ⟨.FINALLY, _⟩ => true
  | _ => false

def isTry : Option (Line E) → Bool
  | some ⟨.TRY _ _ _, _⟩ => true
  | _ => false

/-- The step from `s` to `s'` starts the finally block of the innermost try
statement: control comes to it from before, or through `FINALLY`. A loop at the
beginning of the block comes back to it from behind. -/
def startsFinally (code : List (Line E)) (s s' : State E) : Bool :=
  match s'.tries with
  | [] => false
  | t :: _ => decide (s'.ip = t.finallyAt) && (decide (s.ip < t.finallyAt) || isFinally code[s.ip]?)

def countStart : List Nat → List Nat
  | [] => []
  | c :: counts => (c + 1) :: counts

def track (code : List (Line E)) (s s' : State E) (counts : List Nat) : List Nat :=
  let counts :=
    if isTry code[s.ip]? then 0 :: counts else counts.drop (s.tries.length - s'.tries.length)
  if startsFinally code s s' then countStart counts else counts

def counts (code : List (Line E)) (w : Nat → Outcome E) : Nat → List Nat
  | 0 => []
  | n + 1 =>
    match run code w n, run code w (n + 1) with
    | .running s, .running s' => track code s s' (counts code w n)
    | _, _ => []

/-- Every entry that a step removes has seen its finally block started once, and
the process is not aborted. -/
def LeavesOnce (counts : List Nat) (s : State E) : Result E → Prop
  | .running s' => ∀ c ∈ counts.take (s.tries.length - s'.tries.length), c = 1
  | .returned _ => counts = []
  | .uncaught _ => ∀ c ∈ counts, c = 1
  | .aborted _ | .stuck => False

/-- An exception has been delivered to the catch clauses of the innermost try
statement. -/
def State.AtCatch (s : State E) : Prop := ∃ t others, s.tries = t :: others ∧ s.ip = t.catchAt

section
variable (code : List (Line E)) (o : Outcome E)

/-- No finally block has been started twice, no exception goes to the catch
clauses of a statement whose finally block has been started, and the next step
leaves no statement whose finally block has not been started. -/
def Result.FinallyOnce (counts : List Nat) :
    Result E → Prop
  | .running s =>
    (∀ c ∈ counts, c ≤ 1) ∧ (s.AtCatch → counts.head? = some 0) ∧
      LeavesOnce counts s (step code s o)
  | _ => True

/-- The next step starts no finally block that is running, and throws no
exception out of a finally block that was started after the try body or with an
exception pending. -/
def State.Proper (s : State E) : Prop :=
  ∀ instr tries, code[s.ip]? = some ⟨instr, some tries⟩ →
    (instr = .FINALLY → ∀ y ∈ tries.head?, y.ctx ≠ .TRY_FINALLY) ∧
    ∀ k, throwsPast s o instr = some k → MayLeave (tries.drop k) (s.tries.drop k)

def Result.Proper : Result E → Prop
  | .running s => s.Proper code o
  | _ => True

end

def marks (tries : List TryState) : List Nat :=
  tries.map fun y => if y.ctx = .TRY_FINALLY then 1 else 0

def Result.Marked (code : List (Line E)) (counts : List Nat) : Result E → Prop
  | .running s => ∃ tries, openAt code s.ip = some tries ∧ Try.Agrees code tries s.tries ∧
      counts = marks tries
  | _ => True

section Marks

@[simp] lemma marks_nil : marks [] = [] := rfl

@[simp] lemma marks_cons (y : TryState) (rest : List TryState) :
    marks (y :: rest) = (if y.ctx = .TRY_FINALLY then 1 else 0) :: marks rest := rfl

@[simp] lemma length_marks (tries : List TryState) : (marks tries).length = tries.length :=
  length_map _

@[simp] lemma marks_append (xs ys : List TryState) : marks (xs ++ ys) = marks xs ++ marks ys :=
  map_append

lemma marks_le (tries : List TryState) : ∀ c ∈ marks tries, c ≤ 1 := by
  intro c hc
  obtain ⟨y, -, rfl⟩ := mem_map.mp hc
  split <;> omega

lemma marks_finished (h : ∀ y ∈ tries, y.ctx = .TRY_FINALLY) : ∀ c ∈ marks tries, c = 1 := by
  intro c hc
  obtain ⟨y, hy, rfl⟩ := mem_map.mp hc
  rw [if_pos (h y hy)]

end Marks

section Steps
variable (hok : ∀ a line, code[a]? = some line → LineOk code a line) {instr : Instr E}
include hok

lemma startsFinally_false {tries tries' : List TryState}
    (hline : code[s.ip]? = some ⟨instr, some tries⟩) (hopen : openAt code s'.ip = some tries')
    (hagrees : Agrees code tries' s'.tries)
    (hold : ∀ y ∈ tries'.head?, y.ctx = .TRY_FINALLY → instr ≠ .FINALLY ∧ y ∈ tries) :
    startsFinally code s s' = false := by
  unfold startsFinally
  generalize s'.tries = entries at hagrees
  cases hagrees with
  | nil => rfl
  | @cons y rest t others c f e line tracks agrees =>
    obtain ⟨-, rfl⟩ := tracks.addresses
    by_cases hctx : y.ctx = .TRY_FINALLY
    · obtain ⟨hother, hmem⟩ := hold y rfl hctx
      have hspan := (hok _ _ hline).span tries rfl y hmem _ _ _ _ line
      rw [if_pos hctx] at hspan
      have hfin : isFinally code[s.ip]? = false := by
        rw [hline]
        cases instr with
        | FINALLY => exact absurd rfl hother
        | _ => rfl
      simp [hfin, Nat.not_lt.mpr hspan]
    · have hne : s'.ip ≠ t.finallyAt := by
        intro heq
        obtain ⟨stamp, -, -, hfinally⟩ := openAt_parts hok line
        rw [heq, hfinally, Option.some.injEq, cons.injEq] at hopen
        exact hctx (by rw [← hopen.1])
      simp [hne]

lemma startsFinally_true {tries rest : List TryState}
    {y : TryState} {t : Entry} {others : List Entry} {c f e : Nat}
    (hline : code[s.ip]? = some ⟨instr, some tries⟩) (hmem : y ∈ tries)
    (line : code[y.pos]? = some ⟨.TRY c f e, some rest⟩)
    (route : y.ctx ≠ .TRY_FINALLY ∨ instr = .FINALLY) (hip : s'.ip = f)
    (hafter : s'.tries = t :: others) (ht : t.finallyAt = f) : startsFinally code s s' := by
  simp only [startsFinally, hafter, ht, hip, decide_true, Bool.true_and, Bool.or_eq_true,
    decide_eq_true_eq]
  rcases route with hctx | rfl
  · have hspan := (hok _ _ hline).span tries rfl y hmem _ _ _ _ line
    rw [if_neg hctx] at hspan
    exact .inl hspan
  · rw [hline]
    exact .inr rfl

omit hok in
lemma isTry_line {inside : Option (List TryState)}
    (hline : code[s.ip]? = some ⟨instr, inside⟩) (hinner : ∀ c f e, instr ≠ .TRY c f e) :
    isTry code[s.ip]? = false := by
  rw [hline]
  cases instr with
  | TRY c f e => exact absurd rfl (hinner c f e)
  | _ => rfl

omit hok

section Gone
variable {s s' : State E} {tries gone kept : List TryState} (htries : tries = gone ++ kept)
  (hbefore : s.tries.length = tries.length) (hafter : s'.tries.length = kept.length)
include htries hbefore hafter

lemma length_gone : s.tries.length - s'.tries.length = (marks gone).length := by
  rw [hbefore, hafter, htries, length_append, length_marks]
  omega

lemma track_marks (hline : code[s.ip]? = some ⟨instr, some tries⟩)
    (hinner : ∀ c f e, instr ≠ .TRY c f e) : track code s s' (marks tries) =
      if startsFinally code s s' then countStart (marks kept) else marks kept := by
  simp only [track, isTry_line hline hinner, Bool.false_eq_true, if_false,
    length_gone htries hbefore hafter, htries, marks_append, drop_left]

lemma leavesOnce_of_gone (hgone : ∀ y ∈ gone, y.ctx = .TRY_FINALLY) :
    LeavesOnce (marks tries) s (.running s') := by
  simp only [LeavesOnce, length_gone htries hbefore hafter, htries, marks_append, take_left]
  exact marks_finished hgone

end Gone

lemma Agrees.length_cons {s' : State E} {rest : List TryState} {t : Entry} {others : List Entry}
    (agrees : Agrees code rest others) (after : s'.tries = t :: others) (y : TryState) :
    s'.tries.length = (y :: rest).length := by
  rw [after, List.length_cons, List.length_cons, agrees.length]

include hok

section Innermost
variable {s s' : State E} {instr : Instr E} {tries gone rest : List TryState} {y : TryState}
  {t : Entry} {others : List Entry} {c f e : Nat}
  (hline : code[s.ip]? = some ⟨instr, some tries⟩) (hinner : ∀ c f e, instr ≠ .TRY c f e)
  (htries : tries = gone ++ y :: rest) (hbefore : s.tries.length = tries.length)
  (line : code[y.pos]? = some ⟨.TRY c f e, some rest⟩) (agrees : Agrees code rest others)
include hline hinner htries hbefore line agrees

/-- The counts where the finally block of the innermost statement left is started. -/
lemma track_started (route : y.ctx ≠ .TRY_FINALLY ∨ instr = .FINALLY) (ip : s'.ip = f)
    (after : s'.tries = t :: others) (ht : t.finallyAt = f) :
    track code s s' (marks tries) = countStart (marks (y :: rest)) := by
  rw [track_marks htries hbefore (agrees.length_cons after y) hline hinner,
    startsFinally_true hok hline (by simp [htries]) line route ip after ht, if_pos rfl]

/-- The counts where an exception goes to its catch clauses. -/
lemma track_delivered (ip : s'.ip = c) (after : s'.tries = ⟨c, f, some e, .TRY_CATCH⟩ :: others) :
    ∃ stamp, openAt code s'.ip = some (⟨y.pos, stamp, .TRY_CATCH⟩ :: rest) ∧
      Agrees code (⟨y.pos, stamp, .TRY_CATCH⟩ :: rest) s'.tries ∧
      track code s s' (marks tries) = marks (y :: rest) := by
  obtain ⟨stamp, -, hcatch, -⟩ := openAt_parts hok line
  have hopen : openAt code s'.ip = _ := ip ▸ hcatch
  have hagrees : Agrees code (⟨y.pos, stamp, .TRY_CATCH⟩ :: rest) s'.tries := by
    rw [after]
    exact .cons line .handler agrees
  refine ⟨stamp, hopen, hagrees, ?_⟩
  rw [track_marks htries hbefore (agrees.length_cons after y) hline hinner,
    startsFinally_false hok hline hopen hagrees (by rintro _ ⟨⟩ ⟨⟩)]
  rfl

end Innermost

/-- What a proper step does to the counts. -/
def Keeps (code : List (Line E)) (s : State E) (tries : List TryState) (r : Result E) : Prop :=
  LeavesOnce (marks tries) s r ∧ ∀ s', r = .running s' → ∃ tries',
    openAt code s'.ip = some tries' ∧ Agrees code tries' s'.tries ∧
      track code s s' (marks tries) = marks tries'

section
variable {s : State E} {instr : Instr E} {r : Result E}

lemma Thrown.keeps {tries gone kept : List TryState}
    (hline : code[s.ip]? = some ⟨instr, some tries⟩)
    (hinner : ∀ c f e, instr ≠ .TRY c f e) (htries : tries = gone ++ kept)
    (hgone : ∀ y ∈ gone, y.ctx = .TRY_FINALLY) (hbefore : s.tries.length = tries.length)
    (hleave : ∀ y ∈ kept.head?, y.ctx ≠ .TRY_FINALLY) (h : Thrown code kept r) :
    Keeps code s tries r := by
  cases h with
  | uncaught =>
    rw [append_nil] at htries
    exact ⟨marks_finished (htries ▸ hgone), nofun⟩
  | @delivered y rest others c f e s' line ctx ip after agrees =>
    refine ⟨leavesOnce_of_gone htries hbefore (agrees.length_cons after y) hgone, ?_⟩
    rintro _ ⟨⟩
    obtain ⟨stamp, hopen, hagrees, htrack⟩ :=
      track_delivered hok hline hinner htries hbefore line agrees ip after
    refine ⟨_, hopen, hagrees, htrack.trans ?_⟩
    simp [hleave y rfl]
  | @unhandled y rest others c f e s' line ctx ip after agrees =>
    obtain ⟨stamp, -, -, hfinally⟩ := openAt_parts hok line
    refine ⟨leavesOnce_of_gone htries hbefore (agrees.length_cons after y) hgone, ?_⟩
    rintro _ ⟨⟩
    refine ⟨_, by rw [ip, hfinally], by rw [after]; exact .cons line .pending agrees, ?_⟩
    rw [track_started hok hline hinner htries hbefore line agrees (.inl (hleave y rfl)) ip
      after rfl]
    simp [hleave y rfl, countStart]
  | aborted ctx => exact absurd ctx (hleave _ rfl)

lemma Steps.keeps {past : Option Nat} (hline : code[s.ip]? = some ⟨instr, some tries⟩)
    (hagrees : Agrees code tries s.tries)
    (hfinally : instr = .FINALLY → ∀ y ∈ tries.head?, y.ctx ≠ .TRY_FINALLY)
    (hleave : ∀ k, past = some k → MayLeave (tries.drop k) (s.tries.drop k))
    (h : Steps code s tries instr past r) : Keeps code s tries r := by
  have hbefore := hagrees.length
  cases h with
  | @stay s' other inner on same =>
    have hlength : s'.tries.length = tries.length := by rw [same, hbefore]
    have htries : tries = [] ++ tries := rfl
    refine ⟨leavesOnce_of_gone htries hbefore hlength (by simp), ?_⟩
    rintro _ ⟨⟩
    refine ⟨tries, on, by rwa [same], ?_⟩
    rw [track_marks htries hbefore hlength hline inner, startsFinally_false hok hline on
      (by rwa [same]) fun y hy _ => ⟨other, mem_of_mem_head? hy⟩]
    rfl
  | @enter s' c f e stamp is on pushed =>
    subst is
    have hagrees' : Agrees code (⟨s.ip, stamp, .TRY_TRY⟩ :: tries) s'.tries := by
      rw [pushed]
      exact .cons hline .body hagrees
    refine ⟨?_, ?_⟩
    · have hnone : s.tries.length - s'.tries.length = 0 := by simp [pushed]
      simp [LeavesOnce, hnone]
    · rintro _ ⟨⟩
      refine ⟨_, on, hagrees', ?_⟩
      rw [track, startsFinally_false hok hline on hagrees' (by rintro _ ⟨⟩ ⟨⟩), hline]
      rfl
  | @finish s' y rest t t' others c f e open_eq line route inner before ip after tracks agrees =>
    subst open_eq
    obtain ⟨stamp, -, -, hfinallyAt⟩ := openAt_parts hok line
    have hctx : y.ctx ≠ .TRY_FINALLY := route.elim id fun h => hfinally h y rfl
    have htries : y :: rest = [] ++ y :: rest := rfl
    refine ⟨leavesOnce_of_gone htries hbefore (agrees.length_cons after y) (by simp), ?_⟩
    rintro _ ⟨⟩
    refine ⟨_, by rw [ip, hfinallyAt], by rw [after]; exact .cons line tracks agrees, ?_⟩
    rw [track_started hok hline inner htries hbefore line agrees route ip after tracks.addresses.2]
    simp [hctx, countStart]
  | @close s' y rest t others is open_eq ctx on before after agrees =>
    subst is open_eq
    have hlength : s'.tries.length = rest.length := by rw [after, agrees.length]
    have htries : y :: rest = [y] ++ rest := rfl
    refine ⟨leavesOnce_of_gone htries hbefore hlength (by simpa using ctx), ?_⟩
    rintro _ ⟨⟩
    refine ⟨rest, on, by rwa [after], ?_⟩
    rw [track_marks htries hbefore hlength hline nofun, startsFinally_false hok hline on
      (by rwa [after]) fun y hy _ =>
        ⟨nofun, .tail _ (mem_of_mem_head? hy)⟩]
    rfl
  | @throws k s1 other inner finished rest =>
    obtain ⟨gone, kept, hdrop, hgone, hiff, hthrown⟩ :=
      doThrow_cases (s := s1) (by rw [rest]; exact hagrees.drop k)
    have htries : tries = (tries.take k ++ gone) ++ kept := by
      rw [append_assoc, ← hdrop, take_append_drop]
    refine hthrown.keeps hok hline inner htries ?_ hbefore ?_
    · intro y hy
      rcases mem_append.mp hy with hy | hy
      · exact finished y hy
      · exact hgone y hy
    · rw [rest] at hiff
      exact hiff.mp (hleave k rfl)
  | returns other open_eq => exact ⟨by rw [open_eq]; rfl, nofun⟩

/-- An improper step aborts the process, starts a finally block again, or takes an
exception to the catch clauses of a statement whose finally block is running. -/
lemma Steps.fault {past : Option Nat} (hline : code[s.ip]? = some ⟨instr, some tries⟩)
    (hagrees : Agrees code tries s.tries) (h : Steps code s tries instr past r)
    (himproper : ¬ ((instr = .FINALLY → ∀ y ∈ tries.head?, y.ctx ≠ .TRY_FINALLY) ∧
      ∀ k, past = some k → MayLeave (tries.drop k) (s.tries.drop k))) :
    (∃ exc, r = .aborted exc) ∨ ∃ s', r = .running s' ∧
      ((∃ c ∈ track code s s' (marks tries), 1 < c) ∨
        s'.AtCatch ∧ (track code s s' (marks tries)).head? ≠ some 0) := by
  have hbefore := hagrees.length
  cases h with
  | stay other inner on same => exact absurd ⟨fun h => absurd h other, nofun⟩ himproper
  | enter is on pushed => exact absurd ⟨fun h => absurd (is.symm.trans h) nofun, nofun⟩ himproper
  | close is open_eq ctx on before after agrees =>
    exact absurd ⟨fun h => absurd (is.symm.trans h) nofun, nofun⟩ himproper
  | returns other open_eq => exact absurd ⟨fun h => absurd h other, nofun⟩ himproper
  | @finish s' y rest t t' others c f e open_eq line route inner before ip after tracks agrees =>
    subst open_eq
    have hctx : y.ctx = .TRY_FINALLY := by
      by_contra hctx
      refine himproper ⟨?_, nofun⟩
      rintro - _ ⟨⟩
      exact hctx
    have htries : y :: rest = [] ++ y :: rest := rfl
    refine .inr ⟨s', rfl, .inl ⟨2, ?_, by omega⟩⟩
    rw [track_started hok hline inner htries hbefore line agrees route ip after tracks.addresses.2]
    simp [hctx, countStart]
  | @throws k s1 other inner finished rest =>
    obtain ⟨gone, kept, hdrop, hgone, hiff, hthrown⟩ :=
      doThrow_cases (s := s1) (by rw [rest]; exact hagrees.drop k)
    have htries : tries = (tries.take k ++ gone) ++ kept := by
      rw [append_assoc, ← hdrop, take_append_drop]
    have hleave : ¬ ∀ y ∈ kept.head?, y.ctx ≠ .TRY_FINALLY := by
      rw [← hiff, rest]
      refine fun h => himproper ⟨fun h => absurd h other, ?_⟩
      rintro _ ⟨⟩
      exact h
    generalize doThrow s1 = r at hthrown
    cases hthrown with
    | uncaught => exact absurd nofun hleave
    | aborted ctx => exact .inl ⟨_, rfl⟩
    | unhandled line ctx ip after agrees =>
      refine absurd ?_ hleave
      rintro _ ⟨⟩
      rw [ctx]
      nofun
    | @delivered y rest others c f e s' line ctx ip after agrees =>
      have hctx : y.ctx = .TRY_FINALLY := by
        by_contra hctx
        refine hleave ?_
        rintro _ ⟨⟩
        exact hctx
      obtain ⟨-, -, -, htrack⟩ :=
        track_delivered hok hline inner htries hbefore line agrees ip after
      refine .inr ⟨s', rfl, .inr ⟨⟨_, _, after, ip⟩, ?_⟩⟩
      simp [htrack, hctx]

end

lemma head_marks_of_atCatch
    (hopen : openAt code s.ip = some tries) (hagrees : Agrees code tries s.tries)
    (hcatch : s.AtCatch) : (marks tries).head? = some 0 := by
  obtain ⟨t, others, hentries, hip⟩ := hcatch
  rw [hentries] at hagrees
  cases hagrees with
  | @cons y rest t others c f e line tracks agrees =>
    obtain ⟨stamp, -, hcatch, -⟩ := openAt_parts hok line
    rw [hip, tracks.addresses.1, hcatch, Option.some.injEq, cons.injEq] at hopen
    have hctx : y.ctx = .TRY_CATCH := by rw [← hopen.1]
    simp [hctx]

end Steps

section Run
variable {body : Node E .stmt} {w : Nat → Outcome E} {n : Nat}

lemma run_succ (hr : run code w n = .running s) : run code w (n + 1) = step code s (w n) := by
  rw [run, hr, Result.next]

lemma counts_succ (hr : run code w n = .running s) (hnext : step code s (w n) = .running s') :
    counts code w (n + 1) = track code s s' (counts code w n) := by
  rw [counts, hr, run_succ hr, hnext]

variable (h : emitFunction body = some code)
include h

section Marked
variable (hjump : (run code w n).JumpsInside code)
    (hn : (run code w n).Marked code (counts code w n))
include hjump hn

lemma marked_steps (hr : run code w n = .running s) :
    ∃ instr tries, code[s.ip]? = some ⟨instr, some tries⟩ ∧ Agrees code tries s.tries ∧
      openAt code s.ip = some tries ∧ counts code w n = marks tries ∧
      Steps code s tries instr (throwsPast s (w n) instr) (step code s (w n)) := by
  rw [hr] at hn hjump
  obtain ⟨tries, hopen, hagrees, hcounts⟩ := hn
  obtain ⟨instr, hline⟩ := line_of_openAt hopen
  refine ⟨instr, tries, hline, hagrees, hopen, hcounts, ?_⟩
  rw [step_eq hline]
  exact exec_cases (emitFunction_ok h).2 (w n) hline hagrees hjump

lemma marked_keeps (hr : run code w n = .running s) (hproper : (run code w n).Proper code (w n)) :
    ∃ tries, Agrees code tries s.tries ∧ openAt code s.ip = some tries ∧
      counts code w n = marks tries ∧ Keeps code s tries (step code s (w n)) := by
  obtain ⟨instr, tries, hline, hagrees, hopen, hcounts, hsteps⟩ := marked_steps h hjump hn hr
  rw [hr] at hproper
  obtain ⟨hfinally, hleave⟩ := hproper instr tries hline
  exact ⟨tries, hagrees, hopen, hcounts,
    hsteps.keeps (emitFunction_ok h).2 hline hagrees hfinally hleave⟩

lemma marked_step (hproper : (run code w n).Proper code (w n)) :
    (run code w (n + 1)).Marked code (counts code w (n + 1)) := by
  cases hr : run code w n with
  | returned | uncaught | aborted | stuck =>
    rw [run, hr]
    trivial
  | running s =>
    obtain ⟨tries, -, -, hcounts, -, hkeeps⟩ := marked_keeps h hjump hn hr hproper
    rw [run_succ hr]
    cases hnext : step code s (w n) with
    | returned | uncaught | aborted | stuck => trivial
    | running s' =>
      obtain ⟨tries', hopen, hagrees, htrack⟩ := hkeeps s' hnext
      exact ⟨tries', hopen, hagrees, by rw [counts_succ hr hnext, hcounts, htrack]⟩

lemma marked_finallyOnce (hproper : (run code w n).Proper code (w n)) :
    (run code w n).FinallyOnce code (w n) (counts code w n) := by
  cases hr : run code w n with
  | returned | uncaught | aborted | stuck => trivial
  | running s =>
    obtain ⟨tries, hagrees, hopen, hcounts, hleaves, -⟩ := marked_keeps h hjump hn hr hproper
    rw [hcounts]
    exact ⟨marks_le tries, head_marks_of_atCatch (emitFunction_ok h).2 hopen hagrees, hleaves⟩

lemma improper_fault (himproper : ¬ (run code w n).Proper code (w n)) :
    ¬ ((run code w n).FinallyOnce code (w n) (counts code w n) ∧
      (run code w (n + 1)).FinallyOnce code (w (n + 1)) (counts code w (n + 1))) := by
  cases hr : run code w n with
  | returned | uncaught | aborted | stuck =>
    rw [hr] at himproper
    exact absurd trivial himproper
  | running s =>
    obtain ⟨instr, tries, hline, hagrees, -, hcounts, hsteps⟩ := marked_steps h hjump hn hr
    rintro ⟨⟨-, -, hleaves⟩, hafter⟩
    rw [hr] at himproper
    have hcase := hsteps.fault (emitFunction_ok h).2 hline hagrees fun hproper => by
      refine himproper fun instr' tries' hline' => ?_
      cases hline.symm.trans hline'
      exact hproper
    rcases hcase with ⟨exc, hnext⟩ | ⟨s', hnext, hfault⟩
    · rwa [hnext] at hleaves
    · rw [run_succ hr, hnext, counts_succ hr hnext, hcounts] at hafter
      obtain ⟨hle, hcatch, -⟩ := hafter
      rcases hfault with ⟨c, hc, hlt⟩ | ⟨hat, hhead⟩
      · exact absurd (hle c hc) (Nat.not_le.mpr hlt)
      · exact hhead (hcatch hat)

end Marked

/-- In a run in which no jump leaves a finally block, every finally block is
executed once before its statement is left, and no exception raised in it goes
to the statement's own catch clauses or aborts the process, if and only if all
steps are proper. -/
theorem run_finallyOnce_iff (w : Nat → Outcome E) (hjump : ∀ n, (run code w n).JumpsInside code) :
    (∀ n, (run code w n).FinallyOnce code (w n) (counts code w n)) ↔
      ∀ n, (run code w n).Proper code (w n) := by
  have start : (run code w 0).Marked code (counts code w 0) :=
    ⟨[], (emitFunction_ok h).1, .nil, rfl⟩
  exact Runs.forall_iff_of_invariant start (fun n => marked_step h (hjump n))
    (fun n => marked_finallyOnce h (hjump n)) (fun n => improper_fault h (hjump n))

end Run

section Examples

lemma run_of_returned {w : Nat → Outcome E} {n : Nat} {tries : List Entry}
    (h : run code w n = .returned tries) (k : Nat) : run code w (n + k) = .returned tries := by
  induction k with
  | zero => exact h
  | succ k ih =>
    rw [Nat.add_succ, run, ih]
    rfl

/-- The loop is left by the `break` in the try body, which starts the finally block first. -/
lemma run_breakInBody_proper :
    ∃ code, emitFunction breakInBody = some code ∧ jumpsInside code ∧
      run code (fun _ => .value true) 8 = .returned [] ∧
      ∀ n, (run code (fun _ => .value true) n).Proper code (.value true) := by
  refine ⟨_, rfl, rfl, rfl, fun n => ?_⟩
  by_cases hn : n < 8
  · interval_cases n <;> intro instr tries hline <;> cases hline <;>
      refine ⟨fun hinstr => ?_, fun k hk => by cases hk⟩ <;> cases hinstr
    -- the `break` is in the try body
    intro y hy
    cases hy
    decide
  · obtain ⟨k, rfl⟩ := Nat.exists_eq_add_of_le (Nat.le_of_not_lt hn)
    rw [run_of_returned rfl]
    trivial

theorem run_breakInBody_finallyOnce :
    ∃ code, emitFunction breakInBody = some code ∧
      run code (fun _ => .value true) 8 = .returned [] ∧
      ∀ n, (run code (fun _ => .value true) n).FinallyOnce code (.value true)
        (counts code (fun _ => .value true) n) := by
  obtain ⟨code, hcode, hcheck, hreturns, hproper⟩ := run_breakInBody_proper
  refine ⟨code, hcode, hreturns, ?_⟩
  exact (run_finallyOnce_iff hcode (fun _ => .value true) (run_jumpsInside hcheck _)).mpr hproper

/-- `try { e } catch _ { } finally { throw 1 }` -/
def throwInFinally : Node Nat .stmt :=
  .tryFinally .expression (.handler anything (.block .nil) .noHandler) (.throw 1)

/-- The exception goes to the catch clause of the same statement, and then the
finally block is started again. -/
theorem run_throwInFinally_again :
    ∃ code s, emitFunction throwInFinally = some code ∧
      run code (fun _ => .value true) 5 = .running s ∧ s.AtCatch ∧
      counts code (fun _ => .value true) 5 = [1] ∧
      counts code (fun _ => .value true) 8 = [2] ∧
      ¬ (run code (fun _ => .value true) 5).FinallyOnce code (.value true)
        (counts code (fun _ => .value true) 5) := by
  refine ⟨_, _, rfl, rfl, ⟨_, _, rfl, rfl⟩, rfl, rfl, ?_⟩
  rintro ⟨-, hcatch, -⟩
  cases hcatch ⟨_, _, rfl, rfl⟩

/-- `try { throw 1 } finally { throw 2 }` aborts the process. -/
example : (emitFunction (.tryFinally (.throw 1) .noHandler (.throw 2) : Node Nat .stmt)).map
    (fun code => run code (fun _ => .value true) 6) = some (.aborted (some 2)) := rfl

end Examples

end TyLang.Try
