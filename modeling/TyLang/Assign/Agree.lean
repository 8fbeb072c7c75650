import TyLang.Assign.Compound

/-!
When `x op= y` does to a variable what `x = x op y` does. For integers and booleans
the forms part at the remainder by zero, at the divisions that overflow, and at the
bit operators on two booleans, which keep a boolean in one form and make an integer in
the other. A function that the program declares for `op=` also counts: its result is
not assigned.
-/
namespace TyLang.Assign

open TyLang.Fold (Word Traps)

variable {α : Type}

def IsNumber : Value α → Prop
  | .integer _ | .boolean _ => True
  | .object _ _ => False

def OnBits (op : Op) : Prop := op = .bitAnd ∨ op = .bitOr ∨ op = .bitXor

/-- The operands on which the built-in branches of the two forms differ, or divide
where the processor cannot. -/
def Slips (op : Op) : Value α → Value α → Prop
  | .integer a, .integer b =>
    op = .mod ∧ b = 0 ∨ (op = .div ∨ op = .mod) ∧ a = BitVec.intMin 64 ∧ b = -1
  | .boolean _, .boolean _ => OnBits op
  | _, _ => False

/-- Whether the instruction for `x op= y` gets to look for a declared `op=`. -/
def Consults (op : Op) : Value α → Value α → Prop
  | .integer _, .integer _ => op = .div
  | .boolean _, .boolean _ => ¬ OnBits op
  | _, _ => True

variable (p : Program α) {op : Op} {x y : Value α}

/-- A declared `op=` that is found throws what the operator throws, or returns where
the operator gives `x` back. -/
def DeclaredAgrees (op : Op) (x y : Value α) : Prop :=
  ∀ f, Consults op x y → p.opDispatch (.mut op) (classOf x) (classOf y) = some f →
    (execFn f x y).map (fun _ => x) = doBinaryOp p op x y

def leaves (code : List (Instr α)) (x : Nat) (s : State α) : Except (Fault α) (Value α) :=
  (run p code s).map (fun t => t.vars x)

section
variable (op : Op) (x : Nat) (y : Operand α) (s : State α)

/-- Both forms leave the same value or fail with the same error, and neither is
killed. -/
def Agree : Prop :=
  leaves p (emitCompound op x y) x s = leaves p (emitAssignment op x y) x s ∧
    leaves p (emitCompound op x y) x s ≠ .error .killed ∧
    leaves p (emitAssignment op x y) x s ≠ .error .killed

lemma leaves_emitCompound :
    leaves p (emitCompound op x y) x s =
      (doMut p op (s.vars x) (valueOf s y)).map Prod.fst := by
  rw [leaves, run_emitCompound]
  cases doMut p op (s.vars x) (valueOf s y) with
  | error e => rfl
  | ok r => exact congrArg Except.ok (s.vars_assigned x r.1 r.2)

lemma leaves_emitAssignment :
    leaves p (emitAssignment op x y) x s = doBinaryOp p op (s.vars x) (valueOf s y) := by
  rw [leaves, run_emitAssignment]
  cases doBinaryOp p op (s.vars x) (valueOf s y) with
  | error e => rfl
  | ok v => exact congrArg Except.ok (s.vars_assigned x v v)

lemma agree_iff_values :
    Agree p op x y s ↔
      (doMut p op (s.vars x) (valueOf s y)).map Prod.fst =
          doBinaryOp p op (s.vars x) (valueOf s y) ∧
        doBinaryOp p op (s.vars x) (valueOf s y) ≠ .error .killed := by
  rw [Agree, leaves_emitCompound, leaves_emitAssignment]
  constructor
  · rintro ⟨heq, -, hkilled⟩
    exact ⟨heq, hkilled⟩
  · rintro ⟨heq, hkilled⟩
    exact ⟨heq, heq ▸ hkilled, hkilled⟩

end

lemma execFn_ne_killed (f : Operator α) (x y : Value α) : execFn f x y ≠ .error .killed := by
  unfold execFn
  split <;> simp

lemma map_fst_mutDefault (op : Op) (x y : Value α) :
    (mutDefault p op x y).map Prod.fst =
      match p.opDispatch (.mut op) (classOf x) (classOf y) with
      | some f => (execFn f x y).map (fun _ => x)
      | none => doBinaryOp p op x y := by
  unfold mutDefault vmTry2op
  cases p.opDispatch (.mut op) (classOf x) (classOf y) with
  | some f =>
    change ((execFn f x y >>= fun val => .ok (some val)) >>= _).map Prod.fst =
      (execFn f x y).map (fun _ => x)
    cases execFn f x y <;> rfl
  | none => cases doBinaryOp p op x y <;> rfl

lemma doMut_of_consults (hx : IsNumber x) (hy : IsNumber y)
    (h : Consults op x y) : doMut p op x y = mutDefault p op x y := by
  cases x <;> cases y <;> first
    | exact False.elim hx
    | exact False.elim hy
    | (cases op <;> first | rfl | simp [Consults, OnBits] at h)

section Builtin

lemma doBinaryOp_of_error {l r : Value α} {e : Fault α}
    (h : opBuiltin op l r = .error e) : doBinaryOp p op l r = .error e := by
  rw [doBinaryOp, h]
  rfl

lemma doBinaryOp_of_some {l r v : Value α}
    (h : opBuiltin op l r = .ok (some v)) : doBinaryOp p op l r = .ok v := by
  rw [doBinaryOp, h]
  rfl

lemma doBinaryOp_ne_killed {l r : Value α} {v : Option (Value α)}
    (h : opBuiltin op l r = .ok v) : doBinaryOp p op l r ≠ .error .killed := by
  cases v with
  | some v =>
    rw [doBinaryOp_of_some p h]
    nofun
  | none =>
    rw [doBinaryOp, h]
    split
    · exact execFn_ne_killed _ l r
    · nofun

lemma onIntegers_cases (f : Word → Word → Word) (a b : Word) {r : Except (Fault α) _}
    (h : onIntegers f (.integer a) (.integer b) = r) :
    b = 0 ∧ r = .error .zeroDivide ∨
      (a = BitVec.intMin 64 ∧ b = -1) ∧ r = .error .killed ∨
      ¬ Traps a b ∧ r = .ok (some (.integer (f a b))) := by
  rw [onIntegers] at h
  by_cases hzero : b = 0
  · rw [if_pos hzero] at h
    exact .inl ⟨hzero, h.symm⟩
  rw [if_neg hzero] at h
  by_cases htraps : Traps a b
  · rw [if_pos htraps] at h
    exact .inr (.inl ⟨htraps.resolve_left hzero, h.symm⟩)
  · rw [if_neg htraps] at h
    exact .inr (.inr ⟨htraps, h.symm⟩)

end Builtin

lemma doMut_eq_iff_of_not_consults (h : ¬ Consults op x y) :
    (doMut p op x y).map Prod.fst = doBinaryOp p op x y ∧
        doBinaryOp p op x y ≠ .error .killed ↔
      ¬ Slips op x y := by
  match x, y with
  | .integer a, .integer b =>
    cases op with
    | div => exact absurd rfl h
    | mod =>
      have hcases := onIntegers_cases BitVec.srem a b
        (rfl : _ = opBuiltin .mod (.integer a) (.integer b : Value α))
      obtain ⟨rfl, hop⟩ | ⟨⟨rfl, rfl⟩, hop⟩ | ⟨htraps, hop⟩ := hcases
      · rw [doBinaryOp_of_error p hop]
        have htraps : Traps a 0 := .inl rfl
        exact ⟨fun heq => absurd heq.1 nofun, fun hslips => absurd (.inl ⟨rfl, rfl⟩) hslips⟩
      · rw [doBinaryOp_of_error p hop]
        exact ⟨fun heq => absurd rfl heq.2,
          fun hslips => absurd (.inr ⟨.inr rfl, rfl, rfl⟩) hslips⟩
      · rw [doBinaryOp_of_some p hop]
        have hmod : doMut p .mod (.integer a) (.integer b) =
            .ok (.integer (a.srem b), .integer (a.srem b)) := by
          rw [doMut, doMutMod, if_neg htraps]
        rw [hmod]
        refine ⟨?_, fun _ => ⟨rfl, nofun⟩⟩
        rintro - (⟨-, hzero⟩ | ⟨-, hover⟩)
        · exact htraps (.inl hzero)
        · exact htraps (.inr hover)
    | _ => refine ⟨fun _ hslips => by simp [Slips] at hslips, fun _ => ⟨rfl, nofun⟩⟩
  | .boolean a, .boolean b =>
    have hbits : OnBits op := not_not.mp h
    refine ⟨?_, fun hslips => absurd hbits hslips⟩
    rintro ⟨heq, -⟩
    obtain rfl | rfl | rfl := hbits <;> exact absurd heq nofun
  | .integer _, .boolean _ | .boolean _, .integer _ | .object _ _, _ | .integer _, .object _ _
  | .boolean _, .object _ _ => exact False.elim (h trivial)

lemma doBinaryOp_killed_iff (hx : IsNumber x) (hy : IsNumber y)
    (h : Consults op x y) : doBinaryOp p op x y = .error .killed ↔ Slips op x y := by
  match x, y with
  | .integer a, .integer b =>
    obtain rfl : op = .div := h
    have hcases := onIntegers_cases BitVec.sdiv a b
      (rfl : _ = opBuiltin .div (.integer a) (.integer b : Value α))
    obtain ⟨rfl, hop⟩ | ⟨⟨rfl, rfl⟩, hop⟩ | ⟨htraps, hop⟩ := hcases
    · rw [doBinaryOp_of_error p hop]
      simp [Slips]
    · rw [doBinaryOp_of_error p hop]
      simp [Slips]
    · rw [doBinaryOp_of_some p hop]
      refine ⟨nofun, ?_⟩
      rintro (⟨hop, -⟩ | ⟨-, hover⟩)
      · cases hop
      · exact absurd (.inr hover) htraps
  | .boolean a, .boolean b =>
    refine ⟨fun hkilled => ?_, fun hslips => absurd hslips h⟩
    cases op <;> exact absurd hkilled (doBinaryOp_ne_killed p rfl)
  | .integer a, .boolean b | .boolean a, .integer b =>
    refine ⟨fun hkilled => ?_, False.elim⟩
    cases op <;> exact absurd hkilled (doBinaryOp_ne_killed p rfl)

theorem compound_eq_assignment_iff (op : Op) (x : Nat) (y : Operand α) (s : State α)
    (hx : IsNumber (s.vars x)) (hy : IsNumber (valueOf s y)) :
    Agree p op x y s ↔
      ¬ Slips op (s.vars x) (valueOf s y) ∧
        DeclaredAgrees p op (s.vars x) (valueOf s y) := by
  rw [agree_iff_values]
  by_cases h : Consults op (s.vars x) (valueOf s y)
  · rw [doMut_of_consults p hx hy h, map_fst_mutDefault, ← doBinaryOp_killed_iff p hx hy h,
      and_comm]
    refine and_congr_right fun _ => ?_
    cases hf : p.opDispatch (.mut op) (classOf (s.vars x)) (classOf (valueOf s y)) with
    | none => simp [DeclaredAgrees, hf]
    | some f => simp [DeclaredAgrees, hf, h]
  · rw [doMut_eq_iff_of_not_consults p h]
    simp [DeclaredAgrees, h]

def plainProgram : Program Unit := ⟨fun _ _ _ => none, fun _ => none⟩

def allHold (v : Value Unit) : State Unit := ⟨fun _ => v, [], []⟩

theorem compound_eq_assignment_add :
    Agree plainProgram .add 0 (.literal (.boolean true)) (allHold (.integer 41)) :=
  (compound_eq_assignment_iff plainProgram .add 0 (.literal (.boolean true))
    (allHold (.integer 41)) trivial trivial).mpr ⟨id, nofun⟩

/-- `x %= 0` kills the process where `x = x % 0` throws, and `x &= true` leaves a boolean
where `x = x & true` leaves an integer. -/
theorem compound_ne_assignment :
    leaves plainProgram (emitCompound .mod 0 (.literal (.integer 0))) 0 (allHold (.integer 7)) =
        .error .killed ∧
      leaves plainProgram (emitAssignment .mod 0 (.literal (.integer 0))) 0
          (allHold (.integer 7)) = .error .zeroDivide ∧
      leaves plainProgram (emitCompound .bitAnd 0 (.literal (.boolean true))) 0
          (allHold (.boolean true)) = .ok (.boolean true) ∧
      leaves plainProgram (emitAssignment .bitAnd 0 (.literal (.boolean true))) 0
          (allHold (.boolean true)) = .ok (.integer 1) :=
  ⟨rfl, rfl, rfl, rfl⟩

end TyLang.Assign
