import Mathlib

/-!
`ArraySubscript` of `src/vm.c` beside `IterGetNext`, the step of a `for` loop. What generators
and methods do is a program on states, and the property compares the two drivers on one
program: the same elements in the same order, and the same state in the end.

Both follow `__iter__` until there is something to step. A `for` loop expects `Some` and `None`
of everything that it steps. `ArraySubscript` does so for generators only: of `__next__` it
expects integers and `nil`.
-/
namespace TyLang.Subscript

inductive Value where
  | nil
  | none
  | some (v : Value)
  | integer (z : Int)
  | array (items : List Value)
  /-- Tuples, queues, blobs, dicts and strings, by the elements that a `for` loop has of them. -/
  | sequence (items : List Value)
  | generator (gen : Nat)
  | object (o : Nat)
  | other (n : Nat)

inductive Fault where
  | thrown (v : Value)
  /-- "iterator returned invalid type" -/
  | invalidType
  /-- "for-each loop on non-iterable value" -/
  | nonIterable
  /-- "non-iterable object used in subscript expression" -/
  | nonIterableSubscript
  /-- "iterator yielded non-integer array index in subscript expression" -/
  | nonInteger
  /-- "non-integer array index used in subscript expression" -/
  | nonIntegerSubscript
  | indexErr
  /-- The rounds have run out. -/
  | rounds

/-- What generators do when they are resumed, and what the methods of objects do, on states. -/
structure Program (σ : Type) where
  resume : Nat → σ → Except Fault (Value × σ)
  next : Nat → Option (Int → σ → Except Fault (Value × σ))
  iter : Nat → Option (σ → Except Fault (Value × σ))

variable {σ : Type} (p : Program σ)

/-- `YieldFix`, with `none` for `NONE`. -/
def yieldFix : Value → Except Fault (Option Value)
  | .some v => .ok (.some v)
  | .none => .ok .none
  | _ => .error .invalidType

section For

/-- `IterGetNext` on the value and the counter of a loop: the element, and the value for the
next round. The rounds are those over `__iter__`. -/
def iterGetNext : Nat → Value → Int → σ → Except Fault (Option Value × Value × σ)
  | 0, _, _, _ => .error .rounds
  | k + 1, v, i, w =>
    match v with
    | .array items | .sequence items =>
      .ok (if i < items.length then items[i.toNat]? else .none, v, w)
    | .generator gen => do
        let (r, w) ← p.resume gen w
        let r ← yieldFix r
        .ok (r, v, w)
    | .object o =>
      match p.next o with
      | .some next => do
          let (r, w) ← next i w
          let r ← yieldFix r
          .ok (r, v, w)
      | .none =>
        match p.iter o with
        | .some iter => do
            let (v, w) ← iter w
            iterGetNext k v i w
        | .none => .error .nonIterable
    | _ => .error .nonIterable

/-- The elements of a `for` loop from a value of the counter on, and the state at its end. -/
def forEach : Nat → Value → Int → σ → Except Fault (List Value × σ)
  | 0, _, _, _ => .error .rounds
  | k + 1, v, i, w => do
      let (r, v, w) ← iterGetNext p (k + 1) v i w
      match r with
      | .some x => do
          let (xs, w) ← forEach k v (i + 1) w
          .ok (x :: xs, w)
      | .none => .ok ([], w)

end For

section Subscript

/-- The element at an index: itself, or with `None` and `Some` unless `strict`. -/
def select (items : List Value) (strict : Bool) (z : Int) : Except Fault Value :=
  let z := if z < 0 then z + items.length else z
  match if 0 ≤ z then items[z.toNat]? else .none with
  | .some v => .ok (if strict then v else .some v)
  | .none => if strict then .error .indexErr else .ok .none

/-- The loop of `ArraySubscript` for a generator. -/
def generatorLoop (items : List Value) (strict : Bool) (gen : Nat) :
    Nat → σ → Except Fault (List Value × σ)
  | 0, _ => .error .rounds
  | k + 1, w => do
      let (r, w) ← p.resume gen w
      match ← yieldFix r with
      | .none => .ok ([], w)
      | .some (.integer z) => do
          let v ← select items strict z
          let (vs, w) ← generatorLoop items strict gen k w
          .ok (v :: vs, w)
      | .some _ => .error .nonInteger

/-- The loop of `ArraySubscript` for an object with `__next__`. -/
def nextLoop (items : List Value) (strict : Bool) (next : Int → σ → Except Fault (Value × σ)) :
    Nat → Int → σ → Except Fault (List Value × σ)
  | 0, _, _ => .error .rounds
  | k + 1, i, w => do
      let (r, w) ← next i w
      match r with
      | .nil => .ok ([], w)
      | .integer z => do
          let v ← select items strict z
          let (vs, w) ← nextLoop items strict next k (i + 1) w
          .ok (v :: vs, w)
      | _ => .error .nonInteger

def arraySubscript (items : List Value) (strict : Bool) :
    Nat → Value → σ → Except Fault (Value × σ)
  | 0, _, _ => .error .rounds
  | k + 1, subscript, w =>
    match subscript with
    | .generator gen => do
        let (vs, w) ← generatorLoop p items strict gen (k + 1) w
        .ok (.array vs, w)
    | .object o =>
      match p.next o with
      | .some next => do
          let (vs, w) ← nextLoop items strict next (k + 1) 0 w
          .ok (.array vs, w)
      | .none =>
        match p.iter o with
        | .some iter => do
            let (subscript, w) ← iter w
            arraySubscript items strict k subscript w
        | .none => .error .nonIterableSubscript
    | .integer z => do
        let v ← select items strict z
        .ok (v, w)
    | _ => .error .nonIntegerSubscript

end Subscript

section Agreement

/-- What is stepped in the end, behind some calls of `__iter__`. -/
inductive Resolves : Value → σ → Value → σ → Prop where
  | array (items : List Value) (w : σ) : Resolves (.array items) w (.array items) w
  | sequence (items : List Value) (w : σ) : Resolves (.sequence items) w (.sequence items) w
  | generator (gen : Nat) (w : σ) : Resolves (.generator gen) w (.generator gen) w
  | next {o : Nat} {next : Int → σ → Except Fault (Value × σ)} (w : σ) :
      p.next o = .some next → Resolves (.object o) w (.object o) w
  | iter {o : Nat} {iter : σ → Except Fault (Value × σ)} {v v' : Value} {w w₁ w' : σ} :
      p.next o = .none → p.iter o = .some iter → iter w = .ok (v, w₁) →
      Resolves v w₁ v' w' → Resolves (.object o) w v' w'

def Yields (v : Value) (w : σ) (xs : List Value) (w' : σ) : Prop :=
  ∃ k, forEach p k v 0 w = .ok (xs, w')

def Valid (items : List Value) (z : Int) : Prop := -items.length ≤ z ∧ z < items.length

def element (items : List Value) (z : Int) : Value :=
  items.getD (if z < 0 then z + items.length else z).toNat .nil

/-- The subscript selects the elements and leaves the state of the `for` loop. -/
def Selects (items : List Value) (subscript : Value) (w : σ) (indices : List Int) (w' : σ) : Prop :=
  ∃ k, arraySubscript p items true k subscript w =
    .ok (.array (indices.map (element items)), w')

variable {items : List Value} {w w' : σ}

lemma select_valid {z : Int} (h : Valid items z) :
    select items true z = .ok (element items z) := by
  obtain ⟨hlow, hhigh⟩ := h
  rw [select, element]
  generalize hk : (if z < 0 then z + items.length else z) = k
  have hbounds : 0 ≤ k ∧ k < items.length := by
    split at hk <;> omega
  have hlt : k.toNat < items.length := by omega
  simp only [if_pos hbounds.1, List.getElem?_eq_getElem hlt, List.getD_eq_getElem?_getD,
    Option.getD_some, if_true]

variable {p} in
lemma Resolves.next_of_object {v : Value} {o : Nat}
    (h : Resolves p v w (.object o) w') : ∃ next, p.next o = .some next := by
  generalize hv : Value.object o = v' at h
  induction h with
  | array | sequence | generator => cases hv
  | next w hnext =>
    cases hv
    exact ⟨_, hnext⟩
  | iter _ _ _ _ ih => exact ih hv

variable {p} in
lemma Resolves.unique {v v₁ v₂ : Value} {w w₁ w₂ : σ} (h₁ : Resolves p v w v₁ w₁)
    (h₂ : Resolves p v w v₂ w₂) : v₁ = v₂ ∧ w₁ = w₂ := by
  induction h₁ with
  | array | sequence | generator =>
    cases h₂
    exact ⟨rfl, rfl⟩
  | next w hnext =>
    cases h₂ with
    | next => exact ⟨rfl, rfl⟩
    | iter hnone => exact absurd (hnext.symm.trans hnone) nofun
  | iter hnone hiter hcall _ ih =>
    cases h₂ with
    | next w hnext => exact absurd (hnext.symm.trans hnone) nofun
    | iter hnone' hiter' hcall' hrest =>
      rw [hiter] at hiter'
      cases hiter'
      rw [hcall] at hcall'
      cases hcall'
      exact ih hrest

lemma bind_ok {ε α β : Type} {x : Except ε α} {f : α → Except ε β} {b : β}
    (h : x >>= f = .ok b) : ∃ a, x = .ok a ∧ f a = .ok b := by
  cases x with
  | error e => cases h
  | ok a => exact ⟨a, rfl, h⟩

lemma iterGetNext_resolves {k : Nat} {v v' : Value} {i : Int} {r : Option Value}
    (h : iterGetNext p k v i w = .ok (r, v', w')) :
    ∃ w₁, Resolves p v w v' w₁ ∧ ∀ m, iterGetNext p (m + 1) v' i w₁ = .ok (r, v', w') := by
  induction k generalizing v w with
  | zero => cases h
  | succ k ih =>
    cases v with
    | nil | none | some _ | integer _ | other _ => cases h
    | array items =>
      obtain ⟨-, rfl, rfl⟩ : _ ∧ Value.array items = v' ∧ w = w' := by
        simpa [iterGetNext] using h
      exact ⟨w, .array items w, fun m => h⟩
    | sequence items =>
      obtain ⟨-, rfl, rfl⟩ : _ ∧ Value.sequence items = v' ∧ w = w' := by
        simpa [iterGetNext] using h
      exact ⟨w, .sequence items w, fun m => h⟩
    | generator gen =>
      obtain ⟨⟨r0, w0⟩, -, hrest⟩ := bind_ok h
      obtain ⟨r1, -, heq⟩ := bind_ok hrest
      cases heq
      exact ⟨w, .generator gen w, fun m => h⟩
    | object o =>
      rw [iterGetNext] at h
      cases hnext : p.next o with
      | some next =>
        simp only [hnext] at h
        obtain ⟨⟨r0, w0⟩, -, hrest⟩ := bind_ok h
        obtain ⟨r1, -, heq⟩ := bind_ok hrest
        cases heq
        refine ⟨w, .next w hnext, fun m => ?_⟩
        simp only [iterGetNext, hnext]
        exact h
      | none =>
        cases hiter : p.iter o with
        | none =>
          simp only [hnext, hiter] at h
          cases h
        | some iter =>
          simp only [hnext, hiter] at h
          obtain ⟨⟨v₁, w₁⟩, hcall, hrest⟩ := bind_ok h
          obtain ⟨w₂, hresolves, hsame⟩ := ih hrest
          exact ⟨w₂, .iter hnext hiter hcall hresolves, hsame⟩

lemma forEach_resolves {k : Nat} {v : Value} {i : Int} {xs : List Value}
    (h : forEach p k v i w = .ok (xs, w')) :
    ∃ v' w₁, Resolves p v w v' w₁ ∧ forEach p k v' i w₁ = .ok (xs, w') := by
  cases k with
  | zero => cases h
  | succ k =>
    rw [forEach] at h
    obtain ⟨⟨r, v', w0⟩, hstep, hrest⟩ := bind_ok h
    obtain ⟨w₁, hresolves, hsame⟩ := iterGetNext_resolves p hstep
    refine ⟨v', w₁, hresolves, ?_⟩
    rwa [forEach, hsame k]

lemma arraySubscript_resolves {strict : Bool} {v v' : Value}
    {r : Value × σ} (h : Resolves p v w v' w') :
    (∃ k, arraySubscript p items strict k v w = .ok r) ↔
      ∃ k, arraySubscript p items strict k v' w' = .ok r := by
  induction h with
  | array | sequence | generator | next => rfl
  | iter hnext hiter hcall _ ih =>
    rw [← ih]
    constructor
    · rintro ⟨k, hk⟩
      cases k with
      | zero => cases hk
      | succ k =>
        simp only [arraySubscript, hnext, hiter, hcall] at hk
        exact ⟨k, hk⟩
    · rintro ⟨k, hk⟩
      refine ⟨k + 1, ?_⟩
      simp only [arraySubscript, hnext, hiter, hcall]
      exact hk

/-- Over a generator, the two loops make the same steps. -/
lemma generatorLoop_forEach {gen k : Nat} {i : Int}
    {indices : List Int} (hvalid : ∀ z ∈ indices, Valid items z)
    (h : forEach p k (.generator gen) i w = .ok (indices.map .integer, w')) :
    generatorLoop p items true gen k w = .ok (indices.map (element items), w') := by
  induction k generalizing i w indices with
  | zero => cases h
  | succ k ih =>
    rw [forEach] at h
    obtain ⟨⟨r, v', w0⟩, hstep, hrest⟩ := bind_ok h
    obtain ⟨⟨r0, w₁⟩, hresume, hfix⟩ := bind_ok hstep
    obtain ⟨r1, hyield, heq⟩ := bind_ok hfix
    cases heq
    rw [generatorLoop, hresume]
    change (yieldFix r0 >>= _) = _
    rw [hyield]
    cases r with
    | none =>
      obtain ⟨hnil, rfl⟩ : [] = indices.map Value.integer ∧ w0 = w' := by
        simpa using Except.ok.inj hrest
      obtain rfl := List.map_eq_nil_iff.mp hnil.symm
      rfl
    | some x =>
      obtain ⟨⟨xs, w₂⟩, hloop, heq⟩ := bind_ok hrest
      obtain ⟨hcons, rfl⟩ : x :: xs = indices.map Value.integer ∧ w₂ = w' := by
        simpa using Except.ok.inj heq
      obtain ⟨z, rest, rfl, rfl, rfl⟩ := List.map_eq_cons_iff.mp hcons.symm
      obtain ⟨hz, hrestValid⟩ := List.forall_mem_cons.mp hvalid
      change (select items true z >>= fun v => _) = _
      rw [select_valid hz]
      change (generatorLoop p items true gen k w0 >>= fun r => _) = _
      rw [ih hrestValid hloop]
      rfl

/-- `__next__` that follows the protocol is refused in the first round. -/
lemma nextLoop_refuses {o : Nat}
    {next : Int → σ → Except Fault (Value × σ)} (hnext : p.next o = .some next) {k m : Nat}
    {w : σ} {r r' : List Value × σ} (h : forEach p k (.object o) 0 w = .ok r) :
    nextLoop items true next m 0 w ≠ .ok r' := by
  cases k with
  | zero => cases h
  | succ k =>
    cases m with
    | zero => nofun
    | succ m =>
      rw [forEach] at h
      obtain ⟨⟨r, v', w0⟩, hstep, -⟩ := bind_ok h
      simp only [iterGetNext, hnext] at hstep
      obtain ⟨⟨r0, w₁⟩, hcall, hfix⟩ := bind_ok hstep
      obtain ⟨r1, hyield, -⟩ := bind_ok hfix
      rw [nextLoop, hcall]
      cases r0 with
      | some v | none => nofun
      | nil | integer _ | array _ | sequence _ | generator _ | object _ | other _ => cases hyield

theorem arraySubscript_selects_iff (items : List Value) (subscript : Value) (w w' : σ)
    (indices : List Int) (hyields : Yields p subscript w (indices.map .integer) w')
    (hvalid : ∀ z ∈ indices, Valid items z) :
    Selects p items subscript w indices w' ↔
      ∃ gen w₁, Resolves p subscript w (.generator gen) w₁ := by
  obtain ⟨k, hloop⟩ := hyields
  obtain ⟨v, w₁, hresolves, hloop⟩ := forEach_resolves p hloop
  rw [Selects, arraySubscript_resolves p hresolves]
  constructor
  · rintro ⟨m, hm⟩
    cases m with
    | zero => cases hm
    | succ m =>
      cases v with
      | generator gen => exact ⟨gen, w₁, hresolves⟩
      | nil | none | some _ | other _ | array _ | sequence _ => cases hm
      | integer _ => cases k <;> cases hloop
      | object o =>
        obtain ⟨next, hnext⟩ := hresolves.next_of_object
        simp only [arraySubscript, hnext] at hm
        obtain ⟨r, hrefused, -⟩ := bind_ok hm
        exact absurd hrefused (nextLoop_refuses p hnext hloop)
  · rintro ⟨gen, w₂, hgen⟩
    obtain ⟨rfl, rfl⟩ := hresolves.unique hgen
    cases k with
    | zero => cases hloop
    | succ k =>
      refine ⟨k + 1, ?_⟩
      rw [arraySubscript, generatorLoop_forEach p hvalid hloop]
      rfl

/-- Generators and objects that count in the state: the generator `0` and the object `0` yield
`2` and `-1`, and the object `1` is iterated by the generator. -/
def counting : Program Nat where
  resume _ w := .ok (([.some (.integer 2), .some (.integer (-1))] : List Value).getD w .none, w + 1)
  next
    | 0 => .some fun _ w =>
      .ok (([.some (.integer 2), .some (.integer (-1))] : List Value).getD w .none, w + 1)
    | _ => .none
  iter _ := .some fun w => .ok (.generator 0, w)

theorem arraySubscript_selects_object :
    Selects counting [.nil, .integer 1, .integer 2] (.object 1) 0 [2, -1] 3 :=
  (arraySubscript_selects_iff counting [.nil, .integer 1, .integer 2] (.object 1) 0 3 [2, -1]
    ⟨3, rfl⟩ (by unfold Valid; decide)).mpr ⟨0, 0, .iter rfl rfl rfl (.generator 0 0)⟩

/-- The object `0` yields the indices `2` and `-1` in a `for` loop. As a subscript it is an
error. -/
theorem arraySubscript_refuses :
    Yields counting (.object 0) 0 [.integer 2, .integer (-1)] 3 ∧
      arraySubscript counting [.nil, .integer 1, .integer 2] true 9 (.object 0) 0 =
        .error .nonInteger ∧
      ¬ Selects counting [.nil, .integer 1, .integer 2] (.object 0) 0 [2, -1] 3 := by
  refine ⟨⟨3, rfl⟩, rfl, ?_⟩
  rintro ⟨k, h⟩
  cases k <;> cases h

end Agreement

end TyLang.Subscript
