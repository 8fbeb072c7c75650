import Mathlib

/-!
How `encode` of `src/json.c` finds cycles. The containers of a value are the nodes of a
graph, and `Visiting` is a stack of the nodes that are being encoded. The branch of an
object whose class defines `__json__` calls `vm_eval_function` with `NULL` for the function
and the method for its first argument, and so reads through a null pointer. The text is left out.
-/
namespace TyLang.Json.Visiting
open List

/-- A value, as far as `encode` distinguishes it; a container has a number. -/
inductive Value (n : Nat) where
  /-- A value with a text of its own. -/
  | scalar
  /-- A value for which `encode` has no case. -/
  | other
  | ref (p : Fin n)
  deriving DecidableEq, Repr

inductive Node (n : Nat) where
  | array (items : List (Value n))
  /-- The entries, with whether the key is a string. -/
  | dict (entries : List (Bool × Value n))
  | tuple (items : List (Value n))
  /-- An object, with the number of its dynamic members. -/
  | object (slots : List (Value n)) (dynamic : Nat)
  /-- An object with a method `__json__`. -/
  | custom
  deriving DecidableEq, Repr

/-- The members of a node that are there to be encoded, in order; `none` is a read outside of
the slots. The members of `dynamic` are read from the slots as well. -/
def Node.members {n : Nat} : Node n → List (Option (Value n))
  | .array vs | .tuple vs => vs.map some
  | .dict entries => entries.flatMap fun e => if e.1 then [some .scalar, some e.2] else []
  | .object slots dynamic => slots.map some ++ (List.range dynamic).map fun i => slots[i]?
  | .custom => []

/-- The members that `encode` is called with. The index into an array is of type `int`, and is
less than the count no more once it has wrapped around. -/
def Node.items {n : Nat} : Node n → List (Option (Value n))
  | .array vs => (vs.take (2 ^ 31)).map some
  | node => node.members

inductive Failure where
  /-- `try_visit` returns false. -/
  | visiting
  | refused
  | outside
  /-- A read through a null pointer. -/
  | null
  | depth
  deriving DecidableEq, Repr

variable {n : Nat}

def tryVisit (visiting : List (Fin n)) (p : Fin n) : Except Failure (List (Fin n)) :=
  if p ∈ visiting then .error .visiting else .ok (visiting ++ [p])

/-- The calls of one branch of `encode`, up to the first that returns false. -/
def loop (f : List (Fin n) → Option (Value n) → Except Failure (List (Fin n))) :
    List (Fin n) → List (Option (Value n)) → Except Failure (List (Fin n))
  | visiting, [] => .ok visiting
  | visiting, o :: os =>
    match f visiting o with
    | .error e => .error e
    | .ok visiting => loop f visiting os

/-- `encode`, to a depth of calls, with the stack `Visiting`. -/
def encode (h : Fin n → Node n) : Nat → List (Fin n) → Option (Value n) →
    Except Failure (List (Fin n))
  | 0, _, _ => .error .depth
  | _ + 1, _, none => .error .outside
  | _ + 1, _, some .other => .error .refused
  | _ + 1, visiting, some .scalar => .ok visiting
  | depth + 1, visiting, some (.ref p) =>
    match tryVisit visiting p with
    | .error e => .error e
    | .ok visiting =>
      match h p with
      | .custom => .error .null
      | node => (loop (encode h depth) visiting node.items).map (·.dropLast)

/-- `json_encode` and `json_dump`. -/
def jsonEncode (h : Fin n → Node n) (v : Value n) : Except Failure (List (Fin n)) :=
  encode h (n + 1) [] (some v)

/-! ### The graph -/

section Graph

/-- The members of each container. -/
abbrev Graph (n : Nat) := Fin n → List (Option (Value n))

variable (g : Graph n) (h : Fin n → Node n)

def Edge (p q : Fin n) : Prop := some (.ref q) ∈ g p

def Reaches (v : Value n) (q : Fin n) : Prop :=
  ∃ p, v = .ref p ∧ Relation.ReflTransGen (Edge g) p q

/-- A container of the value is reachable from itself. -/
def Cyclic (v : Value n) : Prop := ∃ q, Reaches g v q ∧ Relation.TransGen (Edge g) q q

/-- The path, as the places of members, ends in a container that it has passed or that is
in `s`. -/
def Closes : List (Fin n) → Option (Value n) → List Nat → Prop
  | s, some (.ref p), [] => p ∈ s
  | s, some (.ref p), i :: path => ∃ o ∈ (g p)[i]?, Closes (s ++ [p]) o path
  | _, _, _ => False

/-- The path ends at an object with a method `__json__`, a value without a case, or outside
of an object. -/
def Stops : Option (Value n) → List Nat → Prop
  | none, [] | some .other, [] => True
  | some (.ref p), [] => h p = .custom
  | some (.ref p), i :: path => ∃ o ∈ (h p).items[i]?, Stops o path
  | _, _ => False

/-- A cycle makes `encode` return false in `try_visit`. Any other value is encoded, and leaves
no container in `Visiting`. -/
def Exact (v : Value n) : Prop :=
  (Cyclic (fun p => (h p).members) v → jsonEncode h v = .error .visiting) ∧
    (¬ Cyclic (fun p => (h p).members) v → jsonEncode h v = .ok [])

end Graph

variable {g : Graph n} {h : Fin n → Node n} {p q r : Fin n} {v w : Value n}
  {s s' : List (Fin n)} {o : Option (Value n)} {os : List (Option (Value n))}

lemma reaches_ref_iff : Reaches g (.ref p) q ↔ q = p ∨ ∃ w, some w ∈ g p ∧ Reaches g w q := by
  constructor
  · rintro ⟨_, heq, hpath⟩
    cases heq
    rcases hpath.cases_head with rfl | ⟨r, hedge, hpath⟩
    · exact .inl rfl
    · exact .inr ⟨.ref r, hedge, r, rfl, hpath⟩
  · rintro (rfl | ⟨_, hw, r, rfl, hpath⟩)
    · exact ⟨q, rfl, .refl⟩
    · exact ⟨p, rfl, hpath.head hw⟩

lemma cyclic_ref_iff : Cyclic g (.ref p) ↔
    ∃ w, some w ∈ g p ∧ (Reaches g w p ∨ Cyclic g w) := by
  constructor
  · rintro ⟨q, hq, hloop⟩
    rcases reaches_ref_iff.mp hq with rfl | ⟨w, hw, hq⟩
    · obtain ⟨r, hedge, hpath⟩ := Relation.TransGen.head'_iff.mp hloop
      exact ⟨.ref r, hedge, .inl ⟨r, rfl, hpath⟩⟩
    · exact ⟨w, hw, .inr ⟨q, hq, hloop⟩⟩
  · rintro ⟨w, hw, ⟨r, rfl, hpath⟩ | ⟨q, hq, hloop⟩⟩
    · exact ⟨p, ⟨p, rfl, .refl⟩, .head' hw hpath⟩
    · exact ⟨q, reaches_ref_iff.mpr (.inr ⟨w, hw, hq⟩), hloop⟩

/-! ### Paths that close a cycle -/

lemma cyclic_of_closes {path : List Nat} (hc : Closes g s (some v) path) :
    (∃ q ∈ s, Reaches g v q) ∨ Cyclic g v := by
  induction path generalizing s v with
  | nil =>
    cases v with
    | ref p => exact .inl ⟨p, hc, reaches_ref_iff.mpr (.inl rfl)⟩
    | _ => cases hc
  | cons i path ih =>
    cases v with
    | ref p =>
      obtain ⟨o, ho, hc⟩ := hc
      have hmem : o ∈ g p := mem_of_getElem? ho
      cases o with
      | none => cases path <;> cases hc
      | some w =>
        rcases ih hc with ⟨q, hq, hreach⟩ | hcyclic
        · rcases mem_append.mp hq with hq | hq
          · exact .inl ⟨q, hq, reaches_ref_iff.mpr (.inr ⟨w, hmem, hreach⟩)⟩
          · cases mem_singleton.mp hq
            exact .inr (cyclic_ref_iff.mpr ⟨w, hmem, .inl hreach⟩)
        · exact .inr (cyclic_ref_iff.mpr ⟨w, hmem, .inr hcyclic⟩)
    | _ => cases hc

lemma closes_of_edge (hedge : Edge g p r)
    (hc : ∃ path, Closes g (s ++ [p]) (some (.ref r)) path) :
    ∃ path, Closes g s (some (.ref p)) path := by
  obtain ⟨i, hi⟩ := mem_iff_getElem?.mp hedge
  obtain ⟨path, hc⟩ := hc
  exact ⟨i :: path, _, hi, hc⟩

lemma closes_of_mem (hpath : Relation.ReflTransGen (Edge g) p q) (hq : q ∈ s) :
    ∃ path, Closes g s (some (.ref p)) path := by
  induction hpath using Relation.ReflTransGen.head_induction_on generalizing s with
  | refl => exact ⟨[], hq⟩
  | head hedge _ ih => exact closes_of_edge hedge (ih (mem_append_left _ hq))

lemma closes_of_cyclic (hv : Cyclic g v) : ∃ path, Closes g [] (some v) path := by
  obtain ⟨q, ⟨p, rfl, hpath⟩, hloop⟩ := hv
  obtain ⟨r, hedge, hback⟩ := Relation.TransGen.head'_iff.mp hloop
  generalize ([] : List (Fin n)) = s
  induction hpath using Relation.ReflTransGen.head_induction_on generalizing s with
  | refl => exact closes_of_edge hedge (closes_of_mem hback (by simp))
  | head hedge _ ih => exact closes_of_edge hedge (ih _)

/-! ### What a call meets first -/

/-- A call that succeeds leaves the stack as it was, and has met nothing. One that fails has
met either a container of the stack or what stops it, and nothing of the other kind before. -/
inductive Outcome (h : Fin n → Node n) (s : List (Fin n)) (o : Option (Value n)) :
    Except Failure (List (Fin n)) → Prop
  | done (hnone : ∀ path, ¬ Closes (fun p => (h p).items) s o path ∧ ¬ Stops h o path) :
      Outcome h s o (.ok s)
  | closes (path : List Nat) (hpath : Closes (fun p => (h p).items) s o path)
      (hfirst : ∀ path', Stops h o path' → path < path') : Outcome h s o (.error .visiting)
  | stops (path : List Nat) {e : Failure} (he : e ≠ .visiting) (hpath : Stops h o path)
      (hfirst : ∀ path', Closes (fun p => (h p).items) s o path' → ¬ path' < path) :
      Outcome h s o (.error e)

variable {f : List (Fin n) → Option (Value n) → Except Failure (List (Fin n))}

lemma loop_cases (hf : ∀ o, Outcome h s o (f s o)) (os : List (Option (Value n))) :
    loop f s os = .ok s ∧ (∀ o ∈ os, f s o = .ok s) ∨
      ∃ before o after e, os = before ++ o :: after ∧ (∀ o ∈ before, f s o = .ok s) ∧
        f s o = .error e ∧ loop f s os = .error e := by
  induction os with
  | nil => exact .inl ⟨rfl, by simp⟩
  | cons o os ih =>
    have ho := hf o
    rw [loop]
    cases hfirst : f s o with
    | error e => exact .inr ⟨[], o, os, e, rfl, by simp, hfirst, rfl⟩
    | ok s1 =>
      rw [hfirst] at ho
      cases ho
      rcases ih with ⟨hloop, hall⟩ | ⟨before, o', after, e, rfl, hall, he, hloop⟩
      · exact .inl ⟨hloop, forall_mem_cons.mpr ⟨hfirst, hall⟩⟩
      · exact .inr ⟨o :: before, o', after, e, rfl, forall_mem_cons.mpr ⟨hfirst, hall⟩, he, hloop⟩

/-- The members are met in order, and the container itself before them. -/
lemma Outcome.ref (hp : p ∉ s) (hplain : h p ≠ .custom)
    (hf : ∀ o, Outcome h (s ++ [p]) o (f (s ++ [p]) o)) :
    Outcome h s (some (.ref p)) ((loop f (s ++ [p]) (h p).items).map (·.dropLast)) := by
  have hdone : ∀ o, f (s ++ [p]) o = .ok (s ++ [p]) → ∀ path,
      ¬ Closes (fun p => (h p).items) (s ++ [p]) o path ∧ ¬ Stops h o path := by
    intro o ho
    have hout := hf o
    rw [ho] at hout
    cases hout
    assumption
  rcases loop_cases hf (h p).items with
    ⟨hloop, hall⟩ | ⟨before, o, after, e, hitems, hall, he, hloop⟩
  · rw [hloop, Except.map, dropLast_concat]
    refine .done fun path => ?_
    cases path with
    | nil => exact ⟨hp, hplain⟩
    | cons i path =>
      exact ⟨fun ⟨o, ho, hc⟩ => (hdone o (hall o (mem_of_getElem? ho)) path).1 hc,
        fun ⟨o, ho, hs⟩ => (hdone o (hall o (mem_of_getElem? ho)) path).2 hs⟩
  · have hat : (h p).items[before.length]? = some o := by simp [hitems]
    have hbefore : ∀ {i o'}, i < before.length → o' ∈ (h p).items[i]? →
        f (s ++ [p]) o' = .ok (s ++ [p]) := by
      intro i o' hi ho'
      rw [hitems, getElem?_append_left hi] at ho'
      exact hall o' (mem_of_getElem? ho')
    have hout := hf o
    rw [he] at hout
    rw [hloop]
    cases hout with
    | closes path hpath hfirst =>
      refine .closes (before.length :: path) ⟨o, hat, hpath⟩ fun path' hs => ?_
      cases path' with
      | nil => exact absurd hs hplain
      | cons j path' =>
        obtain ⟨o', ho', hs⟩ := hs
        rcases lt_trichotomy j before.length with hj | rfl | hj
        · exact absurd hs (hdone o' (hbefore hj ho') path').2
        · cases hat.symm.trans ho'
          exact cons_lt_cons_iff.mpr (.inr ⟨rfl, hfirst path' hs⟩)
        · exact cons_lt_cons_iff.mpr (.inl hj)
    | stops path hne hpath hfirst =>
      refine .stops (before.length :: path) hne ⟨o, hat, hpath⟩ fun path' hc hlt => ?_
      cases path' with
      | nil => exact hp hc
      | cons j path' =>
        obtain ⟨o', ho', hc⟩ := hc
        rcases cons_lt_cons_iff.mp hlt with hj | ⟨rfl, hlt'⟩
        · exact (hdone o' (hbefore hj ho') path').1 hc
        · cases hat.symm.trans ho'
          exact hfirst path' hc hlt'

lemma encode_outcome (depth : Nat) (hs : s.Nodup) (hplain : ∀ q ∈ s, h q ≠ .custom)
    (hdepth : n < s.length + depth) (o : Option (Value n)) :
    Outcome h s o (encode h depth s o) := by
  induction depth generalizing s o with
  | zero =>
    have hlen : s.length ≤ n := by simpa using hs.length_le_card
    omega
  | succ depth ih =>
    match o with
    | none | some .other =>
      refine .stops [] (by simp) trivial fun path hc => ?_
      cases path <;> cases hc
    | some .scalar =>
      refine .done fun path => ?_
      cases path <;> exact ⟨id, id⟩
    | some (.ref p) =>
      rw [encode, tryVisit]
      by_cases hp : p ∈ s
      · rw [if_pos hp]
        refine .closes [] hp fun path hpath => ?_
        cases path with
        | nil => exact absurd hpath (hplain p hp)
        | cons i path => exact nil_lt_cons i path
      rw [if_neg hp]
      by_cases hcustom : h p = .custom
      · simp only [hcustom]
        exact .stops [] (by simp) hcustom fun path _ => not_lt_nil path
      have hs' : (s ++ [p]).Nodup := nodup_append.mpr ⟨hs, nodup_singleton p, by grind⟩
      have hstep : Outcome h s (some (.ref p))
          ((loop (encode h depth) (s ++ [p]) (h p).items).map (·.dropLast)) :=
        .ref hp hcustom (ih hs' (by grind) (by simp; omega))
      cases hnode : h p with
      | custom => exact absurd hnode hcustom
      | _ => rwa [hnode] at hstep

lemma cyclic_mono {g' : Graph n} (hg : ∀ p, g p ⊆ g' p) (hv : Cyclic g v) : Cyclic g' v := by
  obtain ⟨q, ⟨p, rfl, hpath⟩, hloop⟩ := hv
  have hedge : Edge g ≤ Edge g' := fun p _ hmem => hg p hmem
  exact ⟨q, ⟨p, rfl, Relation.ReflTransGen.mono hedge p q hpath⟩,
    Relation.TransGen.mono hedge q q hloop⟩

lemma items_subset (node : Node n) : node.items ⊆ node.members := by
  cases node with
  | array vs => exact map_subset _ (take_subset _ _)
  | _ => exact Subset.refl _

end TyLang.Json.Visiting
