import Mathlib

/-!
`Flatten` on tuple types (`src/types.c`). The flags are rebuilt with the types and the names, but
only those two are written back.
-/
namespace TyLang.Flatten
open List

inductive Typ where
  | other (tag : Nat)
  /-- A variable that is bound. -/
  | var (bound : Typ)
  | sequence (types : List Typ)

def resolveVar : Typ → Typ
  | .var t => resolveVar t
  | t => t

/-- The types of a sequence. -/
def parts (t : Typ) : Option (List Typ) :=
  match resolveVar t with
  | .sequence types => some types
  | _ => none

/-- An entry of a tuple type whose three vectors have one length. -/
structure Entry where
  type : Typ
  name : Option String
  required : Bool

/-- An entry out of a sequence. -/
def bare (t : Typ) : Entry := ⟨t, none, false⟩

/-- What is pushed for an entry. -/
def spread (e : Entry) : List Entry :=
  match parts e.type with
  | some types => types.map bare
  | none => [e]

def pass (es : List Entry) : List Entry := es.flatMap spread

def alreadyFlat (es : List Entry) : Bool := es.all fun e => (parts e.type).isNone

noncomputable def weight (es : List Entry) : Nat := (es.map fun e => sizeOf e.type).sum

lemma sizeOf_parts : ∀ {t : Typ} {types : List Typ}, parts t = some types → sizeOf types < sizeOf t
  | .var t, types, h => by
    have := sizeOf_parts (t := t) h
    simp only [Typ.var.sizeOf_spec]
    omega
  | .sequence _, _, rfl => by simp

lemma weight_bare (types : List Typ) : weight (types.map bare) ≤ sizeOf types := by
  induction types with
  | nil => simp [weight]
  | cons t types ih =>
    simp only [weight, bare, map_cons, sum_cons, List.cons.sizeOf_spec] at ih ⊢
    omega

lemma weight_pass (es : List Entry) :
    weight (pass es) < weight es ∨ alreadyFlat es ∧ weight (pass es) = weight es := by
  induction es with
  | nil => exact .inr ⟨rfl, rfl⟩
  | cons e es ih =>
    have hpass : weight (pass (e :: es)) = weight (spread e) + weight (pass es) := by
      simp [weight, pass]
    have hcons : weight (e :: es) = sizeOf e.type + weight es := by simp [weight]
    cases h : parts e.type with
    | none =>
      have hspread : weight (spread e) = sizeOf e.type := by simp [weight, spread, h]
      exact ih.imp (by omega) fun hflat => ⟨by simpa [alreadyFlat, h] using hflat.1, by omega⟩
    | some types =>
      have hlt := sizeOf_parts h
      have hbare := weight_bare types
      have hspread : spread e = types.map bare := by rw [spread, h]
      rw [← hspread] at hbare
      omega

/-- The vectors that `FlattenTypeSequence` makes. -/
def flattenTypeSequence (es : List Entry) : List Entry :=
  if _h : alreadyFlat es then es else flattenTypeSequence (pass es)
termination_by weight es
decreasing_by exact (weight_pass es).resolve_right fun h => _h h.1

structure Tuple where
  types : List Typ
  names : List (Option String)
  required : List Bool

/-- The flags stay as they are. -/
def flatten (es : List Entry) : Tuple :=
  let flat := flattenTypeSequence es
  ⟨flat.map (·.type), flat.map (·.name), es.map (·.required)⟩

/-- What a type becomes. -/
def leaves (t : Typ) : List Typ :=
  match _h : parts t with
  | some types => types.attach.flatMap fun s => leaves s.1
  | none => [t]
termination_by sizeOf t
decreasing_by exact Nat.lt_trans (sizeOf_lt_of_mem s.2) (sizeOf_parts _h)

/-- What an entry becomes. -/
def spreadAll (e : Entry) : List Entry :=
  match parts e.type with
  | some types => (types.flatMap leaves).map bare
  | none => [e]

def newPosition (es : List Entry) (i : Nat) : Nat := ((es.take i).flatMap spreadAll).length

/-- The vectors have one length, and an entry that is not a sequence is found again. -/
structure Parallel (es : List Entry) (t : Tuple) : Prop where
  names : t.names.length = t.types.length
  required : t.required.length = t.types.length
  kept : ∀ i e, es[i]? = some e → parts e.type = none →
    t.types[newPosition es i]? = some e.type ∧ t.names[newPosition es i]? = some e.name ∧
      t.required[newPosition es i]? = some e.required

lemma leaves_eq (t : Typ) : leaves t = match parts t with
    | some types => types.flatMap leaves
    | none => [t] := by
  rw [leaves]
  split <;> simp_all

lemma spreadAll_bare (t : Typ) : spreadAll (bare t) = (leaves t).map bare := by
  rw [spreadAll, leaves_eq, bare]
  cases parts t <;> rfl

lemma flattenTypeSequence_eq (es : List Entry) :
    flattenTypeSequence es = es.flatMap spreadAll := by
  fun_induction flattenTypeSequence es with
  | case1 es h =>
    refine (flatMap_singleton' es).symm.trans (flatMap_congr fun e he => ?_)
    have hnone := all_eq_true.mp h e he
    cases hparts : parts e.type <;> simp_all [spreadAll]
  | case2 es h ih =>
    rw [ih, pass, flatMap_assoc]
    refine flatMap_congr fun e _ => ?_
    cases hparts : parts e.type with
    | none => simp [spread, spreadAll, hparts]
    | some types =>
      rw [spread, spreadAll, hparts]
      simp only [flatMap_map, map_flatMap, spreadAll_bare]

lemma getElem?_flattenTypeSequence {es : List Entry} {i : Nat} {e : Entry} (hi : es[i]? = some e)
    (he : parts e.type = none) : (flattenTypeSequence es)[newPosition es i]? = some e := by
  have hsplit : es = es.take i ++ e :: es.drop (i + 1) := by
    obtain ⟨hlt, rfl⟩ := List.getElem?_eq_some_iff.mp hi
    simp
  have hspread : spreadAll e = [e] := by rw [spreadAll, he]
  rw [flattenTypeSequence_eq, newPosition]
  nth_rw 1 [hsplit]
  rw [flatMap_append, flatMap_cons, hspread, getElem?_append_right .refl, Nat.sub_self]
  rfl

/-- The flags fit just if the number of entries stays and each flag that is met after a move has
the same value. -/
theorem flatten_iff (es : List Entry) : Parallel es (flatten es) ↔
    (es.flatMap spreadAll).length = es.length ∧ ∀ i e, es[i]? = some e → parts e.type = none →
      (es.map (·.required))[newPosition es i]? = some e.required := by
  have hlength : (flatten es).types.length = (es.flatMap spreadAll).length := by
    simp [flatten, flattenTypeSequence_eq]
  have hrequired : (flatten es).required.length = es.length := length_map _
  constructor
  · intro h
    exact ⟨by rw [← hlength, ← h.required, hrequired], fun i e hi he => (h.kept i e hi he).2.2⟩
  · rintro ⟨hsame, hflags⟩
    refine ⟨by simp [flatten], by rw [hrequired, hlength, hsame], fun i e hi he => ?_⟩
    have hflat := getElem?_flattenTypeSequence hi he
    exact ⟨by simp [flatten, hflat], by simp [flatten, hflat], hflags i e hi he⟩

/-- A tuple type of a pair of types in a sequence and an optional entry. -/
def pairThenOptional : List Entry := [⟨.sequence [.other 0, .other 1], none, true⟩,
    ⟨.other 2, none, false⟩]

theorem flatten_pairThenOptional : (flatten pairThenOptional).types.length = 3 ∧
    (flatten pairThenOptional).required = [true, false] := by
  refine ⟨?_, rfl⟩
  simp [flatten, flattenTypeSequence_eq, pairThenOptional, spreadAll, parts, resolveVar, leaves]

end TyLang.Flatten
