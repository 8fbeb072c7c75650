import Mathlib

/-!
The member offsets of a final class (`cache_offsets` in `src/class.c`). The kind of a member stands
above bit 13 of an entry, but its index is read from the lowest twelve.
-/
namespace TyLang.Offsets
open List

inductive Kind where
  | field | method | getter | setter
  deriving DecidableEq

def Kind.off : Kind → Nat
  | .field => 0
  | .method => 1
  | .getter => 2
  | .setter => 3

/-- A declaration, by its address. -/
structure Expr where
  addr : Nat
  decorators : Nat

structure Class where
  /-- The ids of the table of a kind. -/
  ids : Kind → List Nat
  /-- For each field the declaration whose decorated value it holds. -/
  values : List (Option Nat)
  /-- `FindMethod`, `FindGetter` and `FindSetter`. -/
  find : Kind → Nat → Option Expr

variable (c : Class)

def decoratedSlot (meth : Expr) : Option Nat := c.values.findIdx? (· == some meth.addr)

/-- The flags of a member and its index, that of a field if it is decorated. -/
def place : Kind → Nat → Nat → Option (Nat × Nat)
  | .field, _, i => some (Kind.field.off, i)
  | k, id, i => do
    let meth ← c.find k id
    if meth.decorators > 0 then return (k.off ||| 4, ← decoratedSlot c meth)
    return (k.off, i)

def offNotFound : Nat := 0xFFFF

def encode (m : Nat × Nat) : Nat := (m.1 <<< 13 ||| m.2 % 2 ^ 16) % 2 ^ 16

def decode (off : Nat) : Nat × Nat := (off >>> 13, off &&& 0x0FFF)

/-- A round of `cache_offsets`, or nothing if a declaration is missing. -/
def cacheOffset (offsets : List Nat) : Kind × Nat × Nat → Option (List Nat)
  | (k, id, i) => do
    let m ← place c k id i
    return (offsets ++ replicate (id + 1 - offsets.length) offNotFound).set id (encode m)

/-- The rounds over the tables of some kinds. -/
def rounds (ks : List Kind) : List (Kind × Nat × Nat) :=
  ks.flatMap fun k => (c.ids k).zipIdx.map (k, ·)

def cacheOffsets (ks : List Kind) : Option (List Nat) := (rounds c ks).foldlM (cacheOffset c) []

def readKinds : List Kind := [.field, .method, .getter]

def writeKinds : List Kind := [.field, .setter]

/-- `FastReadOffset` and `FastWriteOffset`. -/
def fastOffset (offsets : List Nat) (id : Nat) : Nat := offsets.getD id offNotFound

section Spec
variable (ks : List Kind)

/-- A member, by its id, its kind and its index. -/
def Member (id : Nat) (m : Nat × Nat) : Prop :=
  ∃ k i, (k, id, i) ∈ rounds c ks ∧ place c k id i = some m

structure Decodes (offsets : List Nat) : Prop where
  found : ∀ id m, Member c ks id m → decode (fastOffset offsets id) = m
  absent : ∀ id, (∀ k i, (k, id, i) ∉ rounds c ks) → fastOffset offsets id = offNotFound
  ne_notFound : ∀ id m, Member c ks id m → encode m ≠ offNotFound
  injective : ∀ id m id' m', Member c ks id m → Member c ks id' m' → encode m = encode m' → id = id'

/-- The indices have twelve bits, and ids and places belong to each other. -/
def Separate : Prop :=
  (∀ id m, Member c ks id m → m.2 < 2 ^ 12) ∧
  (∀ id m m', Member c ks id m → Member c ks id m' → m = m') ∧
  ∀ id id' m, Member c ks id m → Member c ks id' m → id = id'

end Spec

variable {c} {k : Kind} {ks : List Kind} {offsets offsets' : List Nat} {id i : Nat} {m : Nat × Nat}

lemma fastOffset_set (off id' : Nat) :
    fastOffset ((offsets ++ replicate (id + 1 - offsets.length) offNotFound).set id off) id' =
      if id' = id then off else fastOffset offsets id' := by
  unfold fastOffset
  rw [getD_eq_getElem?_getD, getD_eq_getElem?_getD, getElem?_set, length_append, length_replicate]
  by_cases h : id = id'
  · rw [if_pos h, if_pos h.symm, if_pos (by omega)]
    rfl
  rw [if_neg h, if_neg (Ne.symm h), getElem?_append]
  split
  · rfl
  · rw [getElem?_eq_none (l := offsets) (by omega), getElem?_replicate]
    split <;> rfl

/-- What was stored last for an id, or what there was. -/
lemma cacheOffset_run {l : List (Kind × Nat × Nat)}
    (h : l.foldlM (cacheOffset c) offsets = some offsets') (id : Nat) :
    (∃ k i m, (k, id, i) ∈ l ∧ place c k id i = some m ∧ fastOffset offsets' id = encode m) ∨
      (∀ k i, (k, id, i) ∉ l) ∧ fastOffset offsets' id = fastOffset offsets id := by
  induction l generalizing offsets with
  | nil =>
    cases h
    exact .inr ⟨nofun, rfl⟩
  | cons e l ih =>
    obtain ⟨k, a, i⟩ := e
    obtain ⟨offs, hstep, h⟩ := Option.bind_eq_some_iff.mp h
    obtain ⟨m, hm, hset⟩ := Option.bind_eq_some_iff.mp hstep
    cases hset
    rcases ih h with ⟨k', i', m', hmem, h'⟩ | ⟨hnot, hoff⟩
    · exact .inl ⟨k', i', m', .tail _ hmem, h'⟩
    rw [fastOffset_set] at hoff
    split at hoff
    · next ha =>
      subst ha
      exact .inl ⟨k, i, m, .head _, hm, hoff⟩
    · next ha =>
      refine .inr ⟨fun k' i' hmem => ?_, hoff⟩
      rcases mem_cons.mp hmem with heq | hmem
      · cases heq
        exact ha rfl
      · exact hnot k' i' hmem

lemma flags_lt (h : place c k id i = some m) : m.1 < 8 := by
  have hkind : k.off < 8 ∧ k.off ||| 4 < 8 := by cases k <;> decide
  unfold place at h
  split at h
  · cases h
    exact hkind.1
  · obtain ⟨meth, -, h⟩ := Option.bind_eq_some_iff.mp h
    split at h
    · obtain ⟨slot, -, h⟩ := Option.bind_eq_some_iff.mp h
      cases h
      exact hkind.2
    · cases h
      exact hkind.1

lemma decode_encode_index (m : Nat × Nat) : (decode (encode m)).2 = m.2 % 2 ^ 12 := by
  have hflags : m.1 <<< 13 % 2 ^ 12 = 0 := by
    rw [Nat.shiftLeft_eq]
    omega
  change encode m &&& 2 ^ 12 - 1 = _
  rw [Nat.and_two_pow_sub_one_eq_mod, encode, Nat.mod_mod_of_dvd _ (by decide), Nat.or_mod_two_pow,
    hflags, Nat.zero_or, Nat.mod_mod_of_dvd _ (by decide)]

lemma encode_eq (hflags : m.1 < 8) (hindex : m.2 < 2 ^ 12) : encode m = m.1 * 2 ^ 13 + m.2 := by
  rw [encode, Nat.mod_eq_of_lt (by omega : m.2 < 2 ^ 16),
    ← Nat.shiftLeft_add_eq_or_of_lt (by omega), Nat.shiftLeft_eq]
  omega

lemma decode_encode (hflags : m.1 < 8) (hindex : m.2 < 2 ^ 12) : decode (encode m) = m := by
  refine Prod.ext ?_ ((decode_encode_index m).trans (Nat.mod_eq_of_lt hindex))
  rw [decode, encode_eq hflags hindex, Nat.shiftRight_eq_div_pow]
  omega

lemma decodes_iff (h : cacheOffsets c ks = some offsets) :
    Decodes c ks offsets ↔ Separate c ks := by
  -- for an id that is a member, the entry is that of one of its places
  have hstored {id m} (hm : Member c ks id m) :
      ∃ m', Member c ks id m' ∧ fastOffset offsets id = encode m' := by
    obtain ⟨k, i, hmem, hplace⟩ := hm
    rcases cacheOffset_run h id with ⟨k', i', m', hmem', hplace', hoff⟩ | ⟨hnot, -⟩
    · exact ⟨m', ⟨k', i', hmem', hplace'⟩, hoff⟩
    · exact absurd hmem (hnot k i)
  constructor
  · rintro ⟨found, -, -, injective⟩
    have hone {id m m'} (hm : Member c ks id m) (hm' : Member c ks id m') : m = m' :=
      (found id m hm).symm.trans (found id m' hm')
    refine ⟨fun id m hm => ?_, fun id m m' => hone, fun id id' m hm hm' => ?_⟩
    · obtain ⟨m', hm', hoff⟩ := hstored hm
      have hindex := decode_encode_index m'
      rw [← hoff, found id m hm, hone hm' hm] at hindex
      omega
    · exact injective id m id' m hm hm' rfl
  · rintro ⟨hindex, hone, hplaces⟩
    have hflags {id m} (hm : Member c ks id m) : m.1 < 8 := by
      obtain ⟨k, i, -, hplace⟩ := hm
      exact flags_lt hplace
    have hdecode {id m} (hm : Member c ks id m) : decode (encode m) = m :=
      decode_encode (hflags hm) (hindex id m hm)
    refine ⟨fun id m hm => ?_, fun id hnot => ?_, fun id m hm heq => ?_,
      fun id m id' m' hm hm' heq => ?_⟩
    · obtain ⟨m', hm', hoff⟩ := hstored hm
      rw [hoff, hdecode hm', hone id m' m hm' hm]
    · rcases cacheOffset_run h id with ⟨k, i, m, hmem, -⟩ | ⟨-, hoff⟩
      · exact absurd hmem (hnot k i)
      · exact hoff
    · have hlt := hindex id m hm
      rw [encode_eq (hflags hm) hlt, offNotFound] at heq
      omega
    · obtain rfl : m = m' := by rw [← hdecode hm, heq, hdecode hm']
      exact hplaces id id' m hm hm'

/-- Both caches of a class for which all declarations are found. -/
theorem cacheOffsets_iff (c : Class) {r w : List Nat} (hr : cacheOffsets c readKinds = some r)
    (hw : cacheOffsets c writeKinds = some w) : Decodes c readKinds r ∧ Decodes c writeKinds w ↔
      Separate c readKinds ∧ Separate c writeKinds := by
  rw [decodes_iff hr, decodes_iff hw]

lemma separate_of_places (places : List (Nat × Nat × Nat))
    (h : (rounds c ks).map (fun e => (e.2.1, place c e.1 e.2.1 e.2.2)) =
      places.map fun p => (p.1, some p.2))
    (hindex : ∀ p ∈ places, p.2.2 < 2 ^ 12)
    (hone : ∀ p ∈ places, ∀ q ∈ places, p.1 = q.1 ↔ p.2 = q.2) : Separate c ks := by
  have hmem {id m} : Member c ks id m → (id, m) ∈ places := by
    rintro ⟨k, i, hround, hplace⟩
    obtain ⟨p, hp, heq⟩ := mem_map.mp (h ▸ mem_map_of_mem hround)
    rw [hplace] at heq
    cases heq
    exact hp
  refine ⟨fun _ _ hm => hindex _ (hmem hm), fun _ _ _ hm hm' => ?_, fun _ _ _ hm hm' => ?_⟩
  · exact (hone _ (hmem hm) _ (hmem hm')).mp rfl
  · exact (hone _ (hmem hm) _ (hmem hm')).mpr rfl

/-- Two methods, of which the second is decorated and kept in the field with id 3, a field,
and a property with a getter and a setter. -/
def withProperty : Class where
  ids
    | .field => [3, 0]
    | .method => [1, 2]
    | .getter => [4]
    | .setter => [4]
  values := [some 7, none]
  find _ id := some (if id = 2 then ⟨7, 1⟩ else ⟨id, 0⟩)

theorem cacheOffsets_withProperty :
    cacheOffsets withProperty readKinds = some [1, 8192, 40960, 0, 16384] ∧
      cacheOffsets withProperty writeKinds = some [1, 65535, 65535, 0, 24576] ∧
      Decodes withProperty readKinds [1, 8192, 40960, 0, 16384] ∧
      Decodes withProperty writeKinds [1, 65535, 65535, 0, 24576] := by
  refine ⟨rfl, rfl, (cacheOffsets_iff withProperty rfl rfl).mpr ⟨?_, ?_⟩⟩
  · exact separate_of_places [(3, 0, 0), (0, 0, 1), (1, 1, 0), (2, 5, 0), (4, 2, 0)] rfl
      (by decide) (by decide)
  · exact separate_of_places [(3, 0, 0), (0, 0, 1), (4, 3, 0)] rfl (by decide) (by decide)

/-- A class of methods without decorators. -/
def methodsOnly (n : Nat) : Class where
  ids k := if k = .method then range n else []
  values := []
  find _ _ := some ⟨0, 0⟩

lemma cacheOffset_total (n : Nat) (l : List (Kind × Nat × Nat)) (offsets : List Nat) :
    ∃ offsets', l.foldlM (cacheOffset (methodsOnly n)) offsets = some offsets' := by
  induction l generalizing offsets with
  | nil => exact ⟨offsets, rfl⟩
  | cons e l ih =>
    obtain ⟨k, id, i⟩ := e
    cases k <;> exact ih _

/-- The index of the last of 4097 methods does not fit. -/
theorem cacheOffsets_4097 : ∃ r, cacheOffsets (methodsOnly 4097) readKinds = some r ∧
    ¬ Decodes (methodsOnly 4097) readKinds r := by
  obtain ⟨r, hr⟩ := cacheOffset_total 4097 (rounds (methodsOnly 4097) readKinds) []
  refine ⟨r, hr, fun h => ?_⟩
  have hmem : (.method, 4096, 4096) ∈ rounds (methodsOnly 4097) readKinds := by
    simp [rounds, readKinds, methodsOnly, mem_zipIdx_iff_getElem?]
  exact absurd (((decodes_iff hr).mp h).1 4096 (1, 4096) ⟨_, _, hmem, rfl⟩) (by decide)

end TyLang.Offsets
