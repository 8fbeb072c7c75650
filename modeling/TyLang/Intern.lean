import Mathlib

/-!
Interned names (`src/intern.c`, `include/intern.h`). A name that is not found is pushed to its
bucket and popped again, and `intern_put` takes the popped entry back.
-/
namespace TyLang.Intern
open List

structure Entry where
  id : Int
  name : String
  hash : Nat

structure InternSet where
  /-- The buckets. -/
  set : Nat → List Entry := fun _ => []
  /-- The memory behind the buckets. -/
  popped : Nat → Option Entry := fun _ => none
  index : List Nat := []

variable (hash64z : String → Nat)

def find (bucket : List Entry) (name : String) (hash : Nat) : Option Entry :=
  bucket.find? fun e => e.hash == hash && e.name == name

def internGet (s : InternSet) (name : String) : InternSet × Entry :=
  let hash := hash64z name
  let k := hash % 256
  match find (s.set k) name hash with
  | some e => (s, e)
  | none =>
    let e : Entry := ⟨-(k + 1), name, hash⟩
    ({ s with popped := Function.update s.popped k (some e) }, e)

def internPut (s : InternSet) (e : Entry) : InternSet × Entry :=
  let k := (-e.id - 1).toNat
  let e := { e with id := s.index.length }
  ({ set := Function.update s.set k (s.set k ++ [e])
     popped := Function.update s.popped k none
     index := s.index ++ [((s.set k).length <<< 8 ||| k) % 2 ^ 32] }, e)

def intern (s : InternSet) (name : String) : InternSet × Entry :=
  let (s, e) := internGet hash64z s name
  if e.id ≥ 0 then (s, e) else internPut s e

def internEntry (s : InternSet) (id : Nat) : Option Entry := do
  let key ← s.index[id]?
  (s.set (key &&& 0xFF))[key >>> 8]?

inductive Call where
  | intern (name : String)
  | internGet (name : String)

def step (s : InternSet) : Call → InternSet
  | .intern name => (intern hash64z s name).1
  | .internGet name => (internGet hash64z s name).1

def run (calls : List Call) : InternSet := calls.foldl (step hash64z) {}

def addName (ns : List String) : Call → List String
  | .intern name => if name ∈ ns then ns else ns ++ [name]
  | .internGet _ => ns

/-- The names that are interned, in the order in which they first were. -/
def names (calls : List Call) : List String := calls.foldl addName []

structure Inv (s : InternSet) (ns : List String) : Prop where
  nodup : ns.Nodup
  index : s.index.length = ns.length
  length_le : ∀ k, (s.set k).length ≤ ns.length
  items : ∀ k, ∀ e ∈ s.set k, ns[e.id.toNat]? = some e.name ∧ 0 ≤ e.id
  stored : ∀ (i : Nat) name, ns[i]? = some name → ∃ key, s.index[i]? = some key ∧
    key &&& 0xFF = hash64z name % 256 ∧
    (s.set (hash64z name % 256))[key >>> 8]? = some ⟨i, name, hash64z name⟩

variable {hash64z} {s : InternSet} {ns : List String} {name : String}

/-- A name that is interned is found with its place among the names. -/
lemma Inv.find_cases (h : Inv hash64z s ns) (name : String) :
    (name ∈ ns ∧ ∃ e, find (s.set (hash64z name % 256)) name (hash64z name) = some e ∧
      e.id = ns.idxOf name) ∨
    name ∉ ns ∧ find (s.set (hash64z name % 256)) name (hash64z name) = none := by
  cases hfind : find (s.set (hash64z name % 256)) name (hash64z name) with
  | some e =>
    have hname := find?_some hfind
    simp only [Bool.and_eq_true, beq_iff_eq] at hname
    obtain ⟨hget, hid⟩ := h.items _ e (mem_of_find?_eq_some hfind)
    rw [hname.2] at hget
    obtain ⟨hlt, hget'⟩ := List.getElem?_eq_some_iff.mp hget
    have hidx := h.nodup.idxOf_getElem _ hlt
    rw [hget'] at hidx
    exact .inl ⟨mem_of_getElem? hget, e, rfl, by omega⟩
  | none =>
    refine .inr ⟨fun hmem => ?_, rfl⟩
    obtain ⟨i, hi⟩ := mem_iff_getElem?.mp hmem
    obtain ⟨key, -, -, hitem⟩ := h.stored i name hi
    simpa using find?_eq_none.mp hfind _ (mem_of_getElem? hitem)

lemma key_eq {j k : Nat} (hj : j < 2 ^ 24) (hk : k < 2 ^ 8) :
    (j <<< 8 ||| k) % 2 ^ 32 &&& 0xFF = k ∧ ((j <<< 8 ||| k) % 2 ^ 32) >>> 8 = j := by
  have hkey : (j <<< 8 ||| k) % 2 ^ 32 = j * 2 ^ 8 + k := by
    rw [← Nat.shiftLeft_add_eq_or_of_lt hk, Nat.shiftLeft_eq]
    omega
  rw [hkey, show 0xFF = 2 ^ 8 - 1 from rfl, Nat.and_two_pow_sub_one_eq_mod,
    Nat.shiftRight_eq_div_pow]
  omega

lemma getElem?_append_of_some {α : Type} {l : List α} {i : Nat} {x : α} (t : List α)
    (h : l[i]? = some x) : (l ++ t)[i]? = some x := by
  rw [getElem?_append_left (List.getElem?_eq_some_iff.mp h).1, h]

/-- The entry of a new name goes to the end of its bucket. -/
lemma Inv.put (h : Inv hash64z s ns) (hnew : name ∉ ns) (hlt : ns.length < 2 ^ 24) :
    Inv hash64z (internPut s ⟨-(↑(hash64z name % 256) + 1), name, hash64z name⟩).1
      (ns ++ [name]) := by
  have hbucket : (- -((↑(hash64z name % 256) : Int) + 1) - 1).toNat = hash64z name % 256 := by
    omega
  simp only [internPut, hbucket, h.index]
  generalize hk : hash64z name % 256 = k
  obtain ⟨hlow, hhigh⟩ := key_eq (Nat.lt_of_le_of_lt (h.length_le k) hlt) (show k < 2 ^ 8 by omega)
  refine ⟨by simpa using h.nodup.concat hnew, by simp [h.index], fun k' => ?_, fun k' e he => ?_,
    fun i name' hi => ?_⟩
  · have hle := h.length_le k'
    simp only [Function.update_apply]
    split
    · next heq =>
      subst heq
      simpa
    · grind
  · have hold (he : e ∈ s.set k') := (h.items k' e he).imp_left (getElem?_append_of_some [name])
    simp only [Function.update_apply] at he
    split at he
    · rcases mem_append.mp he with he | he
      · exact hold (by simp_all)
      · cases mem_singleton.mp he
        simp
    · exact hold he
  · rcases Nat.lt_or_ge i ns.length with hlt' | hge
    · rw [getElem?_append_left hlt'] at hi
      obtain ⟨key, hkey, hlow', hitem⟩ := h.stored i name' hi
      refine ⟨key, getElem?_append_of_some _ hkey, hlow', ?_⟩
      simp only [Function.update_apply]
      split
      · next heq => exact getElem?_append_of_some _ (heq ▸ hitem)
      · exact hitem
    · rw [getElem?_append_right hge, getElem?_singleton] at hi
      obtain ⟨hi, ⟨⟩⟩ := Option.ite_none_right_eq_some.mp hi
      obtain rfl : i = ns.length := by omega
      refine ⟨_, by rw [← h.index, getElem?_concat_length], by rw [hlow, hk], ?_⟩
      rw [hk, hhigh]
      simp

lemma Inv.intern (h : Inv hash64z s ns) (hlt : ns.length < 2 ^ 24) :
    Inv hash64z (intern hash64z s name).1 (addName ns (.intern name)) ∧
    (intern hash64z s name).2.id = (addName ns (.intern name)).idxOf name := by
  rcases h.find_cases name with ⟨hmem, e, hfind, hid⟩ | ⟨hnew, hfind⟩
  · simp [Intern.intern, internGet, hfind, hid, addName, hmem, h]
  · have hneg : ¬ -(((hash64z name % 256 : Nat) : Int) + 1) ≥ 0 := by omega
    simp only [Intern.intern, internGet, hfind, if_neg hneg, addName, if_neg hnew]
    refine ⟨Inv.put ⟨h.nodup, h.index, h.length_le, h.items, h.stored⟩ hnew hlt, ?_⟩
    simp [internPut, idxOf_append_of_notMem hnew, h.index]

/-- A lookup leaves the buckets and the index as they are. -/
lemma Inv.internGet (h : Inv hash64z s ns) (name : String) :
    ((internGet hash64z s name).1.set = s.set ∧ (internGet hash64z s name).1.index = s.index) ∧
    (0 ≤ (internGet hash64z s name).2.id ↔ name ∈ ns) := by
  rcases h.find_cases name with ⟨hmem, e, hfind, hid⟩ | ⟨hnew, hfind⟩
  · simp [Intern.internGet, hfind, hid, hmem]
  · simp only [Intern.internGet, hfind, hnew, and_self, true_and, iff_false]
    omega

lemma names_snoc (calls : List Call) (c : Call) : names (calls ++ [c]) = addName (names calls) c :=
  foldl_concat ..

lemma names_append (calls more : List Call) : names calls <+: names (calls ++ more) := by
  induction more using reverseRecOn with
  | nil => simp
  | append_singleton more c ih =>
    rw [← append_assoc, names_snoc]
    refine ih.trans ?_
    cases c <;> simp only [addName]
    · split <;> simp
    · exact prefix_rfl

lemma run_inv {calls : List Call} (h : (names calls).length < 2 ^ 24) :
    Inv hash64z (run hash64z calls) (names calls) := by
  induction calls using reverseRecOn with
  | nil => exact ⟨nodup_nil, rfl, by simp [run], by simp [run], by simp [names]⟩
  | append_singleton calls c ih =>
    have hlt := Nat.lt_of_le_of_lt (names_append calls [c]).length_le h
    rw [names_snoc, run, foldl_concat]
    cases c with
    | intern name => exact ((ih hlt).intern hlt).1
    | internGet name =>
      obtain ⟨⟨hset, hindex⟩, -⟩ := (ih hlt).internGet name
      obtain ⟨hnodup, hlen, hle, hitems, hstored⟩ := ih hlt
      rw [run] at *
      exact ⟨hnodup, by rwa [step, hindex], by rwa [step, hset], by rwa [step, hset],
        by rwa [step, hset, hindex]⟩

/-- The place of a name is settled by the first call that interns it. -/
lemma idxOf_names (calls more : List Call) (a : String) :
    a ∈ names (calls ++ .intern a :: more) ∧
    (names (calls ++ .intern a :: more)).idxOf a = (names (calls ++ [.intern a])).idxOf a := by
  have ha : a ∈ names (calls ++ [.intern a]) := by
    rw [names_snoc, addName]
    split <;> simp [*]
  obtain ⟨t, ht⟩ := names_append (calls ++ [.intern a]) more
  rw [append_assoc, singleton_append] at ht
  rw [← ht]
  exact ⟨mem_append_left t ha, idxOf_append_of_mem ha⟩

variable (hash64z) in
theorem intern_spec (calls more : List Call) (a b : String)
    (h : (names (calls ++ .intern a :: more)).length < 2 ^ 24) :
    let s := run hash64z calls
    let s' := run hash64z (calls ++ .intern a :: more)
    let id := (intern hash64z s a).2.id
    id = (names (calls ++ [.intern a])).idxOf a ∧
    (internEntry s' id.toNat).map (·.name) = some a ∧
    ((intern hash64z s' b).2.id = id ↔ b = a) ∧
    (0 ≤ (internGet hash64z s' b).2.id ↔ b ∈ names (calls ++ .intern a :: more)) ∧
    (internGet hash64z s' b).1.set = s'.set ∧ (internGet hash64z s' b).1.index = s'.index := by
  intro s s' id
  have hinv : Inv hash64z s' _ := run_inv h
  have hid : id = (names (calls ++ [.intern a])).idxOf a := by
    have hlt := Nat.lt_of_le_of_lt (names_append calls (.intern a :: more)).length_le h
    rw [names_snoc]
    exact ((run_inv hlt).intern hlt).2
  obtain ⟨hget, hmem⟩ := hinv.internGet b
  refine ⟨hid, ?_, ?_, hmem, hget⟩
  · obtain ⟨ha, hidx⟩ := idxOf_names calls more a
    obtain ⟨key, hkey, hlow, hitem⟩ := hinv.stored _ a (getElem?_idxOf ha)
    simp [internEntry, hid, ← hidx, hkey, hlow, hitem]
  · obtain ⟨ha, hidx⟩ := idxOf_names calls (more ++ [.intern b]) a
    rw [← cons_append, ← append_assoc, names_snoc] at ha hidx
    rw [(hinv.intern h).2, hid, ← hidx, Int.natCast_inj, eq_comm, idxOf_inj ha, eq_comm]

theorem intern_spec_two :
    (intern String.length (run String.length [.intern "ab"]) "cd").2.id = 1 := by
  have h := intern_spec String.length [.intern "ab"] [] "cd" "ab" (by decide)
  rw [h.1]
  decide

end TyLang.Intern
