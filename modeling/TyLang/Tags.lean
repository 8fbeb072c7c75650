import Mathlib

/-!
The stacks of tags of `src/tags.c`. A stack is a `struct tags` in the vector `lists`, and the
other parts of the program know it by its place there. A stack that is pushed on keeps a link
to the result, so that the same tag on the same stack is the same place. The list that
`tags_new` makes for a tag is not linked, and no push returns it.
-/
namespace TyLang.TagStacks
open List Option

/-- A `struct tags`, with pointers to others as places in `lists`. -/
structure Tags where
  n : Nat
  tag : Int
  next : Option Nat
  links : List (Int × Nat)
  deriving DecidableEq, Repr

structure Tables where
  lists : List Tags
  nextId : Nat
  deriving DecidableEq, Repr

def mklist (s : Tables) (tag : Int) (next : Option Nat) : Tables :=
  { s with lists := s.lists ++ [⟨s.lists.length, tag, next, []⟩] }

def tagsInit : Tables := { mklist ⟨[], 0⟩ 0 none with nextId := 1 }

def tagsNew (s : Tables) : Tables × Nat :=
  ({ mklist s s.nextId (some 0) with nextId := s.nextId + 1 }, s.nextId)

section
variable (s : Tables) (tags : Nat)

/-- `xvP(list->links, …)` -/
def addLink (link : Int × Nat) : Tables :=
  { s with lists := s.lists.modify tags fun list => { list with links := list.links ++ [link] } }

/-- `none` is a read outside of `lists`, here and below. -/
def tagsPush (tag : Int) : Option (Tables × Nat) := do
  let list ← s.lists[tags]?
  match list.links.find? fun link => link.1 = tag with
  | some link => do
      let t ← s.lists[link.2]?
      some (s, t.n)
  | none =>
    let new := s.lists.length
    some (addLink (mklist s tag (some tags)) tags (tag, new), new)

def tagsPop : Option Nat := do
  let list ← s.lists[tags]?
  let next ← list.next
  let t ← s.lists[next]?
  some t.n

def tagsFirst : Option Int := do
  let list ← s.lists[tags]?
  some list.tag

end

/-- The field `tags` of a value. -/
def tagsField (tags : Nat) : BitVec 16 := BitVec.ofNat 16 tags

variable {s s' : Tables} {i : Nat} {h : History} {tag : Int}

section Stacks

def entry (s : Tables) (i : Nat) : Option (Int × Option Nat) :=
  (s.lists[i]?).map fun t => (t.tag, t.next)

/-- The stack at a place, its top first. -/
def stackOf (s : Tables) (i : Nat) : List Int :=
  match entry s i with
  | some (tag, some j) => if j < i then tag :: stackOf s j else []
  | _ => []
termination_by i

lemma stackOf_root (h : entry s i = some (tag, none)) : stackOf s i = [] := by
  rw [stackOf, h]

lemma stackOf_next {i j : Nat} (h : entry s i = some (tag, some j))
    (hj : j < i) : stackOf s i = tag :: stackOf s j := by
  rw [stackOf, h]
  exact if_pos hj

lemma stackOf_congr (h : ∀ j ≤ i, entry s' j = entry s j) : stackOf s' i = stackOf s i := by
  induction i using Nat.strong_induction_on with
  | _ i ih =>
    rw [stackOf, stackOf, h i .refl]
    split
    · next tag j _ =>
      split
      · next hj => rw [ih j hj fun k hk => h k (by omega)]
      · rfl
    · rfl

end Stacks

section Histories

inductive Call where
  | new
  | push (tags : Nat) (tag : Int)
  deriving DecidableEq, Repr

/-- The tables, with the places that have been returned by `tags_push`. -/
structure History where
  tables : Tables
  pushed : List Nat
  deriving DecidableEq, Repr

def start : History := ⟨tagsInit, []⟩

def History.Known (h : History) (tags : Nat) : Prop := tags = 0 ∨ tags ∈ h.pushed

instance (h : History) (tags : Nat) : Decidable (h.Known tags) :=
  inferInstanceAs (Decidable (_ ∨ _))

/-- A call, which pushes on the empty stack or on one that has been returned. -/
def call (h : History) : Call → Option History
  | .new => some { h with tables := (tagsNew h.tables).1 }
  | .push tags tag =>
    if h.Known tags then do
      let (s, id) ← tagsPush h.tables tags tag
      some ⟨s, id :: h.pushed⟩
    else none

def run (h : History) (calls : List Call) : Option History := calls.foldlM call h

end Histories

section Invariant

structure Inv (h : History) : Prop where
  n_eq : ∀ {i : Nat} {t : Tags}, h.tables.lists[i]? = some t → t.n = i
  root : ∃ tag, entry h.tables 0 = some (tag, none)
  next_lt : ∀ {i : Nat} {tag : Int} {next : Option Nat}, entry h.tables i = some (tag, next) →
    0 < i → ∃ j < i, next = some j
  link : ∀ {i : Nat} {t : Tags} {x : Int} {a : Nat}, h.tables.lists[i]? = some t →
    (x, a) ∈ t.links → a ∈ h.pushed ∧ entry h.tables a = some (x, some i)
  linked : ∀ {a : Nat}, a ∈ h.pushed → ∃ (x : Int) (j : Nat) (t : Tags),
    entry h.tables a = some (x, some j) ∧ h.Known j ∧ h.tables.lists[j]? = some t ∧
      (x, a) ∈ t.links
  unique : ∀ {i : Nat} {t : Tags} {x : Int} {a b : Nat}, h.tables.lists[i]? = some t →
    (x, a) ∈ t.links → (x, b) ∈ t.links → a = b

lemma lt_of_entry {e : Int × Option Nat} (h : entry s i = some e) : i < s.lists.length := by
  obtain ⟨t, ht, -⟩ := map_eq_some_iff.mp h
  exact (List.getElem?_eq_some_iff.mp ht).1

lemma entry_of_lookup {t : Tags} (h : s.lists[i]? = some t) :
    entry s i = some (t.tag, t.next) := by
  rw [entry, h]
  rfl

lemma mklist_old (s : Tables) (tag : Int) (next : Option Nat)
    (h : i < s.lists.length) : (mklist s tag next).lists[i]? = s.lists[i]? :=
  getElem?_append_left h

lemma mklist_new (s : Tables) (tag : Int) (next : Option Nat) :
    (mklist s tag next).lists[s.lists.length]? = some ⟨s.lists.length, tag, next, []⟩ := by
  rw [mklist, getElem?_append_right .refl, Nat.sub_self]
  rfl

lemma mklist_lookup {next : Option Nat} {t : Tags} (h : (mklist s tag next).lists[i]? = some t) :
    s.lists[i]? = some t ∨ i = s.lists.length ∧ t = ⟨s.lists.length, tag, next, []⟩ := by
  obtain ⟨hlt, -⟩ := List.getElem?_eq_some_iff.mp h
  rw [mklist, length_append, length_singleton] at hlt
  by_cases hi : i < s.lists.length
  · rw [mklist_old s tag next hi] at h
    exact .inl h
  · obtain rfl : i = s.lists.length := by omega
    rw [mklist_new] at h
    exact .inr ⟨rfl, (some.inj h).symm⟩

lemma entry_mklist_old (s : Tables) (tag : Int) (next : Option Nat)
    (h : i < s.lists.length) : entry (mklist s tag next) i = entry s i := by
  rw [entry, entry, mklist_old s tag next h]

lemma addLink_lookup (s : Tables) (k : Nat) (link : Int × Nat) (i : Nat) :
    (addLink s k link).lists[i]? = (s.lists[i]?).map fun t =>
      if k = i then { t with links := t.links ++ [link] } else t := by
  rw [addLink, getElem?_modify]
  rfl

lemma entry_addLink (s : Tables) (k : Nat) (link : Int × Nat) (i : Nat) :
    entry (addLink s k link) i = entry s i := by
  rw [entry, entry, addLink_lookup, Option.map_map]
  congr 1
  funext t
  split <;> rfl

lemma addLink_links {k : Nat} {link : Int × Nat} {t : Tags}
    (h : (addLink s k link).lists[i]? = some t) :
    ∃ t0, s.lists[i]? = some t0 ∧ t.n = t0.n ∧
      ∀ l, l ∈ t.links ↔ l ∈ t0.links ∨ k = i ∧ l = link := by
  rw [addLink_lookup] at h
  obtain ⟨t0, ht0, rfl⟩ := map_eq_some_iff.mp h
  refine ⟨t0, ht0, ?_⟩
  split
  · next hk => exact ⟨rfl, fun l => by simp [hk]⟩
  · next hk => exact ⟨rfl, fun l => by simp [hk]⟩

lemma Inv.mklist (hinv : Inv h) (tag : Int) {j : Nat}
    (hj : j < h.tables.lists.length) (nextId : Nat) :
    Inv ⟨{ mklist h.tables tag (some j) with nextId := nextId }, h.pushed⟩ where
  n_eq hlookup := by
    obtain hold | ⟨rfl, rfl⟩ := mklist_lookup hlookup
    · exact hinv.n_eq hold
    · rfl
  root := by
    obtain ⟨tag0, hroot⟩ := hinv.root
    exact ⟨tag0, (entry_mklist_old _ _ _ (lt_of_entry hroot)).trans hroot⟩
  next_lt hentry hi := by
    obtain ⟨t, hlookup, heq⟩ := map_eq_some_iff.mp hentry
    obtain hold | ⟨rfl, rfl⟩ := mklist_lookup hlookup
    · exact hinv.next_lt (map_eq_some_iff.mpr ⟨t, hold, heq⟩) hi
    · cases heq
      exact ⟨j, hj, rfl⟩
  link hlookup hlink := by
    obtain hold | ⟨rfl, rfl⟩ := mklist_lookup hlookup
    · obtain ⟨hpushed, hentry⟩ := hinv.link hold hlink
      exact ⟨hpushed, (entry_mklist_old _ _ _ (lt_of_entry hentry)).trans hentry⟩
    · cases hlink
  linked ha := by
    obtain ⟨x, i, t, hentry, hknown, hlookup, hlink⟩ := hinv.linked ha
    have hi := (List.getElem?_eq_some_iff.mp hlookup).1
    exact ⟨x, i, t, (entry_mklist_old _ _ _ (lt_of_entry hentry)).trans hentry, hknown,
      (mklist_old _ _ _ hi).trans hlookup, hlink⟩
  unique hlookup ha hb := by
    obtain hold | ⟨rfl, rfl⟩ := mklist_lookup hlookup
    · exact hinv.unique hold ha hb
    · cases ha

lemma Inv.addLink (hinv : Inv h) {tags a : Nat} {list : Tags}
    (hknown : h.Known tags) (hlist : h.tables.lists[tags]? = some list)
    (hnone : ∀ b, (tag, b) ∉ list.links) (ha : entry h.tables a = some (tag, some tags)) :
    Inv ⟨addLink h.tables tags (tag, a), a :: h.pushed⟩ where
  n_eq hlookup := by
    obtain ⟨t0, hold, hn, -⟩ := addLink_links hlookup
    exact hn.trans (hinv.n_eq hold)
  root := by
    obtain ⟨tag0, hroot⟩ := hinv.root
    exact ⟨tag0, (entry_addLink _ _ _ _).trans hroot⟩
  next_lt hentry hi := by
    rw [entry_addLink] at hentry
    exact hinv.next_lt hentry hi
  link hlookup hlink := by
    rw [entry_addLink]
    obtain ⟨t0, hold, -, hlinks⟩ := addLink_links hlookup
    obtain hlink | ⟨rfl, heq⟩ := (hlinks _).mp hlink
    · obtain ⟨hpushed, hentry⟩ := hinv.link hold hlink
      exact ⟨.tail _ hpushed, hentry⟩
    · cases heq
      exact ⟨.head _, ha⟩
  linked {b} hb := by
    have hknown' : ∀ i, h.Known i → History.Known ⟨TagStacks.addLink h.tables tags (tag, a),
        a :: h.pushed⟩ i := fun i hi => hi.imp_right (mem_cons_of_mem _)
    obtain rfl | hb := mem_cons.mp hb
    · refine ⟨tag, tags, { list with links := list.links ++ [(tag, b)] },
        (entry_addLink _ _ _ _).trans ha, hknown' _ hknown, ?_, by simp⟩
      rw [addLink_lookup, hlist]
      exact congrArg some (if_pos rfl)
    · obtain ⟨x, j, t, hentry, hj, hlookup, hlink⟩ := hinv.linked hb
      refine ⟨x, j, if tags = j then { t with links := t.links ++ [(tag, a)] } else t,
        (entry_addLink _ _ _ _).trans hentry, hknown' _ hj, ?_, ?_⟩
      · rw [addLink_lookup, hlookup]
        rfl
      · split
        · exact mem_append_left _ hlink
        · exact hlink
  unique hlookup ha hb := by
    obtain ⟨t0, hold, -, hlinks⟩ := addLink_links hlookup
    obtain ha' | ⟨rfl, ha'⟩ := (hlinks _).mp ha <;> obtain hb' | ⟨hi, hb'⟩ := (hlinks _).mp hb
    · exact hinv.unique hold ha' hb'
    · subst hi
      cases hb'
      rw [hold] at hlist
      cases hlist
      exact absurd ha' (hnone _)
    · cases ha'
      rw [hold] at hlist
      cases hlist
      exact absurd hb' (hnone _)
    · cases ha'
      cases hb'
      rfl

lemma Inv.again {pushed : List Nat} {a : Nat} (hinv : Inv ⟨s, pushed⟩)
    (ha : a ∈ pushed) : Inv ⟨s, a :: pushed⟩ where
  n_eq := hinv.n_eq
  root := hinv.root
  next_lt := hinv.next_lt
  link hlookup hlink :=
    ⟨.tail _ (hinv.link hlookup hlink).1, (hinv.link hlookup hlink).2⟩
  linked hb := by
    obtain ⟨x, j, t, hentry, hj, hrest⟩ := hinv.linked ((mem_cons.mp hb).elim (fun h => h ▸ ha) id)
    exact ⟨x, j, t, hentry, hj.imp_right (mem_cons_of_mem _), hrest⟩
  unique := hinv.unique

lemma Inv.lookup (hinv : Inv h) {tags : Nat} (hknown : h.Known tags) :
    ∃ list, h.tables.lists[tags]? = some list := by
  have hlt : tags < h.tables.lists.length := by
    obtain rfl | hpushed := hknown
    · obtain ⟨tag, hroot⟩ := hinv.root
      exact lt_of_entry hroot
    · obtain ⟨x, j, t, hentry, -⟩ := hinv.linked hpushed
      exact lt_of_entry hentry
  exact ⟨_, getElem?_eq_getElem hlt⟩

lemma Inv.pushed (hinv : Inv h) {a : Nat} (ha : a ∈ h.pushed) :
    ∃ x j, entry h.tables a = some (x, some j) ∧ j < a ∧ h.Known j := by
  obtain ⟨x, j, t, hentry, hj, -⟩ := hinv.linked ha
  have hpos : 0 < a := by
    refine Nat.pos_of_ne_zero ?_
    rintro rfl
    obtain ⟨tag, hroot⟩ := hinv.root
    rw [hroot] at hentry
    cases hentry
  obtain ⟨k, hk, heq⟩ := hinv.next_lt hentry hpos
  cases heq
  exact ⟨x, j, hentry, hk, hj⟩

end Invariant

section Calls

def Extends (s s' : Tables) : Prop := ∀ i < s.lists.length, entry s' i = entry s i

lemma Extends.length_le (h : Extends s s') : s.lists.length ≤ s'.lists.length := by
  by_contra hlt
  have hlast := h (s.lists.length - 1) (by omega)
  obtain ⟨t, ht⟩ : ∃ t, s.lists[s.lists.length - 1]? = some t := ⟨_, getElem?_eq_getElem (by omega)⟩
  rw [entry_of_lookup ht] at hlast
  have := lt_of_entry hlast
  omega

lemma Extends.trans {s s' s'' : Tables} (h : Extends s s') (h' : Extends s' s'') :
    Extends s s'' :=
  fun i hi => (h' i (hi.trans_le h.length_le)).trans (h i hi)

lemma Extends.stackOf (h : Extends s s') (hi : i < s.lists.length) : stackOf s' i = stackOf s i :=
  stackOf_congr fun j hj => h j (by omega)

lemma tagsPush_spec (hinv : Inv h) {tags : Nat} (hknown : h.Known tags) (tag : Int) :
    ∃ s id, tagsPush h.tables tags tag = some (s, id) ∧ Inv ⟨s, id :: h.pushed⟩ ∧
      Extends h.tables s ∧ entry s id = some (tag, some tags) := by
  obtain ⟨list, hlist⟩ := hinv.lookup hknown
  simp only [tagsPush, hlist, bind_eq_bind, bind_some]
  cases hfind : list.links.find? fun link => link.1 = tag with
  | some link =>
    obtain ⟨x, a⟩ := link
    obtain rfl : x = tag := by simpa using find?_some hfind
    obtain ⟨hpushed, hentry⟩ := hinv.link hlist (mem_of_find?_eq_some hfind)
    obtain ⟨t, ht, -⟩ := map_eq_some_iff.mp hentry
    refine ⟨h.tables, a, ?_, hinv.again hpushed, fun _ _ => rfl, hentry⟩
    simp only [ht, bind_some, hinv.n_eq ht]
  | none =>
    have hlt : tags < h.tables.lists.length := (List.getElem?_eq_some_iff.mp hlist).1
    have hmade := hinv.mklist tag hlt h.tables.nextId
    have hnew : entry (mklist h.tables tag (some tags)) h.tables.lists.length =
        some (tag, some tags) := entry_of_lookup (mklist_new _ _ _)
    refine ⟨_, _, rfl, ?_, ?_, (entry_addLink _ _ _ _).trans hnew⟩
    · refine hmade.addLink hknown ((mklist_old _ _ _ hlt).trans hlist) ?_ hnew
      intro b hb
      exact absurd (find?_eq_none.mp hfind _ hb) (by simp)
    · intro i hi
      rw [entry_addLink, entry_mklist_old _ _ _ hi]

lemma inv_start : Inv start where
  n_eq {i t} h := by
    cases i with
    | zero =>
      cases h
      rfl
    | succ i => cases h
  root := ⟨0, rfl⟩
  next_lt {i tag next} h hi := by
    cases i with
    | zero => exact absurd hi (Nat.lt_irrefl 0)
    | succ i => cases h
  link {i t x a} h hlink := by
    cases i with
    | zero =>
      cases h
      cases hlink
    | succ i => cases h
  linked h := by cases h
  unique {i t x a b} h ha := by
    cases i with
    | zero =>
      cases h
      cases ha
    | succ i => cases h

lemma call_inv {h h' : History} (hinv : Inv h) {c : Call} (hcall : call h c = some h') :
    Inv h' ∧ Extends h.tables h'.tables ∧ h.pushed ⊆ h'.pushed := by
  cases c with
  | new =>
    cases hcall
    obtain ⟨tag, hroot⟩ := hinv.root
    exact ⟨hinv.mklist _ (lt_of_entry hroot) _, fun i hi => entry_mklist_old _ _ _ hi,
      fun _ => id⟩
  | push tags tag =>
    rw [call] at hcall
    split at hcall
    · next hknown =>
      obtain ⟨s, id, hpush, hinv', hextends, -⟩ := tagsPush_spec hinv hknown tag
      rw [hpush] at hcall
      cases hcall
      exact ⟨hinv', hextends, subset_cons_self _ _⟩
    · cases hcall

lemma run_inv {h h' : History} (hinv : Inv h) {calls : List Call} (hrun : run h calls = some h') :
    Inv h' ∧ Extends h.tables h'.tables ∧ h.pushed ⊆ h'.pushed := by
  induction calls generalizing h with
  | nil =>
    cases hrun
    exact ⟨hinv, fun _ _ => rfl, fun _ => id⟩
  | cons c calls ih =>
    obtain ⟨h1, hcall, hrest⟩ := bind_eq_some_iff.mp hrun
    obtain ⟨hinv1, hextends1, hsub1⟩ := call_inv hinv hcall
    obtain ⟨hinv', hextends, hsub⟩ := ih hinv1 hrest
    exact ⟨hinv', hextends1.trans hextends, fun _ ha => hsub (hsub1 ha)⟩

end Calls

section Stacks

lemma tagsFirst_of_entry {x : Int} {next : Option Nat}
    (h : entry s i = some (x, next)) : tagsFirst s i = some x := by
  obtain ⟨t, ht, heq⟩ := map_eq_some_iff.mp h
  cases heq
  simp only [tagsFirst, ht, bind_eq_bind, bind_some]

lemma Inv.tagsPop (hinv : Inv h) {i j : Nat} {x : Int}
    (hentry : entry h.tables i = some (x, some j)) (hknown : h.Known j) :
    tagsPop h.tables i = some j := by
  obtain ⟨list, hlist, heq⟩ := map_eq_some_iff.mp hentry
  obtain ⟨-, hnext⟩ := Prod.mk.inj heq
  obtain ⟨below, hbelow⟩ := hinv.lookup hknown
  simp only [TagStacks.tagsPop, hlist, hnext, hbelow, bind_eq_bind, bind_some, hinv.n_eq hbelow]

lemma Inv.stackOf_known (hinv : Inv h) {a b : Nat} (ha : h.Known a)
    (hb : h.Known b) (heq : stackOf h.tables a = stackOf h.tables b) : a = b := by
  obtain ⟨tag0, hroot⟩ := hinv.root
  have hstack : ∀ {c}, c ∈ h.pushed → stackOf h.tables c ≠ [] := by
    intro c hc
    obtain ⟨x, j, hentry, hj, -⟩ := hinv.pushed hc
    rw [stackOf_next hentry hj]
    exact cons_ne_nil _ _
  induction a using Nat.strong_induction_on generalizing b with
  | _ a ih =>
    obtain rfl | ha := ha <;> obtain rfl | hb := hb
    · rfl
    · rw [stackOf_root hroot] at heq
      exact absurd heq.symm (hstack hb)
    · rw [stackOf_root hroot] at heq
      exact absurd heq (hstack ha)
    · obtain ⟨x, i, hentry, hi, hknown⟩ := hinv.pushed ha
      obtain ⟨y, j, hentry', hj, hknown'⟩ := hinv.pushed hb
      rw [stackOf_next hentry hi, stackOf_next hentry' hj] at heq
      obtain ⟨rfl, htail⟩ := cons.inj heq
      obtain rfl := ih i hi hknown hknown' htail
      -- the same tag on the same stack: both are linked from there
      obtain ⟨_, _, t, he, -, ht, hlink⟩ := hinv.linked ha
      obtain ⟨_, _, t', he', -, ht', hlink'⟩ := hinv.linked hb
      rw [hentry] at he
      rw [hentry'] at he'
      cases he
      cases he'
      rw [ht] at ht'
      cases ht'
      exact hinv.unique ht hlink hlink'

end Stacks

theorem tags_hash_consed (calls more : List Call) (h h' : History)
    (hrun : run start calls = some h) (hmore : run h more = some h')
    (hfew : h'.tables.lists.length < 65536) :
    (∀ a ∈ h.pushed, ∀ b ∈ h.pushed, a = b ↔ stackOf h.tables a = stackOf h.tables b) ∧
    (∀ t x, h.Known t → ∃ s id, tagsPush h.tables t x = some (s, id) ∧
      tagsPop s id = some t ∧ tagsFirst s id = some x ∧
        stackOf s id = x :: stackOf h.tables t) ∧
    (∀ a, h.Known a → h'.Known a ∧ stackOf h'.tables a = stackOf h.tables a) ∧
    (∀ a b, h.Known a → h.Known b → tagsField a = tagsField b →
      stackOf h.tables a = stackOf h.tables b) := by
  obtain ⟨hinv, -, -⟩ := run_inv inv_start hrun
  obtain ⟨-, hextends, hsub⟩ := run_inv hinv hmore
  have hlt : ∀ {a}, h.Known a → a < h.tables.lists.length := by
    intro a ha
    obtain ⟨list, hlist⟩ := hinv.lookup ha
    exact (List.getElem?_eq_some_iff.mp hlist).1
  refine ⟨fun a ha b hb => ⟨fun heq => heq ▸ rfl, hinv.stackOf_known (.inr ha) (.inr hb)⟩,
    ?_, fun a ha => ⟨ha.imp_right (@hsub a), hextends.stackOf (hlt ha)⟩, ?_⟩
  · intro t x ht
    obtain ⟨s, id, hpush, hinv', hext, hentry⟩ := tagsPush_spec hinv ht x
    obtain ⟨_, _, hentry', hlower, hknown⟩ := hinv'.pushed (.head _)
    rw [hentry] at hentry'
    cases hentry'
    refine ⟨s, id, hpush, hinv'.tagsPop hentry hknown, tagsFirst_of_entry hentry, ?_⟩
    rw [stackOf_next hentry hlower, hext.stackOf (hlt ht)]
  · intro a b ha hb heq
    have hle := hextends.length_le
    have := hlt ha
    have := hlt hb
    have hnat : a % 65536 = b % 65536 := congrArg BitVec.toNat heq
    rw [show a = b by omega]

/-- `B(A(v))` twice, with a tag made in between. -/
def wrapping : List Call := [.new, .push 0 1, .new, .push 2 2, .push 0 1, .push 2 2]

theorem tags_hash_consed_wrapping :
    ∃ h, run start wrapping = some h ∧ h.pushed = [4, 2, 4, 2] ∧
      (4 = 2 ↔ stackOf h.tables 4 = stackOf h.tables 2) := by
  refine ⟨_, rfl, rfl, ?_⟩
  exact (tags_hash_consed wrapping [] _ _ rfl rfl (by decide)).1 4 (by decide) 2 (by decide)

end TyLang.TagStacks
