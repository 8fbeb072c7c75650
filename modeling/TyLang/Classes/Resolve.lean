import TyLang.Itable

/-!
The two ways in which `class.c` resolves a member. `FindMethod` and its relatives search
the definitions, depth first, a class before its traits and these before its super
class. `class_resolve_all` merges the tables of functions, breadth first, those of the super
class before those of the traits. The names of members stand for their interned
ids, and tables are the maps that an `itable` stands for.
-/
namespace TyLang.Classes
open List Option Function

open Itable (Value weak)

/-! ### The queue of `class_resolve_all` -/

/-- The vector is always full, so its length is its capacity. -/
structure ClassQueue where
  items : List (Option Nat)
  i : Nat
  j : Nat
  deriving DecidableEq, Repr

def emptyQueue : ClassQueue := ⟨[], 0, 0⟩

/-- `(k + n) & mask`; an empty vector has a mask of ones. -/
def slot (n k : Nat) : Nat := if n = 0 then k else (k + n) &&& (n - 1)

/-- `do svP(*cq, NULL); while (vN(*cq) != vC(*cq));` on a full vector. -/
def fillUp (items : List (Option Nat)) : List (Option Nat) :=
  let capacity := if 0 < items.length then 2 * items.length else 4
  items ++ replicate (capacity - items.length) none

def qput (q : ClassQueue) (c : Nat) : ClassQueue :=
  let n := q.items.length
  let j₀ := slot n q.j
  let items := if q.j + 1 = 1 ∨ j₀ + 1 = n then fillUp q.items else q.items
  { q with items := items.set j₀ (some c), j := q.j + 1 }

def qget (q : ClassQueue) : Option Nat × ClassQueue :=
  let q' := { q with i := q.i + 1 }
  if q.j < q.i + 1 then (none, q') else (q.items[slot q.items.length q.i]?.join, q')

structure Holds (q : ClassQueue) (cs : List Nat) : Prop where
  room : q.items = [] ∧ q.j = 0 ∨ (∃ k, q.items.length = 2 ^ k) ∧ q.j < q.items.length
  count : q.i + cs.length = q.j
  entry : ∀ t c, cs[t]? = some c → q.items[q.i + t]? = some (some c)

lemma holds_emptyQueue : Holds emptyQueue [] := ⟨.inl ⟨rfl, rfl⟩, rfl, fun _ _ h => by cases h⟩

lemma slot_eq {n k j : Nat} (hn : n = 2 ^ k) (hj : j < n) : slot n j = j := by
  have hpos : n ≠ 0 := by omega
  rw [slot, if_neg hpos, hn, Nat.and_two_pow_sub_one_eq_mod, Nat.add_mod_right, ← hn,
    Nat.mod_eq_of_lt hj]

lemma length_fillUp (items : List (Option Nat)) :
    (fillUp items).length = if 0 < items.length then 2 * items.length else 4 := by
  unfold fillUp
  rw [length_append, length_replicate]
  split <;> omega

lemma getElem?_fillUp {items : List (Option Nat)} {t : Nat} (ht : t < items.length) :
    (fillUp items)[t]? = items[t]? :=
  getElem?_append_left ht

variable {q : ClassQueue} {cs : List Nat}

lemma Holds.grown (h : Holds q cs) :
    slot q.items.length q.j = q.j ∧
      ∃ items, items = (if q.j + 1 = 1 ∨ slot q.items.length q.j + 1 = q.items.length then
          fillUp q.items else q.items) ∧
        (∃ k, items.length = 2 ^ k) ∧ q.j + 1 < items.length ∧
        ∀ t, t < q.j → items[t]? = q.items[t]? := by
  rcases h.room with ⟨hnil, hj⟩ | ⟨⟨k, hk⟩, hj⟩
  · rw [hnil, hj]
    exact ⟨rfl, _, rfl, ⟨2, rfl⟩, by decide, fun t ht => nomatch ht⟩
  have hslot := slot_eq hk hj
  have hlen := length_fillUp q.items
  rw [if_pos (by omega)] at hlen
  rw [hslot]
  refine ⟨rfl, _, rfl, ?_⟩
  split
  · refine ⟨⟨k + 1, ?_⟩, by omega, fun t ht => getElem?_fillUp (by omega)⟩
    rw [hlen, hk, Nat.pow_succ]
    omega
  · exact ⟨⟨k, hk⟩, by omega, fun _ _ => rfl⟩

lemma Holds.qput (h : Holds q cs) (c : Nat) : Holds (qput q c) (cs ++ [c]) := by
  obtain ⟨hslot, items, hitems, ⟨k, hk⟩, hroom, hold⟩ := h.grown
  have hq : Classes.qput q c = ⟨items.set q.j (some c), q.i, q.j + 1⟩ := by
    rw [hitems]
    simp only [Classes.qput, hslot]
  have hcount := h.count
  rw [hq]
  refine ⟨.inr ⟨⟨k, length_set.trans hk⟩, ?_⟩, ?_, fun t d ht => ?_⟩
  · rwa [length_set]
  · rw [length_append]
    change q.i + (cs.length + 1) = q.j + 1
    omega
  · rw [getElem?_set]
    rcases Nat.lt_trichotomy t cs.length with hlt | heq | hgt
    · rw [getElem?_append_left hlt] at ht
      rw [if_neg (show ¬ q.j = q.i + t by omega), hold _ (show q.i + t < q.j by omega)]
      exact h.entry t d ht
    · subst heq
      rw [getElem?_append_right .refl, Nat.sub_self] at ht
      cases ht
      rw [if_pos hcount.symm, if_pos (show q.j < items.length by omega)]
    · rw [getElem?_eq_none (by rw [length_append]; change cs.length + 1 ≤ t; omega)] at ht
      cases ht

lemma Holds.qget_nil (h : Holds q []) : (qget q).1 = none := by
  have hcount := h.count
  unfold qget
  rw [if_pos (by simp only [length_nil] at hcount; omega)]

lemma Holds.qget_cons {c : Nat} (h : Holds q (c :: cs)) :
    (qget q).1 = some c ∧ Holds (qget q).2 cs := by
  have hcount : q.i + (cs.length + 1) = q.j := h.count
  have hentry := h.entry 0 c rfl
  rw [Nat.add_zero] at hentry
  have hslot : slot q.items.length q.i = q.i := by
    rcases h.room with ⟨-, hj⟩ | ⟨⟨k, hk⟩, hj⟩
    · omega
    · exact slot_eq hk (by omega)
  have hnot : ¬ q.j < q.i + 1 := by omega
  unfold qget
  rw [if_neg hnot, hslot, hentry]
  refine ⟨rfl, h.room, ?_, fun t d ht => ?_⟩
  · change q.i + 1 + cs.length = q.j
    omega
  · have := h.entry (t + 1) d ht
    rw [← Nat.add_assoc] at this
    rwa [Nat.add_right_comm]

/-! ### Classes and their members -/

inductive Kind where
  | methods
  | getters
  | setters
  | sMethods
  | sGetters
  | sSetters
  deriving DecidableEq, Repr

/-- An acyclic hierarchy of classes and traits, with definitions `D`. -/
structure Hierarchy (D : Type) where
  super : Nat → Option Nat
  traits : Nat → List Nat
  /-- `c->def != NULL`. -/
  isDefined : Nat → Bool
  /-- The definitions in `c->def->class`. -/
  members : Kind → Nat → List D
  name : D → List Char
  /-- What the tables hold before `finalize`: the definitions of the functions in them. -/
  own : Kind → Nat → List Char → Option D
  rank : Nat → Nat
  super_rank : ∀ c d, super c = some d → rank d < rank c
  traits_rank : ∀ c, ∀ d ∈ traits c, rank d < rank c

section Model

variable {D : Type}

/-- The test of `FindMethodImmediate`; a private name carries the number of its class
behind a dollar sign. -/
def isNamed (name m : List Char) : Bool :=
  m == name || (name.head? == some '_' && m.contains '$' &&
    (m.takeWhile (· != '$')).isPrefixOf name.tail)

def findMethodImmediate (h : Hierarchy D) (ms : List D) (m : List Char) : Option D :=
  ms.find? fun d => isNamed (h.name d) m

/-- The loop that `FindMethod`, `FindGetter`, `FindSetter` and the static ones share. -/
def findMember (h : Hierarchy D) (k : Kind) : Nat → Nat → List Char → Option D
  | 0, _, _ => none
  | fuel + 1, c, m =>
    if h.isDefined c then
      ((findMethodImmediate h (h.members k c) m).or
        ((h.traits c).findSome? (findMember h k fuel · m))).or
        ((h.super c).toList.findSome? (findMember h k fuel · m))
    else none

def findMethod (h : Hierarchy D) (c : Nat) : List Char → Option D :=
  findMember h .methods (h.rank c + 1) c
def findGetter (h : Hierarchy D) (c : Nat) : List Char → Option D :=
  findMember h .getters (h.rank c + 1) c
def findSetter (h : Hierarchy D) (c : Nat) : List Char → Option D :=
  findMember h .setters (h.rank c + 1) c
def findStatic (h : Hierarchy D) (c : Nat) : List Char → Option D :=
  findMember h .sMethods (h.rank c + 1) c
def findStaticGetter (h : Hierarchy D) (c : Nat) : List Char → Option D :=
  findMember h .sGetters (h.rank c + 1) c
def findStaticSetter (h : Hierarchy D) (c : Nat) : List Char → Option D :=
  findMember h .sSetters (h.rank c + 1) c

def find (h : Hierarchy D) : Kind → Nat → List Char → Option D
  | .methods => findMethod h
  | .getters => findGetter h
  | .setters => findSetter h
  | .sMethods => findStatic h
  | .sGetters => findStaticGetter h
  | .sSetters => findStaticSetter h

structure Tables (D : Type) where
  table : Kind → Nat → List Char → Option (Value D)
  isFinal : Nat → Bool

def Hierarchy.tables (h : Hierarchy D) : Tables D :=
  ⟨fun k c m => (h.own k c m).map .other, fun _ => false⟩

/-- `itable_copy_weak` of all tables of `c` into those of `c₀`. -/
def copyWeak (s : Tables D) (c₀ c : Nat) : Tables D :=
  let merged (k : Kind) (m : List Char) := weak (s.table k c₀ m) (s.table k c m)
  { s with table := fun k => update (s.table k) c₀ (merged k) }

def Hierarchy.parents (h : Hierarchy D) (c : Nat) : List Nat := (h.super c).toList ++ h.traits c

mutual

/-- `finalize`; `cache_offsets` only reads the tables. -/
def finalize (h : Hierarchy D) : Nat → Tables D → Nat → Option (Tables D)
  | 0, _, _ => none
  | fuel + 1, s, c =>
    if s.isFinal c then some s
    else
      match resolveLoop h fuel c c s emptyQueue with
      | none => none
      | some s' => some { s' with isFinal := update s'.isFinal c true }

/-- The loop of `class_resolve_all` on `c₀`, at the class `c`. -/
def resolveLoop (h : Hierarchy D) : Nat → Nat → Nat → Tables D → ClassQueue → Option (Tables D)
  | 0, _, _, _, _ => none
  | fuel + 1, c₀, c, s, q =>
    let q := (h.parents c).foldl qput q
    match (if c ≠ c₀ then (finalize h fuel s c).map (copyWeak · c₀ c) else some s) with
    | none => none
    | some s' =>
      match qget q with
      | (none, _) => some s'
      | (some c', q') => resolveLoop h fuel c₀ c' s' q'

end

end Model

variable {D : Type} {h : Hierarchy D} {k : Kind} {c : Nat} {m : List Char}

/-! ### What the merged tables hold -/

lemma Hierarchy.parents_rank {p : Nat} (hp : p ∈ h.parents c) : h.rank p < h.rank c := by
  rcases mem_append.mp hp with hp | hp
  · exact h.super_rank c p (mem_toList.mp hp)
  · exact h.traits_rank c p hp

/-- The definition that a final table holds, as far as `fuel` steps up lead. -/
def flatten (h : Hierarchy D) (k : Kind) (m : List Char) : Nat → Nat → Option D
  | 0, _ => none
  | fuel + 1, c => (h.own k c m).or ((h.parents c).findSome? (flatten h k m fuel))

def flat (h : Hierarchy D) (k : Kind) (m : List Char) (c : Nat) : Option D :=
  flatten h k m (h.rank c + 1) c

lemma findSome?_congr {α β : Type} {l : List α} {f g : α → Option β}
    (hfg : ∀ a ∈ l, f a = g a) : l.findSome? f = l.findSome? g := by
  induction l with
  | nil => rfl
  | cons a l ih =>
    rw [findSome?_cons, findSome?_cons, hfg a mem_cons_self,
      ih fun b hb => hfg b (mem_cons_of_mem a hb)]

lemma flatten_congr (h : Hierarchy D) (k : Kind) (m : List Char) :
    ∀ n n' c, h.rank c < n → h.rank c < n' → flatten h k m n c = flatten h k m n' c := by
  intro n
  induction n with
  | zero => exact fun n' c hc => absurd hc (Nat.not_lt_zero _)
  | succ n ih =>
    intro n' c hc hc'
    cases n' with
    | zero => exact absurd hc' (Nat.not_lt_zero _)
    | succ n' =>
      rw [flatten, flatten]
      congr 1
      apply findSome?_congr
      intro p hp
      have hlt := h.parents_rank hp
      exact ih n' p (by omega) (by omega)

lemma flat_eq (h : Hierarchy D) (k : Kind) (m : List Char) (c : Nat) :
    flat h k m c = (h.own k c m).or ((h.parents c).findSome? (flat h k m)) := by
  unfold flat
  rw [flatten]
  congr 1
  apply findSome?_congr
  intro p hp
  exact flatten_congr h k m _ _ p (h.parents_rank hp) (Nat.lt_succ_self _)

lemma or_parents (h : Hierarchy D) (k : Kind) (m : List Char) (c : Nat) (d : Option D) :
    ((flat h k m c).or d).or ((h.parents c).findSome? (flat h k m)) = (flat h k m c).or d := by
  rw [flat_eq h k m c]
  cases h.own k c m with
  | some e => rfl
  | none =>
    cases (h.parents c).findSome? (flat h k m) with
    | some e => rfl
    | none => simp

def weigh (h : Hierarchy D) : Nat → Nat → Nat
  | 0, _ => 0
  | fuel + 1, c => 1 + ((h.parents c).map (weigh h fuel)).sum

def weight (h : Hierarchy D) (c : Nat) : Nat := weigh h (h.rank c + 1) c

lemma weigh_congr (h : Hierarchy D) :
    ∀ n n' c, h.rank c < n → h.rank c < n' → weigh h n c = weigh h n' c := by
  intro n
  induction n with
  | zero => exact fun n' c hc => absurd hc (Nat.not_lt_zero _)
  | succ n ih =>
    intro n' c hc hc'
    cases n' with
    | zero => exact absurd hc' (Nat.not_lt_zero _)
    | succ n' =>
      rw [weigh, weigh]
      congr 2
      apply map_congr_left
      intro p hp
      have hlt := h.parents_rank hp
      exact ih n' p (by omega) (by omega)

lemma weight_eq (h : Hierarchy D) (c : Nat) :
    weight h c = 1 + ((h.parents c).map (weight h)).sum := by
  unfold weight
  rw [weigh]
  congr 2
  apply map_congr_left
  intro p hp
  exact weigh_congr h _ _ p (h.parents_rank hp) (Nat.lt_succ_self _)

/-! ### The merge -/

def TablesAt (h : Hierarchy D) (s : Tables D) (c : Nat) : Prop :=
  ∀ k m, s.table k c m = (if s.isFinal c then flat h k m c else h.own k c m).map .other

/-- What finalizing a class does to the tables, of which only those of a lower rank matter. -/
structure Finalized (h : Hierarchy D) (s : Tables D) (c : Nat) (s' : Tables D) : Prop where
  tables : ∀ d, h.rank d ≤ h.rank c → TablesAt h s' d
  final : s'.isFinal c
  keeps : ∀ d, s.isFinal d → s'.isFinal d
  above : ∀ d, h.rank c < h.rank d →
    (∀ k, s'.table k d = s.table k d) ∧ s'.isFinal d = s.isFinal d

def Finalizes (h : Hierarchy D) (c : Nat) : Prop :=
  ∃ n, ∀ fuel, n ≤ fuel → ∀ s, (∀ d, h.rank d ≤ h.rank c → TablesAt h s d) →
    ∃ s', finalize h fuel s c = some s' ∧ Finalized h s c s'

lemma weak_map_other (a b : Option D) :
    weak (a.map Value.other) (b.map Value.other) = (a.or b).map Value.other := by
  cases a <;> cases b <;> rfl

/-- Classes above the rank of `c` are left alone, and final ones stay final. -/
structure Kept (h : Hierarchy D) (c : Nat) (s s' : Tables D) : Prop where
  final : ∀ d, s.isFinal d → s'.isFinal d
  above : ∀ d, h.rank c < h.rank d →
    (∀ k, s'.table k d = s.table k d) ∧ s'.isFinal d = s.isFinal d

lemma Kept.refl (h : Hierarchy D) (c : Nat) (s : Tables D) : Kept h c s s :=
  ⟨fun _ hd => hd, fun _ _ => ⟨fun _ => rfl, rfl⟩⟩

lemma Kept.trans {s1 s2 s3 : Tables D} (h1 : Kept h c s1 s2) (h2 : Kept h c s2 s3) :
    Kept h c s1 s3 :=
  ⟨fun d hd => h2.final d (h1.final d hd), fun d hd =>
    ⟨fun k => ((h2.above d hd).1 k).trans ((h1.above d hd).1 k),
      (h2.above d hd).2.trans (h1.above d hd).2⟩⟩

/-- The tables in the loop of `class_resolve_all` on `c`, which have collected `cur`. -/
structure Merging (h : Hierarchy D) (c : Nat) (cur : Kind → List Char → Option D)
    (s : Tables D) : Prop where
  others : ∀ d, d ≠ c → h.rank d ≤ h.rank c → TablesAt h s d
  table : ∀ k m, s.table k c m = (cur k m).map .other
  open' : s.isFinal c = false

variable {s s' : Tables D} {cur : Kind → List Char → Option D} {c₀ : Nat}

lemma Finalized.kept (hf : Finalized h s c s') (hc : h.rank c < h.rank c₀) : Kept h c₀ s s' :=
  ⟨hf.keeps, fun d hd => hf.above d (Nat.lt_trans hc hd)⟩

lemma Merging.finalized (hm : Merging h c₀ cur s) (hc : h.rank c < h.rank c₀)
    (hf : Finalized h s c s') : Merging h c₀ cur s' := by
  obtain ⟨htable, hfinal⟩ := hf.above c₀ hc
  refine ⟨fun d hd hrank => ?_, fun k m => ?_, hfinal.trans hm.open'⟩
  · rcases Nat.lt_or_ge (h.rank c) (h.rank d) with hlt | hge
    · obtain ⟨htd, hfd⟩ := hf.above d hlt
      intro k m
      rw [htd, hfd]
      exact hm.others d hd hrank k m
    · exact hf.tables d hge
  · rw [htable]
    exact hm.table k m

lemma Merging.copyWeak (hm : Merging h c₀ cur s) (hc : h.rank c < h.rank c₀)
    (hfinal : s.isFinal c) :
    Merging h c₀ (fun k m => (cur k m).or (flat h k m c)) (copyWeak s c₀ c) := by
  have hne : c ≠ c₀ := by
    rintro rfl
    exact Nat.lt_irrefl _ hc
  refine ⟨fun d hd hrank k m => ?_, fun k m => ?_, hm.open'⟩
  · change update (s.table k) c₀ _ d m = _
    rw [update_of_ne hd]
    exact hm.others d hd hrank k m
  · change update (s.table k) c₀ _ c₀ m = _
    have hflat := hm.others c hne (Nat.le_of_lt hc) k m
    rw [hfinal] at hflat
    rw [update_self, hm.table, hflat]
    exact weak_map_other _ _

lemma kept_copyWeak (h : Hierarchy D) (s : Tables D) (c₀ c : Nat) :
    Kept h c₀ s (copyWeak s c₀ c) := by
  refine ⟨fun _ hd => hd, fun d hd => ⟨fun k => ?_, rfl⟩⟩
  have hne : d ≠ c₀ := by
    rintro rfl
    exact Nat.lt_irrefl _ hd
  exact update_of_ne hne _ _

lemma foldl_qput (cs : List Nat) :
    ∀ (q : ClassQueue) (ds : List Nat), Holds q ds → Holds (cs.foldl qput q) (ds ++ cs) := by
  induction cs with
  | nil =>
    intro q ds hq
    rwa [append_nil]
  | cons c cs ih =>
    intro q ds hq
    rw [append_cons]
    exact ih _ _ (hq.qput c)

lemma findSome?_cons_or {α β : Type} (f : α → Option β) (a : α) (l : List α) :
    (a :: l).findSome? f = (f a).or (l.findSome? f) := by
  rw [findSome?_cons]
  cases f a <;> rfl

/-- The walk from `c`, with `cs` waiting, adds what these classes hold, in this order. -/
lemma resolveLoop_spec (hfin : ∀ d, h.rank d < h.rank c₀ → Finalizes h d) :
    ∀ w c cs, ((c :: cs).map (weight h)).sum ≤ w → (∀ d ∈ c :: cs, h.rank d < h.rank c₀) →
      ∃ n, ∀ fuel, n ≤ fuel → ∀ s cur q, Merging h c₀ cur s → Holds q cs →
        ∃ s', resolveLoop h fuel c₀ c s q = some s' ∧ Kept h c₀ s s' ∧
          Merging h c₀ (fun k m => (cur k m).or ((c :: cs).findSome? (flat h k m))) s' := by
  intro w
  induction w with
  | zero =>
    intro c cs hw
    rw [map_cons, sum_cons, weight_eq] at hw
    omega
  | succ w ih =>
    intro c cs hw hrank
    have hc := hrank c (.head _)
    have hne : c ≠ c₀ := by
      rintro rfl
      exact Nat.lt_irrefl _ hc
    obtain ⟨n1, hn1⟩ := hfin c hc
    -- one round, up to the next class of the queue
    have hround (fuel : Nat) (hfuel : n1 ≤ fuel) {s : Tables D}
        {cur : Kind → List Char → Option D} (hm : Merging h c₀ cur s) :
        ∃ s1, finalize h fuel s c = some s1 ∧ Kept h c₀ s (Classes.copyWeak s1 c₀ c) ∧
          Merging h c₀ (fun k m => (cur k m).or (flat h k m c)) (Classes.copyWeak s1 c₀ c) := by
      obtain ⟨s1, hrun, hf⟩ := hn1 fuel hfuel s fun d hd => hm.others d
        (by rintro rfl; omega) (by omega)
      exact ⟨s1, hrun, (hf.kept hc).trans (kept_copyWeak h s1 c₀ c),
        (hm.finalized hc hf).copyWeak hc hf.final⟩
    have hsum (k : Kind) (m : List Char) (d : Option D) :
        (d.or (flat h k m c)).or ((cs ++ h.parents c).findSome? (flat h k m)) =
          d.or ((c :: cs).findSome? (flat h k m)) := by
      rw [findSome?_append, findSome?_cons_or, Option.or_assoc]
      congr 1
      rw [← Option.or_assoc, or_parents]
    cases hnext : cs ++ h.parents c with
    | nil =>
      refine ⟨n1 + 1, fun fuel hfuel s cur q hm hq => ?_⟩
      obtain _ | fuel := fuel
      · omega
      obtain ⟨s1, hrun, hkept, hm1⟩ := hround fuel (by omega) hm
      have hempty : (qget ((h.parents c).foldl Classes.qput q)).1 = none :=
        Holds.qget_nil (hnext ▸ foldl_qput (h.parents c) q cs hq)
      refine ⟨Classes.copyWeak s1 c₀ c, ?_, hkept, ?_⟩
      · rw [resolveLoop, if_pos hne, hrun]
        simp only [map_some]
        split
        · rfl
        · rename_i hget
          rw [hget] at hempty
          cases hempty
      · have hcur : (fun k m => (cur k m).or ((c :: cs).findSome? (flat h k m))) =
            fun k m => (cur k m).or (flat h k m c) := by
          funext k m
          rw [← hsum, hnext, findSome?_nil, or_none]
        rwa [hcur]
    | cons c' cs' =>
      have hw' : ((c' :: cs').map (weight h)).sum ≤ w := by
        rw [map_cons, sum_cons, weight_eq] at hw
        rw [← hnext, map_append, sum_append]
        omega
      have hrank' : ∀ d ∈ c' :: cs', h.rank d < h.rank c₀ := by
        intro d hd
        rw [← hnext] at hd
        rcases mem_append.mp hd with hd | hd
        · exact hrank d (mem_cons_of_mem c hd)
        · exact Nat.lt_trans (h.parents_rank hd) hc
      obtain ⟨n2, hn2⟩ := ih c' cs' hw' hrank'
      refine ⟨max n1 n2 + 1, fun fuel hfuel s cur q hm hq => ?_⟩
      obtain _ | fuel := fuel
      · omega
      obtain ⟨s1, hrun, hkept, hm1⟩ := hround fuel (by omega) hm
      obtain ⟨hget, hq'⟩ := Holds.qget_cons (hnext ▸ foldl_qput (h.parents c) q cs hq)
      obtain ⟨s', hloop, hkept', hm'⟩ := hn2 fuel (by omega) _ _ _ hm1 hq'
      refine ⟨s', ?_, hkept.trans hkept', ?_⟩
      · rw [resolveLoop, if_pos hne, hrun]
        simp only [map_some]
        split
        · rename_i hnone
          rw [hnone] at hget
          cases hget
        · rename_i c'' q' hsome
          rw [hsome] at hget hloop
          cases hget
          exact hloop
      · have hcur : (fun k m => (cur k m).or ((c :: cs).findSome? (flat h k m))) =
            fun k m => ((cur k m).or (flat h k m c)).or
              ((c' :: cs').findSome? (flat h k m)) := by
          funext k m
          rw [← hsum, hnext]
        rwa [hcur]

/-- The whole of `class_resolve_all`: it starts at the class itself, which adds nothing. -/
lemma resolveAll_spec (hfin : ∀ d, h.rank d < h.rank c → Finalizes h d) :
    ∃ n, ∀ fuel, n ≤ fuel → ∀ s, Merging h c (fun k m => h.own k c m) s →
      ∃ s', resolveLoop h fuel c c s emptyQueue = some s' ∧ Kept h c s s' ∧
        Merging h c (fun k m => flat h k m c) s' := by
  have hholds := foldl_qput (h.parents c) emptyQueue [] holds_emptyQueue
  cases hparents : h.parents c with
  | nil =>
    refine ⟨1, fun fuel hfuel s hm => ⟨s, ?_, .refl h c s, ?_⟩⟩
    · obtain ⟨fuel, rfl⟩ : ∃ f, fuel = f + 1 := ⟨fuel - 1, by omega⟩
      have hempty := Holds.qget_nil (hparents ▸ hholds)
      rw [resolveLoop, if_neg (fun hne => hne rfl), hparents]
      simp only
      split
      · rfl
      · rename_i hget
        rw [hget] at hempty
        cases hempty
    · have hflat : (fun k m => flat h k m c) = fun k m => h.own k c m := by
        funext k m
        rw [flat_eq, hparents, findSome?_nil, or_none]
      rwa [hflat]
  | cons c' cs' =>
    rw [hparents] at hholds
    have hrank : ∀ d ∈ c' :: cs', h.rank d < h.rank c := fun d hd => h.parents_rank (hparents ▸ hd)
    obtain ⟨n, hn⟩ := resolveLoop_spec hfin _ c' cs' .refl hrank
    refine ⟨n + 1, fun fuel hfuel s hm => ?_⟩
    obtain _ | fuel := fuel
    · omega
    obtain ⟨hget, hq'⟩ := Holds.qget_cons hholds
    obtain ⟨s', hloop, hkept, hm'⟩ := hn fuel (by omega) s _ _ hm hq'
    refine ⟨s', ?_, hkept, ?_⟩
    · rw [resolveLoop, if_neg (fun hne => hne rfl), hparents]
      simp only
      split
      · rename_i hnone
        rw [hnone] at hget
        cases hget
      · rename_i c'' q' hsome
        rw [hsome] at hget hloop
        cases hget
        exact hloop
    · have hflat : (fun k m => flat h k m c) =
          fun k m => (h.own k c m).or ((c' :: cs').findSome? (flat h k m)) := by
        funext k m
        rw [flat_eq, hparents]
      rwa [hflat]

lemma finalizes (h : Hierarchy D) : ∀ r c, h.rank c = r → Finalizes h c := by
  intro r
  induction r using Nat.strongRecOn with
  | ind r ih =>
    rintro c rfl
    obtain ⟨n, hn⟩ := resolveAll_spec (c := c) fun d hd => ih _ hd d rfl
    refine ⟨n + 1, fun fuel hfuel s hs => ?_⟩
    obtain _ | fuel := fuel
    · omega
    rw [finalize]
    cases hfinal : s.isFinal c with
    | true => exact ⟨s, rfl, hs, hfinal, fun _ hd => hd, fun _ _ => ⟨fun _ => rfl, rfl⟩⟩
    | false =>
      have hm : Merging h c (fun k m => h.own k c m) s := by
        refine ⟨fun d _ hd => hs d hd, fun k m => ?_, hfinal⟩
        have := hs c .refl k m
        rwa [hfinal] at this
      obtain ⟨s', hrun, hkept, hm'⟩ := hn fuel (by omega) s hm
      rw [if_neg Bool.false_ne_true, hrun]
      refine ⟨_, rfl, ⟨fun d hd => ?_, update_self .., fun d hd => ?_, fun d hd => ?_⟩⟩
      · by_cases hdc : d = c
        · subst hdc
          intro k m
          simp only [update_self, if_true]
          exact hm'.table k m
        · intro k m
          simp only [update_of_ne hdc]
          exact hm'.others d hdc hd k m
      · by_cases hdc : d = c
        · subst hdc
          exact update_self ..
        · exact (update_of_ne hdc _ _).trans (hkept.final d hd)
      · have hdc : d ≠ c := by
          rintro rfl
          exact Nat.lt_irrefl _ hd
        exact ⟨(hkept.above d hd).1, (update_of_ne hdc _ _).trans (hkept.above d hd).2⟩

end TyLang.Classes
