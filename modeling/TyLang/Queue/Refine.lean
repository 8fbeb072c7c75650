import TyLang.Queue.Model

/-!
`Queue` is a double-ended sequence: along every sequence of calls its results are those
of the same calls on a list, unless the memory for a larger block is not granted.
-/
namespace TyLang.Queue

open List Cyclic

section Outcomes

variable {mem : Memory} {limit : Nat} {A B : Type} {e : Except Failure A} {f : A → Except Failure B}
  {P : A → Prop} {Q : B → Prop}

/-- The computation returns with the given property, or a request for at most `limit` bytes
is not granted. -/
def Does (mem : Memory) (limit : Nat) (e : Except Failure A) (P : A → Prop) : Prop :=
  (∃ a, e = .ok a ∧ P a) ∨
    (e = .error .outOfMemory ∧ ∃ n ≤ limit, mem.grants (headerSize + n) = false)

lemma Does.ok {a : A} (h : P a) : Does mem limit (.ok a) P := .inl ⟨a, rfl, h⟩

lemma Does.bind (h : Does mem limit e P) (hf : ∀ a, P a → Does mem limit (f a) Q) :
    Does mem limit (e >>= f) Q := by
  obtain ⟨a, rfl, ha⟩ | ⟨rfl, hn⟩ := h
  · exact hf a ha
  · exact .inr ⟨rfl, hn⟩

lemma gcAlloc_does {V : Type} {n : Nat} (hn : n + headerSize < 2 ^ 64) (hlimit : n ≤ limit) :
    Does mem limit (gcAlloc (V := V) mem n)
      fun items => items = replicate (n / valueSize) none ∧ n + headerSize < 2 ^ 63 := by
  rw [gcAlloc, add, Nat.mod_eq_of_lt (by omega)]
  cases hgrant : mem.grants (headerSize + n) with
  | true =>
    have := mem.bound _ hgrant
    exact Does.ok ⟨rfl, by omega⟩
  | false => exact .inr ⟨rfl, n, hlimit, hgrant⟩

end Outcomes

variable {i : Nat}

section Ring

variable {V : Type} {q : Buffer V} {xs : List V} {v : V} {mem : Memory} {limit : Nat}

/-- The buffer has the items of the list in order. Its block is one that was granted, and
one of its cells is free. -/
structure Represents (q : Buffer V) (xs : List V) : Prop where
  length : q.items.length = q.cap
  granted : q.cap * valueSize < 2 ^ 63
  unallocated : q.cap = 0 → q.head = 0 ∧ q.tail = 0 ∧ xs = []
  head : 0 < q.cap → q.head < q.cap
  room : 0 < q.cap → xs.length < q.cap
  tail : 0 < q.cap → q.tail = (q.head + xs.length) % q.cap
  holds : Ring.Holds q.items q.head xs

lemma represents_new : Represents (queueNew : Buffer V) [] :=
  ⟨rfl, by simp [queueNew], fun _ => ⟨rfl, rfl, rfl⟩, nofun, nofun, nofun, Ring.Holds.nil⟩

lemma add_sub_eq {a b n : Nat} (ha : a ≤ b + n) (hb : b < 2 ^ 62) (hn : n < 2 ^ 62) :
    add (sub b a) n = b + n - a := by
  unfold add sub
  omega

lemma add_eq {a b : Nat} (h : a + b < 2 ^ 64) : add a b = a + b := Nat.mod_eq_of_lt h

variable {items : List (Option V)}

lemma read_ok (h : items[i]? = some (some v)) : read items i = .ok v := by
  rw [read, h]

lemma write_ok (h : i < items.length) (v : V) :
    write items i v = .ok (items.set i (some v)) := if_pos h

/-- The bytes that suffice while the queue has at most `n` items. -/
def limitFor (n : Nat) : Nat := valueSize * (initialCap + 2 * n)

section
variable (h : Represents q xs)
include h

lemma Represents.inside (hcap : 0 < q.cap) :
    q.head < q.cap ∧ q.tail < q.cap ∧ q.cap < 2 ^ 58 := by
  have hgranted := h.granted
  rw [valueSize] at hgranted
  exact ⟨h.head hcap, h.tail hcap ▸ Nat.mod_lt _ hcap, by omega⟩

lemma Represents.ahead (hcap : 0 < q.cap) : ahead q.cap q.head q.tail = xs.length := by
  rw [h.tail hcap]
  exact ahead_add (h.head hcap) (h.room hcap)

lemma queueCount_eq : queueCount q = xs.length := by
  rw [queueCount]
  split
  next hcap => rw [(h.unallocated hcap).2.2, length_nil]
  next hcap =>
    have hpos := Nat.pos_of_ne_zero hcap
    obtain ⟨hhead, htail, hlt⟩ := h.inside hpos
    rw [add_sub_eq (by omega) (by omega) (by omega), ← h.ahead hpos, Cyclic.ahead]

lemma fullAtBack_iff : fullAtBack q ↔ q.cap = 0 ∨ xs.length + 1 = q.cap := by
  rw [fullAtBack, Bool.or_eq_true, decide_eq_true_eq, decide_eq_true_eq]
  refine or_congr_right' fun hcap => ?_
  have hpos := Nat.pos_of_ne_zero hcap
  obtain ⟨hhead, htail, hlt⟩ := h.inside hpos
  have hnext := ahead_succ hhead htail
  rw [h.ahead hpos] at hnext
  rw [add_eq (by omega)]
  constructor
  · intro heq
    rw [heq, ahead_self hhead] at hnext
    split at hnext
    next hfull => exact hfull
    next => omega
  · intro hfull
    rw [if_pos hfull] at hnext
    exact (eq_of_ahead_eq_zero hhead (Nat.mod_lt _ hpos) hnext).symm

lemma fullAtFront_eq : fullAtFront q = fullAtBack q := by
  rw [fullAtFront, fullAtBack]
  by_cases hcap : q.cap = 0
  · simp [hcap]
  have hpos := Nat.pos_of_ne_zero hcap
  obtain ⟨hhead, htail, hlt⟩ := h.inside hpos
  rw [add_sub_eq (by omega) (by omega) (by omega), add_eq (by omega)]
  congr 1
  rw [decide_eq_decide]
  constructor
  · rintro heq
    rw [← heq, Ring.mod_pred hhead]
  · intro heq
    rw [← heq, Ring.mod_succ htail]

lemma Represents.read_eq (hi : xs[i]? = some v) :
    read q.items (add q.head i % q.cap) = .ok v := by
  have hlen : i < xs.length := (List.getElem?_eq_some_iff.mp hi).1
  have hpos : 0 < q.cap := by
    by_contra hcap
    rw [(h.unallocated (by omega)).2.2] at hi
    cases hi
  obtain ⟨hhead, -, hlt⟩ := h.inside hpos
  have hroom := h.room hpos
  rw [add_eq (by omega), ← h.length]
  exact read_ok (h.holds i v hi)

lemma copyItems_spec (n i : Nat) (newItems : List (Option V))
    (hn : i + n = xs.length) (hlen : xs.length ≤ newItems.length) :
    ∃ copied, copyItems q n i newItems = .ok copied ∧ copied.length = newItems.length ∧
      (∀ j < i, copied[j]? = newItems[j]?) ∧
      ∀ (j : Nat) (x : V), i ≤ j → xs[j]? = some x → copied[j]? = some (some x) := by
  induction n generalizing i newItems with
  | zero =>
    refine ⟨newItems, rfl, rfl, fun _ _ => rfl, fun j x hj hx => ?_⟩
    have := (List.getElem?_eq_some_iff.mp hx).1
    omega
  | succ n ih =>
    have hi : i < xs.length := by omega
    have hread := h.read_eq (getElem?_eq_getElem hi)
    obtain ⟨copied, hcopy, hsame, hbelow, habove⟩ := ih (i + 1)
      (newItems.set i (some xs[i])) (by omega) (by rwa [length_set])
    refine ⟨copied, ?_, by rw [hsame, length_set], fun j hj => ?_, fun j x hj hx => ?_⟩
    · rw [copyItems, hread]
      change (write newItems i xs[i] >>= _) = _
      rwa [write_ok (by omega)]
    · rw [hbelow j (by omega), getElem?_set_ne (by omega)]
    · rcases Nat.eq_or_lt_of_le hj with rfl | hlt
      · rw [hbelow i (by omega), getElem?_set_self (by omega)]
        rw [getElem?_eq_getElem hi] at hx
        cases hx
        rfl
      · exact habove j x hlt hx

lemma queueGrow_does (hfull : q.cap = 0 ∨ xs.length + 1 = q.cap)
    (hlimit : limitFor xs.length ≤ limit) :
    Does mem limit (queueGrow mem q)
      fun q' => Represents q' xs ∧ 0 < q'.cap ∧ xs.length + 1 < q'.cap := by
  have hgranted := h.granted
  rw [limitFor, initialCap, valueSize] at hlimit
  rw [valueSize] at hgranted
  have hcap : newCap q = 8 ∧ xs.length = 0 ∨ newCap q = 2 * q.cap ∧ xs.length + 1 = q.cap := by
    rw [newCap]
    rcases hfull with hzero | hfull
    · rw [if_pos hzero, (h.unallocated hzero).2.2]
      exact .inl ⟨rfl, rfl⟩
    · rw [if_neg (by omega), mul, Nat.mod_eq_of_lt (by omega), Nat.mul_comm]
      exact .inr ⟨rfl, hfull⟩
  have hbytes : mul (newCap q) valueSize = newCap q * 32 := Nat.mod_eq_of_lt (by
    rw [valueSize]
    omega)
  rw [queueGrow, hbytes, queueCount_eq h]
  refine (gcAlloc_does (by rw [headerSize]; omega) (by omega)).bind ?_
  rintro _ ⟨rfl, hbound⟩
  have hlen : (replicate (newCap q * 32 / valueSize) (none : Option V)).length = newCap q := by
    rw [length_replicate, valueSize, Nat.mul_div_cancel _ (by omega)]
  obtain ⟨copied, hcopy, hsame, -, hitems⟩ := copyItems_spec h xs.length 0 _ (Nat.zero_add _)
    (by rw [hlen]; omega)
  rw [hlen] at hsame
  rw [hcopy]
  refine Does.ok ⟨⟨hsame, ?_, fun hzero => ?_, fun hpos => hpos, fun _ => ?_, fun _ => ?_,
    ?_⟩, ?_, ?_⟩
  · change newCap q * valueSize < _
    rw [valueSize]
    omega
  · change newCap q = 0 at hzero
    omega
  · change xs.length < newCap q
    omega
  · change xs.length = (0 + xs.length) % newCap q
    rw [Nat.zero_add, Nat.mod_eq_of_lt (by omega)]
  · intro i x hx
    have hi := (List.getElem?_eq_some_iff.mp hx).1
    change copied[(0 + i) % copied.length]? = _
    rw [Nat.zero_add, Nat.mod_eq_of_lt (by omega)]
    exact hitems i x (Nat.zero_le i) hx
  · change 0 < newCap q
    omega
  · change xs.length + 1 < newCap q
    omega

lemma growIf_does (hlimit : limitFor xs.length ≤ limit) :
    Does mem limit (growIf mem (fullAtBack q) q)
      fun q' => Represents q' xs ∧ 0 < q'.cap ∧ xs.length + 1 < q'.cap := by
  rw [growIf]
  split
  next hfull => exact queueGrow_does h ((fullAtBack_iff h).mp hfull) hlimit
  next hfull =>
    rw [fullAtBack_iff h, not_or] at hfull
    have hpos := Nat.pos_of_ne_zero hfull.1
    have := h.room hpos
    exact Does.ok ⟨h, hpos, by omega⟩

lemma storeBack_spec (hpos : 0 < q.cap) (hroom : xs.length + 1 < q.cap) (v : V) :
    ∃ q', storeBack q v = .ok q' ∧ Represents q' (xs ++ [v]) := by
  obtain ⟨hhead, htail, hlt⟩ := h.inside hpos
  refine ⟨{ q with items := q.items.set q.tail (some v), tail := (q.tail + 1) % q.cap }, ?_, ?_⟩
  · rw [storeBack, write_ok (by rw [h.length]; exact htail), add_eq (by omega)]
    rfl
  refine ⟨(length_set ..).trans h.length, h.granted, fun hzero => absurd hzero (Nat.ne_of_gt hpos),
    fun _ => hhead, fun _ => ?_, fun _ => ?_, ?_⟩
  · simpa using hroom
  · change (q.tail + 1) % q.cap = (q.head + (xs ++ [v]).length) % q.cap
    rw [h.tail hpos, Nat.mod_add_mod, length_append, length_singleton, Nat.add_assoc]
  · have := h.holds.snoc (by rw [h.length]; exact hhead) (by rw [h.length]; omega) v
    rwa [h.length, ← h.tail hpos] at this

lemma storeFront_spec (hpos : 0 < q.cap) (hroom : xs.length + 1 < q.cap) (v : V) :
    ∃ q', storeFront q v = .ok q' ∧ Represents q' (v :: xs) := by
  obtain ⟨hhead, -, hlt⟩ := h.inside hpos
  have hprev : (q.head + q.cap - 1) % q.cap < q.cap := Nat.mod_lt _ hpos
  refine ⟨{ q with
    items := q.items.set ((q.head + q.cap - 1) % q.cap) (some v)
    head := (q.head + q.cap - 1) % q.cap }, ?_, ?_⟩
  · rw [storeFront, add_sub_eq (by omega) (by omega) (by omega)]
    rw [write_ok (by rw [h.length]; exact hprev)]
    rfl
  refine ⟨(length_set ..).trans h.length, h.granted, fun hzero => absurd hzero (Nat.ne_of_gt hpos),
    fun _ => hprev, fun _ => hroom, fun _ => ?_, ?_⟩
  · change q.tail = ((q.head + q.cap - 1) % q.cap + (xs.length + 1)) % q.cap
    rw [← Nat.add_assoc, Nat.add_right_comm, ← Nat.mod_add_mod, Ring.mod_pred hhead, h.tail hpos]
  · have := h.holds.cons (by rw [h.length]; exact hhead) (by rw [h.length]; omega) v
    rwa [h.length] at this

lemma queuePushBackOne_does (hlimit : limitFor xs.length ≤ limit) (v : V) :
    Does mem limit (queuePushBackOne mem q v) (Represents · (xs ++ [v])) := by
  refine (growIf_does h hlimit).bind fun q' hq' => ?_
  obtain ⟨q'', hstore, hq''⟩ := storeBack_spec hq'.1 hq'.2.1 hq'.2.2 v
  rw [hstore]
  exact Does.ok hq''

lemma queuePushFrontOne_does (hlimit : limitFor xs.length ≤ limit) (v : V) :
    Does mem limit (queuePushFrontOne mem q v) (Represents · (v :: xs)) := by
  rw [queuePushFrontOne, fullAtFront_eq h]
  refine (growIf_does h hlimit).bind fun q' hq' => ?_
  obtain ⟨q'', hstore, hq''⟩ := storeFront_spec hq'.1 hq'.2.1 hq'.2.2 v
  rw [hstore]
  exact Does.ok hq''

end

lemma limitFor_mono {n n' : Nat} (h : n ≤ n') : limitFor n ≤ limitFor n' := by
  exact Nat.mul_le_mul_left _ (by omega)

lemma pushBack_does (args : List V) (h : Represents q xs)
    (hlimit : limitFor (xs.length + args.length) ≤ limit) :
    Does mem limit (args.foldlM (queuePushBackOne mem) q) (Represents · (xs ++ args)) := by
  induction args generalizing q xs with
  | nil => exact Does.ok (by rwa [append_nil])
  | cons v args ih =>
    refine (queuePushBackOne_does h (Nat.le_trans (limitFor_mono (Nat.le_add_right ..)) hlimit)
      v).bind fun q' hq' => ?_
    have := ih hq' (by
      rw [length_append, length_singleton, Nat.add_assoc, Nat.add_comm 1]
      exact hlimit)
    rwa [append_assoc] at this

lemma pushFront_does (args : List V) (h : Represents q xs)
    (hlimit : limitFor (xs.length + args.length) ≤ limit) :
    Does mem limit (args.foldlM (queuePushFrontOne mem) q) (Represents · (args.reverse ++ xs)) := by
  induction args generalizing q xs with
  | nil => exact Does.ok h
  | cons v args ih =>
    refine (queuePushFrontOne_does h (Nat.le_trans (limitFor_mono (Nat.le_add_right ..)) hlimit)
      v).bind fun q' hq' => ?_
    have := ih hq' (by
      rw [length_cons, Nat.add_assoc, Nat.add_comm 1]
      exact hlimit)
    rwa [reverse_cons, append_assoc]

end Ring

section Ends

variable {V : Type} {q : Buffer V} {xs : List V} {x v : V}

lemma Represents.pos (h : Represents q xs) (hne : xs ≠ []) : 0 < q.cap :=
  Nat.pos_of_ne_zero fun hcap => hne (h.unallocated hcap).2.2

lemma Represents.first (h : Represents q xs) (hv : xs.head? = some v) :
    read q.items q.head = .ok v := by
  cases xs with
  | nil => cases hv
  | cons x xs =>
    cases hv
    exact read_ok (h.holds.first (by rw [h.length]; exact h.head (h.pos (cons_ne_nil _ _))))

lemma Represents.dropFirst (h : Represents q (x :: xs)) : Represents (dropFirst q) xs := by
  have hpos := h.pos (cons_ne_nil _ _)
  obtain ⟨hhead, -, hlt⟩ := h.inside hpos
  have hroom := h.room hpos
  rw [length_cons] at hroom
  have hnext : Queue.dropFirst q = { q with head := (q.head + 1) % q.cap } := by
    rw [Queue.dropFirst, add_eq (by omega)]
  rw [hnext]
  refine ⟨h.length, h.granted, fun hzero => absurd hzero (Nat.ne_of_gt hpos),
    fun _ => Nat.mod_lt _ hpos, fun _ => Nat.lt_of_succ_lt hroom, fun _ => ?_, ?_⟩
  · change q.tail = ((q.head + 1) % q.cap + xs.length) % q.cap
    rw [h.tail hpos, Nat.mod_add_mod, length_cons, Nat.add_right_comm, Nat.add_assoc]
  · have := h.holds.tail
    rwa [h.length] at this

lemma lastIndex_eq (h : Represents q (xs ++ [x])) :
    lastIndex q = (q.head + xs.length) % q.cap := by
  have hpos := h.pos (append_ne_nil_of_right_ne_nil _ (cons_ne_nil _ _))
  obtain ⟨-, htail, hlt⟩ := h.inside hpos
  rw [lastIndex, add_sub_eq (by omega) (by omega) (by omega), h.tail hpos, length_append,
    length_singleton, ← Nat.add_assoc, ← Nat.mod_add_mod (q.head + xs.length),
    Ring.mod_succ (Nat.mod_lt _ hpos)]

lemma eq_append_of_getLast? (hv : xs.getLast? = some v) : xs = xs.dropLast ++ [v] := by
  rw [dropLast_append_getLast? v hv]

lemma Represents.last (h : Represents q xs) (hv : xs.getLast? = some v) :
    read q.items (lastIndex q) = .ok v := by
  rw [eq_append_of_getLast? hv] at h
  have := h.holds.last
  rw [h.length] at this
  rw [lastIndex_eq h]
  exact read_ok this

lemma Represents.dropLast (h : Represents q (xs ++ [x])) : Represents (dropLast q) xs := by
  have hpos := h.pos (append_ne_nil_of_right_ne_nil _ (cons_ne_nil _ _))
  have hroom := h.room hpos
  rw [length_append, length_singleton] at hroom
  rw [Queue.dropLast, lastIndex_eq h]
  exact ⟨h.length, h.granted, fun hzero => absurd hzero (Nat.ne_of_gt hpos), h.head,
    fun _ => Nat.lt_of_succ_lt hroom, fun _ => rfl, h.holds.init⟩

lemma Represents.tail_of_ne_nil (h : Represents q xs) (hne : xs ≠ []) :
    Represents (Queue.dropFirst q) xs.tail := by
  cases xs with
  | nil => exact absurd rfl hne
  | cons x xs => exact h.dropFirst

lemma Represents.init_of_ne_nil (h : Represents q xs) (hne : xs ≠ []) :
    Represents (Queue.dropLast q) xs.dropLast := by
  rw [← dropLast_append_getLast hne] at h
  exact h.dropLast

lemma represents_clear (h : Represents q xs) : Represents { q with head := 0, tail := 0 } [] :=
  ⟨h.length, h.granted, fun _ => ⟨rfl, rfl, rfl⟩, fun hpos => hpos, fun hpos => hpos,
    fun _ => (Nat.zero_mod _).symm, Ring.Holds.nil⟩

end Ends

section Calls

variable {V : Type} {q : Buffer V} {xs : List V} {mem : Memory} {limit : Nat} {m : Method}
  {args : List V}

/-- A call returns what the same call on the list does, and leaves what that leaves. -/
def Agrees (out : Result V × List V) (r : Result V × Buffer V) : Prop :=
  r.1 = out.1 ∧ Represents r.2 out.2

section
variable (h : Represents q xs)
include h

lemma guarded_does {body : Except Failure (Result V × Buffer V)}
    (hbody : Does mem limit body (Agrees (perform m args xs))) :
    Does mem limit (guarded (m.refusal args.length) q body) (Agrees (callList m args xs)) := by
  unfold guarded callList
  cases m.refusal args.length with
  | some message => exact Does.ok ⟨rfl, h⟩
  | none => exact hbody

/-- The methods that look at one end, where `look` is the item there. -/
lemma atEnd_does {empty : Result V} {found : V → Result V}
    {after : Buffer V} {look : Option V} {xs' : List V} (hlook : look = none ↔ xs = [])
    (hread : ∀ v, look = some v → read q.items i = .ok v)
    (hafter : xs ≠ [] → Represents after xs') (hempty : xs = [] → xs' = [])
    (hm : perform m args xs = ((look.map found).getD empty, xs'))
    (hname : m.refusal args.length = checkArgc m.name 0 args.length) :
    Does mem limit (atEnd m.name q args empty i found after) (Agrees (callList m args xs)) := by
  rw [atEnd, ← hname]
  refine guarded_does h ?_
  rw [hm, queueCount_eq h]
  cases hv : look with
  | none =>
    have hnil := hlook.mp hv
    rw [hnil] at h
    rw [if_pos (by rw [hnil]; rfl), hempty hnil]
    exact Does.ok ⟨rfl, h⟩
  | some v =>
    have hne : xs ≠ [] := fun hnil => by
      rw [hlook.mpr hnil] at hv
      cases hv
    rw [if_neg (by simpa using hne), hread v hv]
    exact Does.ok ⟨rfl, hafter hne⟩

lemma collectItems_eq (n i : Nat) (hn : i + n = xs.length) :
    collectItems q n i = .ok (xs.drop i) := by
  induction n generalizing i with
  | zero => rw [drop_eq_nil_of_le (by omega), collectItems]
  | succ n ih =>
    have hi : i < xs.length := by omega
    rw [collectItems, h.read_eq (getElem?_eq_getElem hi)]
    rw [ih (i + 1) (by omega), drop_eq_getElem_cons hi]
    rfl

lemma arrayNewSized_does (hlimit : limitFor xs.length ≤ limit) :
    Does mem limit (arrayNewSized (V := V) mem xs.length) fun _ => True := by
  rw [limitFor, valueSize, initialCap] at hlimit
  refine (gcAlloc_does (by decide) (by rw [arraySize]; omega)).bind fun _ _ => ?_
  split
  next => exact Does.ok trivial
  next hne =>
    have hroom := h.room (h.pos fun hnil => hne (by rw [hnil]; rfl))
    have hgranted := h.granted
    rw [valueSize] at hgranted
    rw [mul, valueSize, Nat.mod_eq_of_lt (by omega)]
    exact (gcAlloc_does (by rw [headerSize]; omega) (by omega)).bind fun _ _ => Does.ok trivial

lemma call_does (m : Method) (args : List V)
    (hlimit : limitFor (xs.length + args.length) ≤ limit) :
    Does mem limit (call mem m q args) (Agrees (callList m args xs)) := by
  have hxs := Nat.le_trans (limitFor_mono (Nat.le_add_right xs.length args.length)) hlimit
  have hcount := queueCount_eq h
  cases m with
  | clear => exact guarded_does (m := .clear) h (Does.ok ⟨rfl, represents_clear h⟩)
  | empty =>
    refine guarded_does (m := .empty) h (Does.ok ⟨?_, h⟩)
    rw [hcount]
    cases xs <;> rfl
  | len =>
    refine guarded_does (m := .len) h (Does.ok ⟨?_, h⟩)
    change Result.integer (queueCount q) = Result.integer xs.length
    rw [hcount]
  | peek =>
    exact atEnd_does (m := .peek) h head?_eq_none_iff (fun v => h.first) (fun _ => h) id rfl rfl
  | peekBack =>
    exact atEnd_does (m := .peekBack) h getLast?_eq_none_iff (fun v => h.last) (fun _ => h) id
      rfl rfl
  | pop =>
    exact atEnd_does (m := .pop) h head?_eq_none_iff (fun v => h.first) h.tail_of_ne_nil
      (fun hnil => by rw [hnil]; rfl) rfl rfl
  | popBack =>
    exact atEnd_does (m := .popBack) h getLast?_eq_none_iff (fun v => h.last) h.init_of_ne_nil
      (fun hnil => by rw [hnil]; rfl) rfl rfl
  | push =>
    exact guarded_does (m := .push) h ((pushBack_does args h hlimit).bind fun q' hq' =>
      Does.ok ⟨rfl, hq'⟩)
  | pushFront =>
    refine guarded_does (m := .pushFront) h ((pushFront_does args.reverse h
      (by rwa [length_reverse])).bind fun q' hq' => Does.ok ⟨rfl, ?_⟩)
    rwa [reverse_reverse] at hq'
  | toArray =>
    refine guarded_does (m := .toArray) h ?_
    rw [hcount]
    refine (arrayNewSized_does h hxs).bind fun _ _ => ?_
    rw [collectItems_eq h xs.length 0 (Nat.zero_add _)]
    exact Does.ok ⟨rfl, h⟩
  | tryPeek =>
    exact atEnd_does (m := .tryPeek) h head?_eq_none_iff (fun v => h.first) (fun _ => h) id
      rfl rfl
  | tryPeekBack =>
    exact atEnd_does (m := .tryPeekBack) h getLast?_eq_none_iff (fun v => h.last) (fun _ => h) id
      rfl rfl
  | tryPop =>
    exact atEnd_does (m := .tryPop) h head?_eq_none_iff (fun v => h.first) h.tail_of_ne_nil
      (fun hnil => by rw [hnil]; rfl) rfl rfl
  | tryPopBack =>
    exact atEnd_does (m := .tryPopBack) h getLast?_eq_none_iff (fun v => h.last) h.init_of_ne_nil
      (fun hnil => by rw [hnil]; rfl) rfl rfl

end

def argCount (calls : List (Method × List V)) : Nat := (calls.map fun c => c.2.length).sum

lemma callList_length (m : Method) (args xs : List V) :
    (callList m args xs).2.length ≤ xs.length + args.length := by
  rw [callList]
  cases m.refusal args.length with
  | some message => exact Nat.le_add_right ..
  | none => cases m <;> simp [perform] <;> omega

lemma run_does (calls : List (Method × List V)) (h : Represents q xs)
    (hlimit : limitFor (xs.length + argCount calls) ≤ limit) :
    Does mem limit (run mem calls q)
      fun r => r.1 = (runList calls xs).1 ∧ Represents r.2 (runList calls xs).2 := by
  induction calls generalizing q xs with
  | nil => exact Does.ok ⟨rfl, h⟩
  | cons c calls ih =>
    obtain ⟨m, args⟩ := c
    have hcount : argCount ((m, args) :: calls) = args.length + argCount calls := sum_cons
    rw [hcount, ← Nat.add_assoc] at hlimit
    refine (call_does h m args (Nat.le_trans (limitFor_mono (Nat.le_add_right ..)) hlimit)).bind ?_
    rintro ⟨r, q'⟩ ⟨hr, hq'⟩
    have hlen := callList_length m args xs
    refine (ih hq' (Nat.le_trans (limitFor_mono (by omega)) hlimit)).bind ?_
    rintro ⟨rs, q''⟩ ⟨hrs, hq''⟩
    exact Does.ok ⟨congrArg₂ cons hr hrs, hq''⟩

/-- The results of every sequence of calls are those on a list, unless a request for memory
is not granted. Once there is a block, the indices are inside of it and one cell is free;
before that there are no items and the indices are zero. -/
theorem queue_refines_list (mem : Memory) (calls : List (Method × List V)) :
    (∃ q, run mem calls queueNew = .ok ((runList calls []).1, q) ∧
      queueCount q = (runList calls []).2.length ∧
      (0 < q.cap → q.head < q.cap ∧ q.tail < q.cap ∧ queueCount q ≤ q.cap - 1) ∧
      (q.cap = 0 → q.head = 0 ∧ q.tail = 0 ∧ queueCount q = 0)) ∨
    (run mem calls queueNew = .error .outOfMemory ∧
      ∃ n ≤ limitFor (argCount calls), mem.grants (headerSize + n) = false) := by
  have hdoes : Does mem (limitFor (argCount calls)) (run mem calls queueNew) _ :=
    run_does calls represents_new (Nat.le_of_eq (congrArg limitFor (Nat.zero_add _)))
  obtain ⟨⟨rs, q⟩, hrun, hrs, hq⟩ | hfail := hdoes
  · change Represents q _ at hq
    refine .inl ⟨q, by rw [hrun, ← hrs], queueCount_eq hq, fun hpos => ?_, fun hzero => ?_⟩
    · have := hq.room hpos
      obtain ⟨hhead, htail, -⟩ := hq.inside hpos
      exact ⟨hhead, htail, by rw [queueCount_eq hq]; omega⟩
    · obtain ⟨hhead, htail, hnil⟩ := hq.unallocated hzero
      exact ⟨hhead, htail, by rw [queueCount_eq hq, hnil]; rfl⟩
  · exact .inr hfail

def flatMemory : Memory := ⟨fun n => decide (n < 2 ^ 63), fun _ h => of_decide_eq_true h⟩

/-- Before the first item there is no block, and no index is inside of it. -/
theorem queueNew_head_eq_cap :
    ∃ q : Buffer Nat, run flatMemory [] queueNew = .ok ([], q) ∧ ¬ q.head < q.cap :=
  ⟨queueNew, rfl, Nat.lt_irrefl 0⟩

example : (run flatMemory [(.pushFront, [1, 2, 3]), (.push, [4]), (.pop, []), (.popBack, [])]
    queueNew).toOption.map Prod.fst = some [.self, .self, .value 1, .value 4] := rfl

end Calls

end TyLang.Queue
