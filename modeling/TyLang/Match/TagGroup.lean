import TyLang.Match.Pattern

/-!
Match arms with tag patterns that are compiled as a group. `MATCH_TAG` looks up
the tag of the subject in a table and jumps to the first arm that lists it; the
code after an arm whose pattern fails goes to the arm that `emit_next_jump` of
`src/compiler.c` has picked.
-/
namespace TyLang.Match
open List

variable {V : Type} {arms : List (List Nat)}

/-- `T(p)`: a tag and the test of the value below it. -/
abbrev TagLeaf (V : Type) : Type := Nat × (V → Bool)

/-- The test of a tag pattern on `v`. `untag` takes the outermost tag off. -/
def tagTest (untag : V → Option (Nat × V)) (v : V) (l : TagLeaf V) : Bool :=
  match untag v with
  | some (tag, x) => tag == l.1 && l.2 x
  | none => false

/-- `tag_id_of`. For a choice inside a choice it takes the list of patterns for a
symbol, and `junk` is what it finds there. -/
def tagIdOf (junk : Pattern (TagLeaf V) → Nat) (p : Pattern (TagLeaf V)) : Nat :=
  match p.strip with
  | .leaf l => l.1
  | q => junk q

/-- The tags that the compiler sees in an arm. -/
def tagsOf (junk : Pattern (TagLeaf V) → Nat) (p : Pattern (TagLeaf V)) : List Nat :=
  (choicesOf p).map (tagIdOf junk)

/-- An entry of `TagMatchTable`: the arm it was emitted for, and the later arms
that list the tag, nearest first. -/
structure TagEntry where
  tag : Nat
  arm : Nat
  next : List Nat
  deriving DecidableEq, Repr

def findEntry (tag : Nat) (table : List TagEntry) : Option TagEntry :=
  table.find? fun e => e.tag == tag

/-- The loop body of `emit_tag_entries`. -/
def emitTagEntry (pi tag : Nat) : List TagEntry → List TagEntry
  | [] => [⟨tag, pi, []⟩]
  | e :: table =>
    if e.tag = tag then
      (if e.arm < pi then { e with next := e.next ++ [pi] } else e) :: table
    else e :: emitTagEntry pi tag table

def emitTagEntries (pi : Nat) (tags : List Nat) (table : List TagEntry) : List TagEntry :=
  tags.foldl (fun table tag => emitTagEntry pi tag table) table

/-- The entries of the arms from `pi` on. -/
def emitAllEntries : Nat → List (List Nat) → List TagEntry → List TagEntry
  | _, [], table => table
  | pi, tags :: arms, table => emitAllEntries (pi + 1) arms (emitTagEntries pi tags table)

/-- The search loop of `emit_next_jump`: the nearest arm and the tag it is for. -/
def nearestArm (table : List TagEntry) : List Nat → Option (Nat × Nat) → Option (Nat × Nat)
  | [], near => near
  | tag :: tags, near =>
    match (findEntry tag table).bind fun e => e.next.head? with
    | none => nearestArm table tags near
    | some pi =>
      if near.all fun n => decide (pi < n.1) then nearestArm table tags (some (pi, tag))
      else nearestArm table tags near

inductive Next where
  | fall
  | jump (pi : Nat)
  | fail
  deriving DecidableEq, Repr

def popNext (tag : Nat) (table : List TagEntry) : List TagEntry :=
  table.map fun e => if e.tag = tag then { e with next := e.next.tail } else e

def emitNextJump (pi : Nat) (tags : List Nat) (table : List TagEntry) : List TagEntry × Next :=
  match nearestArm table tags none with
  | none => (table, .fail)
  | some (near, tag) => (popNext tag table, if near > pi + 1 then .jump near else .fall)

/-- The loop of `emit_tag_group_stmt` over the arms. Nothing is emitted after the
last arm. -/
def emitArms : Nat → List (List Nat) → List TagEntry → List Next
  | _, [], _ => []
  | _, [_], _ => [.fall]
  | pi, tags :: arms, table =>
    let (table, next) := emitNextJump pi tags table
    next :: emitArms (pi + 1) arms table

/-- `emit_tag_group_stmt` and `emit_tag_group_expr`, for the tags of the arms. -/
structure TagGroup where
  table : List TagEntry
  nexts : List Next
  deriving DecidableEq, Repr

def emitTagGroup (arms : List (List Nat)) : TagGroup :=
  let table := emitAllEntries 0 arms []
  ⟨table, emitArms 0 arms table⟩

/-- When `build_pattern_groups` compiles the arms as a group: there are more than
three of them, and `degenerate_tag_set` does not hold. -/
def compiledAsGroup (arms : List (List Nat)) : Bool :=
  arms.length > 3 && arms.flatten.eraseDups.length > 1

/-- `DoMatchTag`: the arm that control goes to. -/
def doMatchTag (untag : V → Option (Nat × V)) (table : List TagEntry) (v : V) : Option Nat :=
  match untag v with
  | none => none
  | some (tag, _) => (findEntry tag table).map TagEntry.arm

def follow (nexts : List Next) (i : Nat) : Option Nat :=
  match nexts[i]? with
  | some .fall => some (i + 1)
  | some (.jump j) => some j
  | _ => none

/-- The code of the arms from arm `i` on: the arm that is executed, if any, or
`none` when the fuel is used up. -/
def runArms (passes : Nat → Bool) (nexts : List Next) : Nat → Nat → Option (Option Nat)
  | 0, i => if nexts.length ≤ i then some none else none
  | fuel + 1, i =>
    if nexts.length ≤ i then some none
    else if passes i then some (some i)
    else
      match follow nexts i with
      | none => some none
      | some j => runArms passes nexts fuel j

/-- The arm that the code of the group executes for `v`. -/
def matchTagGroup (junk : Pattern (TagLeaf V) → Nat) (untag : V → Option (Nat × V))
    (patterns : List (Pattern (TagLeaf V))) (v : V) : Option (Option Nat) :=
  let group := emitTagGroup (patterns.map (tagsOf junk))
  match doMatchTag untag group.table v with
  | none => some none
  | some i =>
    runArms (fun i => patterns[i]?.any fun p => p.passes (tagTest untag v)) group.nexts
      patterns.length i

/-! ### The route of a tag

Where control goes when an arm fails, from the tags of the arms and their order alone. -/

/-- The arms that list a tag, an arm once for each time. -/
def armsOf (arms : List (List Nat)) (tag : Nat) : List Nat :=
  arms.zipIdx.flatMap fun a => replicate (a.1.count tag) a.2

/-- The arms behind the first one. -/
def laterArms : List Nat → List Nat
  | [] => []
  | first :: more => more.filter (first < ·)

/-- The nearest of the arms that wait for the tags, with the tag it waits for. -/
def nearest (waiting : Nat → List Nat) (tags : List Nat) : Option (Nat × Nat) :=
  (tags.filterMap fun tag => (waiting tag).head?.map (·, tag)).argmin Prod.fst

/-- An arm uses up the nearest arm that waits for one of its tags, for that tag only. -/
def useUp (waiting : Nat → List Nat) (tags : List Nat) : Nat → List Nat :=
  match nearest waiting tags with
  | none => waiting
  | some (_, tag) => Function.update waiting tag (waiting tag).tail

/-- The arms that wait for each tag when the arms before arm `k` have used up theirs. -/
def waiting (arms : List (List Nat)) (k : Nat) : Nat → List Nat :=
  (arms.take k).foldl useUp fun tag => laterArms (armsOf arms tag)

/-- Where control goes from arm `k`: one arm for all of its tags. -/
def successor (arms : List (List Nat)) (k : Nat) : Option Nat :=
  (nearest (waiting arms k) (arms.getD k [])).map fun near => max (k + 1) near.1

/-- The arms from arm `i` on, up to arm `n`. -/
def visits (next : Nat → Option Nat) (n : Nat) : Nat → Nat → List Nat
  | 0, _ => []
  | fuel + 1, i =>
    if n ≤ i then []
    else
      i :: match next i with
        | none => []
        | some j => visits next n fuel j

/-- The arms that a subject with this tag comes to, as long as it fails them. -/
def route (arms : List (List Nat)) (tag : Nat) : List Nat :=
  match (armsOf arms tag).head? with
  | none => []
  | some first => visits (successor arms) arms.length arms.length first

section Table

variable {table : List TagEntry} {tag pi : Nat}

/-- The entry of a tag that these arms have listed so far. -/
def entryOf (tag : Nat) : List Nat → Option TagEntry
  | [] => none
  | first :: more => some ⟨tag, first, laterArms (first :: more)⟩

lemma findEntry_cons (e : TagEntry) (table : List TagEntry) :
    findEntry tag (e :: table) = if e.tag = tag then some e else findEntry tag table := by
  rw [findEntry, find?_cons]
  by_cases h : e.tag = tag
  · simp [h]
  · rw [beq_eq_false_iff_ne.mpr h, if_neg h]
    rfl

lemma findEntry_emitTagEntry (pi tag tag' : Nat) (table : List TagEntry) :
    findEntry tag' (emitTagEntry pi tag table) =
      if tag = tag' then
        match findEntry tag' table with
        | none => some ⟨tag, pi, []⟩
        | some e => some (if e.arm < pi then { e with next := e.next ++ [pi] } else e)
      else findEntry tag' table := by
  induction table with
  | nil => rw [emitTagEntry, findEntry_cons]; rfl
  | cons e table ih =>
    rw [emitTagEntry, findEntry_cons]
    by_cases he : e.tag = tag
    · have hset : (if e.arm < pi then { e with next := e.next ++ [pi] } else e).tag = e.tag := by
        split <;> rfl
      rw [if_pos he, findEntry_cons, hset]
      by_cases htag : tag = tag'
      · simp [htag, he]
      · simp [htag, he]
    · rw [if_neg he, findEntry_cons, ih]
      by_cases htag : tag = tag'
      · subst htag
        rw [if_neg he, if_neg he]
      · simp [htag]

lemma entryOf_concat (tag pi : Nat) (l : List Nat) :
    entryOf tag (l ++ [pi]) = match entryOf tag l with
      | none => some ⟨tag, pi, []⟩
      | some e => some (if e.arm < pi then { e with next := e.next ++ [pi] } else e) := by
  cases l with
  | nil => rfl
  | cons first more =>
    by_cases h : first < pi <;> simp [entryOf, laterArms, h]

lemma findEntry_emitTagEntries {listed : Nat → List Nat} (tags : List Nat)
    (h : ∀ tag, findEntry tag table = entryOf tag (listed tag)) (tag : Nat) :
    findEntry tag (emitTagEntries pi tags table) =
      entryOf tag (listed tag ++ replicate (tags.count tag) pi) := by
  induction tags generalizing table listed with
  | nil => rw [count_nil, replicate_zero, append_nil, ← h tag]; rfl
  | cons new tags ih =>
    have hnew : ∀ tag, findEntry tag (emitTagEntry pi new table) =
        entryOf tag (listed tag ++ if new = tag then [pi] else []) := by
      intro tag
      rw [findEntry_emitTagEntry]
      split
      · rename_i htag
        rw [entryOf_concat, ← h tag, htag]
      · rw [append_nil, h tag]
    rw [emitTagEntries, foldl_cons, ← emitTagEntries, ih hnew, append_assoc, count_cons]
    congr 2
    by_cases htag : new = tag <;> simp [htag, replicate_succ]

lemma findEntry_emitAllEntries (listed : Nat → List Nat) (arms : List (List Nat))
    (h : ∀ tag, findEntry tag table = entryOf tag (listed tag)) (tag : Nat) :
    findEntry tag (emitAllEntries pi arms table) = entryOf tag (listed tag ++
      (arms.zipIdx pi).flatMap fun a => replicate (a.1.count tag) a.2) := by
  induction arms generalizing pi table listed with
  | nil => rw [emitAllEntries, h tag, zipIdx_nil, flatMap_nil, append_nil]
  | cons tags arms ih =>
    rw [emitAllEntries, ih _ (findEntry_emitTagEntries tags h), zipIdx_cons, flatMap_cons,
      append_assoc]

lemma findEntry_emitTagGroup (arms : List (List Nat)) (tag : Nat) :
    findEntry tag (emitTagGroup arms).table = entryOf tag (armsOf arms tag) :=
  findEntry_emitAllEntries (fun _ => []) arms (fun _ => rfl) tag

end Table

section Jumps

variable {table : List TagEntry}

/-- The arms that wait for a tag, as the table has them. -/
def queue (table : List TagEntry) (tag : Nat) : List Nat :=
  (findEntry tag table).elim [] TagEntry.next

lemma queue_emitTagGroup (arms : List (List Nat)) :
    queue (emitTagGroup arms).table = fun tag => laterArms (armsOf arms tag) := by
  funext tag
  rw [queue, findEntry_emitTagGroup]
  cases armsOf arms tag <;> rfl

lemma nearestArm_eq (table : List TagEntry) (tags : List Nat) :
    nearestArm table tags none = nearest (queue table) tags := by
  have hhead : ∀ tag, (findEntry tag table).bind (·.next.head?) = (queue table tag).head? := by
    intro tag
    rw [queue]
    cases findEntry tag table <;> rfl
  -- the loop is the fold that finds the first least item
  have hfold : ∀ near, nearestArm table tags near =
      (tags.filterMap fun tag => (queue table tag).head?.map (·, tag)).foldl
        (argAux fun b c => b.1 < c.1) near := by
    induction tags with
    | nil => exact fun _ => rfl
    | cons tag tags ih =>
      intro near
      rw [nearestArm, hhead, filterMap_cons]
      cases (queue table tag).head? with
      | none => exact ih near
      | some pi =>
        cases near with
        | none => exact ih _
        | some near => by_cases hlt : pi < near.1 <;> simp [hlt, argAux, ih]
  exact hfold none

lemma findEntry_popNext (tag tag' : Nat) (table : List TagEntry) :
    findEntry tag' (popNext tag table) = (findEntry tag' table).map fun e =>
      if tag' = tag then { e with next := e.next.tail } else e := by
  induction table with
  | nil => rfl
  | cons e table ih =>
    have hset : (if e.tag = tag then { e with next := e.next.tail } else e).tag = e.tag := by
      split <;> rfl
    rw [popNext, map_cons, findEntry_cons, findEntry_cons, hset, ← popNext, ih]
    by_cases htag : e.tag = tag' <;> simp [htag]

lemma queue_popNext (tag : Nat) (table : List TagEntry) :
    queue (popNext tag table) = Function.update (queue table) tag (queue table tag).tail := by
  funext tag'
  rw [queue, findEntry_popNext]
  by_cases htag : tag' = tag
  · subst htag
    rw [Function.update_self, queue]
    cases findEntry tag' table <;> simp
  · rw [Function.update_of_ne htag, queue]
    cases findEntry tag' table <;> simp [htag]

lemma queue_emitNextJump (pi : Nat) (tags : List Nat) (table : List TagEntry) :
    queue (emitNextJump pi tags table).1 = useUp (queue table) tags := by
  rw [emitNextJump, useUp, nearestArm_eq]
  cases nearest (queue table) tags with
  | none => rfl
  | some near => exact queue_popNext near.2 table

/-- The jump after arm `pi`, for the nearest arm. -/
def nextOf (pi : Nat) : Option (Nat × Nat) → Next
  | none => .fail
  | some (near, _) => if near > pi + 1 then .jump near else .fall

lemma emitArms_cons (pi : Nat) (tags tags' : List Nat) (arms : List (List Nat))
    (table : List TagEntry) :
    emitArms pi (tags :: tags' :: arms) table = (emitNextJump pi tags table).2 ::
      emitArms (pi + 1) (tags' :: arms) (emitNextJump pi tags table).1 :=
  rfl

lemma emitArms_getElem? {pi k : Nat} (hk : k + 1 < arms.length) :
    (emitArms pi arms table)[k]? = some (nextOf (pi + k)
      (nearest ((arms.take k).foldl useUp (queue table)) (arms.getD k []))) := by
  induction arms generalizing pi k table with
  | nil => simp at hk
  | cons tags arms ih =>
    cases arms with
    | nil => simp at hk
    | cons tags' arms =>
      cases k with
      | zero =>
        simp only [emitArms, getElem?_cons_zero, emitNextJump, nearestArm_eq]
        cases hnear : nearest (queue table) tags <;> simp [hnear, nextOf]
      | succ k =>
        rw [emitArms_cons, getElem?_cons_succ, ih (by simpa using hk), queue_emitNextJump,
          take_succ_cons, foldl_cons, getD_cons_succ, Nat.add_right_comm, Nat.add_assoc]

@[simp] lemma length_emitArms (pi : Nat) (arms : List (List Nat)) (table : List TagEntry) :
    (emitArms pi arms table).length = arms.length := by
  induction arms generalizing pi table with
  | nil => rfl
  | cons tags arms ih =>
    cases arms with
    | nil => rfl
    | cons tags' arms => simp only [emitArms, length_cons, ih]

lemma emitArms_last {pi k : Nat} (hk : k + 1 = arms.length) :
    (emitArms pi arms table)[k]? = some .fall := by
  induction arms generalizing pi k table with
  | nil => simp at hk
  | cons tags arms ih =>
    cases arms with
    | nil =>
      cases k with
      | zero => rfl
      | succ k => simp at hk
    | cons tags' arms =>
      cases k with
      | zero => simp at hk
      | succ k =>
        rw [emitArms_cons, getElem?_cons_succ]
        exact ih (by simpa using hk)

/-- The jumps of the group go to the successors. -/
lemma follow_emitTagGroup {k : Nat} (hk : k + 1 < arms.length) :
    follow (emitTagGroup arms).nexts k = successor arms k := by
  rw [follow, emitTagGroup, emitArms_getElem? hk, successor, waiting, ← queue_emitTagGroup,
    emitTagGroup]
  cases nearest _ _ with
  | none => rfl
  | some near =>
    rw [nextOf, Nat.zero_add, Option.map_some]
    by_cases hjump : near.1 > k + 1
    · rw [if_pos hjump, Nat.max_eq_right (by omega)]
    · rw [if_neg hjump, Nat.max_eq_left (by omega)]

end Jumps

section Arms

variable {next next' : Nat → Option Nat} {n : Nat}

lemma visits_of_le {i : Nat} (h : n ≤ i) (fuel : Nat) : visits next n fuel i = [] := by
  cases fuel with
  | zero => rfl
  | succ fuel => rw [visits, if_pos h]

lemma visits_last {i : Nat} (hi : i < n) (h : ∀ j, next i = some j → n ≤ j) (fuel : Nat) :
    visits next n (fuel + 1) i = [i] := by
  rw [visits, if_neg (by omega)]
  cases hnext : next i with
  | none => rfl
  | some j => exact congrArg (i :: ·) (visits_of_le (h j hnext) fuel)

/-- What comes after the last arm does not matter. -/
lemma visits_congr (h : ∀ k, k + 1 < n → next k = next' k)
    (hlast : ∀ k j, k + 1 = n → next k = some j ∨ next' k = some j → n ≤ j) (fuel i : Nat) :
    visits next n fuel i = visits next' n fuel i := by
  induction fuel generalizing i with
  | zero => rfl
  | succ fuel ih =>
    rcases Nat.lt_trichotomy (i + 1) n with hi | hi | hi
    · rw [visits, visits, h i hi]
      simp only [ih]
    · rw [visits_last (by omega) fun j hj => hlast i j hi (.inl hj),
        visits_last (by omega) fun j hj => hlast i j hi (.inr hj)]
    · rw [visits_of_le (by omega), visits_of_le (by omega)]

lemma visits_sorted (forward : ∀ i j, next i = some j → i < j) (fuel i : Nat) :
    (visits next n fuel i).Pairwise (· < ·) ∧ ∀ j ∈ visits next n fuel i, i ≤ j := by
  induction fuel generalizing i with
  | zero => exact ⟨.nil, forall_mem_nil _⟩
  | succ fuel ih =>
    unfold visits
    split
    · exact ⟨.nil, forall_mem_nil _⟩
    cases hnext : next i with
    | none => simp
    | some j =>
      have hij := forward i j hnext
      obtain ⟨hsorted, hge⟩ := ih j
      refine ⟨pairwise_cons.mpr ⟨fun k hk => Nat.lt_of_lt_of_le hij (hge k hk), hsorted⟩,
        fun k hk => ?_⟩
      rcases mem_cons.mp hk with rfl | hk
      · exact .refl
      · exact Nat.le_trans (Nat.le_of_lt hij) (hge k hk)

lemma runArms_eq (passes : Nat → Bool) {nexts : List Next}
    (forward : ∀ i j, follow nexts i = some j → i < j) {fuel i : Nat}
    (hfuel : nexts.length ≤ fuel + i) :
    runArms passes nexts fuel i =
      some ((visits (follow nexts) nexts.length fuel i).find? passes) := by
  induction fuel generalizing i with
  | zero =>
    have hi : nexts.length ≤ i := by omega
    simp [runArms, visits, hi]
  | succ fuel ih =>
    simp only [runArms, visits]
    split
    · rfl
    cases hpass : passes i with
    | true => simp [hpass]
    | false =>
      cases hfollow : follow nexts i with
      | none => simp [hpass]
      | some j =>
        have := forward i j hfollow
        simp [hpass, ih (i := j) (by omega)]

end Arms

lemma successor_lt {i j : Nat} (h : successor arms i = some j) : i < j := by
  obtain ⟨near, -, rfl⟩ := Option.map_eq_some_iff.mp h
  omega

lemma follow_last {k : Nat} (hk : k + 1 = arms.length) :
    follow (emitTagGroup arms).nexts k = some arms.length := by
  rw [follow, emitTagGroup, emitArms_last hk, ← hk]

lemma emitTagGroup_forward (i j : Nat)
    (h : follow (emitTagGroup arms).nexts i = some j) : i < j := by
  rcases Nat.lt_trichotomy (i + 1) arms.length with hi | hi | hi
  · exact successor_lt ((follow_emitTagGroup hi).symm.trans h)
  · cases (follow_last hi).symm.trans h
    omega
  · rw [follow, getElem?_eq_none (by simp [emitTagGroup]; omega)] at h
    cases h

lemma visits_emitTagGroup (fuel i : Nat) :
    visits (follow (emitTagGroup arms).nexts) arms.length fuel i =
      visits (successor arms) arms.length fuel i := by
  refine visits_congr (fun k hk => follow_emitTagGroup hk) (fun k j hk hj => ?_) fuel i
  rcases hj with hj | hj
  · cases (follow_last hk).symm.trans hj
    exact .refl
  · have := successor_lt hj
    omega

lemma route_sorted (arms : List (List Nat)) (tag : Nat) : (route arms tag).Pairwise (· < ·) := by
  unfold route
  split
  · exact .nil
  · exact (visits_sorted (fun _ _ => successor_lt) _ _).1

lemma find?_eq_of_sorted {passes : Nat → Bool} {l : List Nat} (hl : l.Pairwise (· < ·)) {i : Nat}
    (hmem : i ∈ l) (hpass : passes i) (hbefore : ∀ j < i, passes j = false) :
    l.find? passes = some i := by
  obtain ⟨front, back, rfl⟩ := append_of_mem hmem
  rw [find?_eq_some_iff_append]
  refine ⟨hpass, front, back, rfl, fun j hj => ?_⟩
  have hlt : j < i := (pairwise_append.mp hl).2.2 j hj i (mem_cons_self ..)
  simp [hbefore j hlt]

section Group

variable (junk : Pattern (TagLeaf V) → Nat) (untag : V → Option (Nat × V))
  (patterns : List (Pattern (TagLeaf V)))

lemma firstMatch_untagged {v : V} (h : untag v = none) :
    firstMatch (tagTest untag v) patterns = none := by
  refine firstMatch_eq_none.mpr fun i p _ => ?_
  rw [passes_eq_any, any_eq_false]
  intro l _
  simp [tagTest, h]

lemma matchTagGroup_eq_find {v x : V} {tag : Nat} (h : untag v = some (tag, x)) :
    matchTagGroup junk untag patterns v =
      some ((route (patterns.map (tagsOf junk)) tag).find? fun i =>
        patterns[i]?.any fun p => p.passes (tagTest untag v)) := by
  simp only [matchTagGroup, doMatchTag, h, findEntry_emitTagGroup]
  generalize harms : patterns.map (tagsOf junk) = arms
  have hlen : (emitTagGroup arms).nexts.length = arms.length := by simp [emitTagGroup]
  rw [route]
  cases armsOf arms tag with
  | nil => rfl
  | cons first more =>
    have hrun := runArms_eq (fun i => patterns[i]?.any fun p => p.passes (tagTest untag v))
      emitTagGroup_forward (show (emitTagGroup arms).nexts.length ≤ arms.length + first by omega)
    rw [hlen, visits_emitTagGroup] at hrun
    rw [show patterns.length = arms.length by rw [← harms, length_map]]
    exact hrun

lemma matchTagGroup_of_mem_route {v : V} (hroute : ∀ tag x i, untag v = some (tag, x) →
      firstMatch (tagTest untag v) patterns = some i →
        i ∈ route (patterns.map (tagsOf junk)) tag) :
    matchTagGroup junk untag patterns v = some (firstMatch (tagTest untag v) patterns) := by
  cases h : untag v with
  | none => simp [firstMatch_untagged untag patterns h, matchTagGroup, doMatchTag, h]
  | some tagged =>
    obtain ⟨tag, x⟩ := tagged
    rw [matchTagGroup_eq_find junk untag patterns h, Option.some.injEq]
    cases hi : firstMatch (tagTest untag v) patterns with
    | none =>
      refine find?_eq_none.mpr fun i _ => ?_
      cases hp : patterns[i]? with
      | none => simp
      | some p => simp [firstMatch_eq_none.mp hi i p hp]
    | some i =>
      obtain ⟨⟨p, hp, hpass⟩, hbefore⟩ := firstMatch_eq_some.mp hi
      refine find?_eq_of_sorted (route_sorted _ _) (hroute tag x i h hi)
        (by simp [hp, hpass]) fun j hj => ?_
      cases hq : patterns[j]? with
      | none => rfl
      | some q => simpa using hbefore j q hj hq

theorem matchTagGroup_eq_firstMatch_iff (v : V) :
    matchTagGroup junk untag patterns v = some (firstMatch (tagTest untag v) patterns) ↔
      ∀ tag x i, untag v = some (tag, x) → firstMatch (tagTest untag v) patterns = some i →
        i ∈ route (patterns.map (tagsOf junk)) tag := by
  refine ⟨fun hmatch tag x i h hi => ?_, matchTagGroup_of_mem_route junk untag patterns⟩
  rw [matchTagGroup_eq_find junk untag patterns h, Option.some.injEq] at hmatch
  exact mem_of_find?_eq_some (hmatch.trans hi)

end Group

def untagList : List Nat → Option (Nat × List Nat)
  | tag :: x => some (tag, x)
  | [] => none

/-- The arms `A(1), B(1)`, then `A(2)`, `C(_)` and `B(2)`. -/
def overlappingArms : List (Pattern (TagLeaf (List Nat))) :=
  [.choice [.leaf (0, (· == [1])), .leaf (1, (· == [1]))], .leaf (0, (· == [2])),
    .leaf (2, fun _ => true), .leaf (1, (· == [2]))]

/-- `B(2)` fails the first arm, whose code goes on to the next arm for `A`. Nothing
is queued behind that one, so the code leaves the group. -/
theorem matchTagGroup_overlappingArms_skips :
    compiledAsGroup (overlappingArms.map (tagsOf fun _ => 0)) ∧
      firstMatch (tagTest untagList [1, 2]) overlappingArms = some 3 ∧
      matchTagGroup (fun _ => 0) untagList overlappingArms [1, 2] = some none := by
  decide

end TyLang.Match
