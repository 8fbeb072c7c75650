import TyLang.Dict.Merge

/-!
Loops over a dict (`IterGetNext` in `src/vm.c`), whose bodies change the values of keys and remove
keys that the loop has left behind. What the loop keeps between two turns is the offset of the next
item.
-/
namespace TyLang.Dict
open List OrderedMap Option

variable {K V : Type} [Inhabited V]

/-- `off`: zero at first, then the number of a slot and one, or `PTRDIFF_MAX`, which is no slot. -/
inductive IterOff where
  | zero
  | slot (i : Nat)
  | max

def afterItem (next : Option Nat) : IterOff :=
  match next with
  | some i => .slot i
  | none => .max

/-- The offset for the next turn, and the key and the value that are pushed, or `NONE`. The
difference between `NULL` and the first item is not the offset of any item. -/
def iterGetNext (d : Dict K V) (off : IterOff) : Option (IterOff × Option (SlotKey K × V)) :=
  let here : Option IterOff := match off with
    | .zero => (dictFirst d).map afterItem
    | off => some off
  here.map fun
    | .slot i =>
      if d.size ≤ i then (off, none)
      else (afterItem (itemAt d.items i).next, some ((itemAt d.items i).k, val d i))
    | _ => (off, none)

variable [BEq K] [Hashable K]

/-- What the body of the loop may do once `ys` has been yielded. -/
inductive BodyStep (ys : List (K × V)) : Dict K V → Dict K V → Prop where
  | overwrite {d d' k v} : Has (contents d) k → dictPutValue d k v = some d' → BodyStep ys d d'
  | remove {d d' k v} : Has ys k → dictRemove d k = some (d', v) → BodyStep ys d d'

/-- The states before the turns of a loop over `d₀`, with what has been yielded. -/
inductive Turns (d₀ : Dict K V) : Dict K V → IterOff → List (K × V) → Prop where
  | start : Turns d₀ d₀ .zero []
  | turn {d d' off off' ys k v} : Turns d₀ d off ys →
      iterGetNext d off = some (off', some (.key k, v)) →
      Relation.ReflTransGen (BodyStep (ys ++ [(k, v)])) d d' → Turns d₀ d' off' (ys ++ [(k, v)])

variable {d₀ d d' : Dict K V} {order₀ : List Nat} {ys : List (K × V)} {rest : List Nat} {n : Nat}

/-- The slots behind those that were visited are the last ones of the list, with their keys. -/
def Ahead (d₀ d : Dict K V) (rest : List Nat) : Prop :=
  (∃ l, Inv d (l ++ rest)) ∧ ∀ s ∈ rest, (itemAt d.items s).k = (itemAt d₀.items s).k

lemma Inv.iterGetNext_slot {l r : List Nat} {s : Nat} (hd : Inv d (l ++ s :: r)) :
    iterGetNext d (.slot s) = some (afterItem r.head?, some ((itemAt d.items s).k, val d s)) := by
  have hlt := hd.lt_size ((hd.mem s).mp (by simp))
  simp only [iterGetNext, map_some]
  rw [if_neg (by omega), hd.linked.next_eq l s r rfl]

lemma Ahead.iterGetNext (h : Ahead d₀ d rest) :
    iterGetNext d (afterItem rest.head?) = match rest with
      | [] => some (.max, none)
      | s :: r => some (afterItem r.head?, some ((itemAt d₀.items s).k, val d s)) := by
  obtain ⟨⟨l, hd⟩, hkeys⟩ := h
  cases rest with
  | nil => rfl
  | cons s r => rw [head?_cons, afterItem, hd.iterGetNext_slot, hkeys s mem_cons_self]

lemma Ahead.tail {s : Nat} (h : Ahead d₀ d (s :: rest)) : Ahead d₀ d rest := by
  obtain ⟨⟨l, hd⟩, hkeys⟩ := h
  rw [append_cons] at hd
  exact ⟨⟨l ++ [s], hd⟩, fun t ht => hkeys t (mem_cons_of_mem s ht)⟩

lemma Inv.iterGetNext_zero {order : List Nat} (hd : Inv d order) :
    (order = [] → ∃ off', Dict.iterGetNext d .zero = some (off', none)) ∧
      ∀ s r, order = s :: r → Dict.iterGetNext d .zero = Dict.iterGetNext d (.slot s) := by
  constructor
  · rintro rfl
    exact ⟨.zero, by rw [Dict.iterGetNext, hd.dictFirst_eq]; rfl⟩
  · rintro s r rfl
    have hlt := hd.lt_size ((hd.mem s).mp mem_cons_self)
    simp only [Dict.iterGetNext, hd.dictFirst_eq, head?_cons, map_some, afterItem]
    rw [if_neg (by omega), if_neg (by omega)]

variable [LawfulHashable K] [EquivBEq K] {off : IterOff}

omit [EquivBEq K] in
lemma Ahead.overwrite (h : Ahead d₀ d rest) {k : K} {v : V} (hhas : Has (contents d) k)
    (hput : dictPutValue d k v = some d') : Ahead d₀ d' rest := by
  obtain ⟨⟨l, hd⟩, hkeys⟩ := h
  obtain ⟨_, hrun, hstored, -⟩ := hd.dictPutValue_spec k v
  cases hrun.symm.trans hput
  rw [hd.contents_eq] at hhas
  cases hstored with
  | replaced i hm hpos hinv hself hother =>
    refine ⟨⟨l, hinv⟩, fun s hs => ?_⟩
    obtain ⟨ks, hks⟩ := ((hd.mem s).mp (mem_append_right l hs)).exists_key
    have hentry : ∃ w, entry d' s = some (ks, w) := by
      by_cases hsi : s = i
      · subst hsi
        exact ⟨v, by rw [hself, entry_of_key hks]; rfl⟩
      · exact ⟨val d s, by rw [hother s hsi, entry_of_key hks]⟩
    obtain ⟨w, hw⟩ := hentry
    rw [(of_entry_eq_some hw).1, ← hkeys s hs, hks]
  | appended absent => exact absurd hhas (hd.not_has absent)

omit [EquivBEq K] in
/-- A key that was yielded is not one of those that are ahead. -/
lemma Ahead.remove (h : Ahead d₀ d rest) {k : K} {v : V} (hrem : dictRemove d k = some (d', v))
    (hold : ∀ s ∈ rest, ∀ k', (itemAt d₀.items s).k = .key k' → ¬ (k' == k)) :
    Ahead d₀ d' rest := by
  obtain ⟨⟨l, hd⟩, hkeys⟩ := h
  rcases hd.dictRemove_spec k with ⟨i, hm, hrun⟩ | ⟨-, hrun⟩
  · cases hrun.symm.trans hrem
    have hi := (hd.mem i).mpr hm.occ
    have hne : i ∉ rest := by
      intro hmem
      obtain ⟨k', hk', hkk⟩ := hd.matches_iff.mp hm
      exact hold i hmem k' (by rw [← hkeys i hmem, hk']) hkk
    obtain ⟨l₁, l₂, rfl⟩ := append_of_mem ((mem_append.mp hi).resolve_right hne)
    refine ⟨⟨l₁ ++ l₂, ?_⟩, fun s hs => ?_⟩
    · rw [append_assoc, cons_append] at hd
      rw [append_assoc]
      exact hd.deleted
    · have hcontent := hd.delete_content hi (s := s) fun e => hne (e ▸ hs)
      rw [← hkeys s hs]
      exact congrArg Prod.fst hcontent
  · cases hrun.symm.trans hrem
    exact ⟨⟨l, hd⟩, hkeys⟩

omit [LawfulHashable K] [EquivBEq K] in
lemma Inv.map_entry_contents {order : List Nat} (hd : Inv d order) :
    order.map (entry d) = (contents d).map some := by
  rw [hd.contents_eq]
  exact map_entry fun i => (hd.mem i).mp

/-- The first `n` keys of the dict are those that were yielded. -/
def Yielded (d₀ : Dict K V) (n : Nat) (ys : List (K × V)) : Prop :=
  ys.map Prod.fst = ((contents d₀).map Prod.fst).take n

omit [EquivBEq K] in
lemma Yielded.exists_slot (h₀ : Inv d₀ order₀) (h : Yielded d₀ n ys) {k : K} (hk : Has ys k) :
    ∃ s ∈ order₀.take n, Matches d₀ (hash k) k s := by
  obtain ⟨y, hy, hyk⟩ := hk
  have hmem := mem_map_of_mem (f := Prod.fst) hy
  rw [show ys.map Prod.fst = _ from h, ← map_take] at hmem
  obtain ⟨e, he, hey⟩ := mem_map.mp hmem
  have hentry := mem_map_of_mem (f := some) he
  rw [map_take, ← h₀.map_entry_contents, ← map_take] at hentry
  obtain ⟨s, hs, hse⟩ := mem_map.mp hentry
  exact ⟨s, hs, h₀.matches_iff.mpr ⟨e.1, (of_entry_eq_some hse).1, by rwa [hey]⟩⟩

lemma Ahead.bodyStep (h : Ahead d₀ d (order₀.drop n)) (h₀ : Inv d₀ order₀)
    (hys : Yielded d₀ n ys) (hstep : BodyStep ys d d') : Ahead d₀ d' (order₀.drop n) := by
  cases hstep with
  | overwrite hhas hput => exact h.overwrite hhas hput
  | @remove k _ hold hrem =>
    refine h.remove hrem fun s hs k' hk' hkk => ?_
    obtain ⟨t, ht, hm⟩ := hys.exists_slot h₀ hold
    have heq : t = s := h₀.matches_unique hm (h₀.matches_iff.mpr ⟨k', hk', hkk⟩)
    have hnodup := h₀.nodup
    rw [← take_append_drop n order₀, nodup_append] at hnodup
    exact hnodup.2.2 t ht s hs heq

lemma Ahead.body (h : Ahead d₀ d (order₀.drop n)) (h₀ : Inv d₀ order₀) (hys : Yielded d₀ n ys)
    (hsteps : Relation.ReflTransGen (BodyStep ys) d d') : Ahead d₀ d' (order₀.drop n) := by
  induction hsteps with
  | refl => exact h
  | tail _ hstep ih => exact ih.bodyStep h₀ hys hstep

/-- The key of the next slot is that of the dict at the start, with the value that it has now. -/
lemma Ahead.entry {s : Nat} {e : K × V} (h : Ahead d₀ d (s :: rest)) (he : entry d₀ s = some e) :
    (itemAt d₀.items s).k = .key e.1 ∧ lookup (contents d) e.1 = some (val d s) := by
  obtain ⟨⟨l, hd⟩, hkeys⟩ := h
  have hkey := (of_entry_eq_some he).1
  have hmem : (e.1, val d s) ∈ contents d := by
    rw [hd.contents_eq, hd.mem_entries]
    exact ⟨s, (hkeys s mem_cons_self).trans hkey, rfl⟩
  exact ⟨hkey, lookup_of_mem hd.distinct_contents hmem⟩

/-- What the loop knows before a turn; the offset is that of the next slot, or stands for it. -/
structure Visited (d₀ : Dict K V) (order₀ : List Nat) (d : Dict K V) (off : IterOff)
    (ys : List (K × V)) : Prop where
  ahead : Ahead d₀ d (order₀.drop ys.length)
  yielded : Yielded d₀ ys.length ys
  ends : order₀.drop ys.length = [] → ∃ off', iterGetNext d off = some (off', none)
  next : ∀ s r, order₀.drop ys.length = s :: r → iterGetNext d off = iterGetNext d (.slot s)

/-- One turn: the key that comes next, and the offset of the one behind it. -/
lemma Visited.turn (h₀ : Inv d₀ order₀) (h : Visited d₀ order₀ d off ys) :
    match (contents d₀)[ys.length]? with
    | some (k, _) => ∃ s r v, order₀.drop ys.length = s :: r ∧ lookup (contents d) k = some v ∧
        iterGetNext d off = some (afterItem r.head?, some (.key k, v))
    | none => order₀.drop ys.length = [] := by
  have hat := congrArg (fun l => l[ys.length]?) h₀.map_entry_contents
  simp only [getElem?_map] at hat
  cases hdrop : order₀.drop ys.length with
  | nil =>
    rw [← head?_drop, hdrop, head?_nil, map_none, eq_comm, map_eq_none_iff] at hat
    rw [hat]
  | cons s r =>
    rw [← head?_drop, hdrop, head?_cons, map_some] at hat
    cases hc : (contents d₀)[ys.length]? with
    | none =>
      rw [hc] at hat
      cases hat
    | some e =>
      rw [hc] at hat
      have hahead := h.ahead
      rw [hdrop] at hahead
      obtain ⟨hkey, hvalue⟩ := hahead.entry (some.inj hat)
      refine ⟨s, r, _, rfl, hvalue, ?_⟩
      rw [← hkey]
      exact (h.next s r hdrop).trans hahead.iterGetNext

lemma Turns.visited (h₀ : Inv d₀ order₀) (h : Turns d₀ d off ys) :
    Visited d₀ order₀ d off ys := by
  induction h with
  | start => exact ⟨⟨⟨[], h₀⟩, fun _ _ => rfl⟩, rfl, h₀.iterGetNext_zero.1, h₀.iterGetNext_zero.2⟩
  | @turn d d' off off' ys k v _ hnext hbody ih =>
    have hturn := ih.turn h₀
    cases hc : (contents d₀)[ys.length]? with
    | none =>
      rw [hc] at hturn
      obtain ⟨_, hend⟩ := ih.ends hturn
      cases hend.symm.trans hnext
    | some e =>
      rw [hc] at hturn
      obtain ⟨s, r, v', hdrop, -, hrun⟩ := hturn
      cases hrun.symm.trans hnext
      have hlen : (ys ++ [(e.1, v)]).length = ys.length + 1 := by simp
      have hrest : order₀.drop (ys.length + 1) = r := by
        rw [← drop_drop, hdrop, drop_one, tail_cons]
      have hyielded : Yielded d₀ (ys.length + 1) (ys ++ [(e.1, v)]) := by
        rw [Yielded, take_add_one, ← show ys.map Prod.fst = _ from ih.yielded,
          getElem?_map, hc, map_append]
        rfl
      have hahead := ih.ahead
      rw [hdrop] at hahead
      have hbefore : Ahead d₀ d (order₀.drop (ys.length + 1)) := by
        rw [hrest]
        exact hahead.tail
      have hafter := hbefore.body h₀ hyielded hbody
      refine ⟨by rwa [hlen], by rwa [hlen], ?_, ?_⟩
      · rw [hlen, hrest]
        rintro rfl
        exact ⟨_, rfl⟩
      · rw [hlen, hrest]
        rintro s r rfl
        rfl

/-- Before each turn the loop has yielded the first keys that the dict had at the start. It goes
on with the next one of them and the value that this key has by now, and ends after the last. -/
theorem loop_yields_keys (h₀ : Reachable d₀) {off : IterOff} (h : Turns d₀ d off ys) :
    Distinct (contents d₀) ∧ ys.map Prod.fst = ((contents d₀).map Prod.fst).take ys.length ∧
      match (contents d₀)[ys.length]? with
      | some (k, _) => ∃ off' v, iterGetNext d off = some (off', some (.key k, v)) ∧
          lookup (contents d) k = some v
      | none => ys.length = (contents d₀).length ∧ ∃ off',
          iterGetNext d off = some (off', none) := by
  obtain ⟨order₀, h₀⟩ := h₀.inv
  have hvisited := h.visited h₀
  have hturn := hvisited.turn h₀
  refine ⟨h₀.distinct_contents, hvisited.yielded, ?_⟩
  cases hc : (contents d₀)[ys.length]? with
  | none =>
    rw [hc] at hturn
    have hle := congrArg length hvisited.yielded
    rw [length_map, length_take, length_map] at hle
    have hge := getElem?_eq_none_iff.mp hc
    exact ⟨by omega, hvisited.ends hturn⟩
  | some e =>
    rw [hc] at hturn
    obtain ⟨s, r, v, -, hvalue, hrun⟩ := hturn
    exact ⟨_, v, hrun, hvalue⟩

theorem loop_yields_keys_two : ∃ (d₀ d : Dict Nat Nat) (off : IterOff),
    Reachable d₀ ∧ contents d₀ = [(1, 10), (2, 20)] ∧
      Turns d₀ d off [(1, 10)] ∧ contents d = [(2, 21)] ∧
      ∃ off' v, iterGetNext d off = some (off', some (.key 2, v)) ∧
        lookup (contents d) 2 = some v := by
  have hd : Reachable _ := .put (k := 2) (v := 20) (.put (k := 1) (v := 10) .new rfl) rfl
  have hturns : ∀ d₀ d₁ d : Dict Nat Nat, Reachable d₀ → Has (contents d₀) 2 →
      dictPutValue d₀ 2 21 = some d₁ → dictRemove d₁ 1 = some (d, 10) →
      iterGetNext d₀ .zero = some (.slot 2, some (.key 1, 10)) →
      Turns d₀ d (.slot 2) [(1, 10)] := fun _ _ _ _ hhas hput hrem hnext =>
    .turn .start hnext (.tail (.single (.overwrite hhas hput)) (.remove (k := 1) (by decide) hrem))
  have hturns := hturns _ _ _ hd (by decide) rfl rfl rfl
  exact ⟨_, _, _, hd, rfl, hturns, rfl, (loop_yields_keys hd hturns).2.2⟩

end TyLang.Dict
