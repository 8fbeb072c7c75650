import TyLang.Json.Memory

/-!
Which texts `json_parse` reads without a look behind their end. It comes to a place where a number
or a keyword is left of the text, or it sees nothing but the text; both are shown along the calls
of `value` and of the loops for arrays and objects.
-/
namespace TyLang.Json.Memory
open Reading

/-- A number, or a keyword or the beginning of one, that the text ends in. -/
def AtEnd (s : Text) : Prop :=
  (s ≠ [] ∧ (s <+: word ['n', 'u', 'l', 'l'] ∨ s <+: word ['t', 'r', 'u', 'e'] ∨
    s <+: word ['f', 'a', 'l', 's', 'e'])) ∨ ∃ i, numberEnd s = some (i, [])

/-- The calls of `value` and of the loops for arrays and objects, with the text that is left and
the calls that they may make. -/
inductive Call where
  | value (n : Nat) (s : Text)
  | items (n : Nat) (s : Text)
  | members (n : Nat) (s : Text)

variable {R : Type} (L : Library R)

/-- Which call makes which, and how a loop goes on. -/
inductive Calls : Call → Call → Prop where
  | array {n s} : Json.peek (Json.space s) = byte '[' →
      Calls (.value (n + 1) s) (.items n (Json.space s).tail)
  | object {n s} : Json.peek (Json.space s) = byte '\x7b' →
      Calls (.value (n + 1) s) (.members n (Json.space s).tail)
  | item {n s} : Json.peek s ≠ 0 ∧ Json.peek s ≠ byte ']' → Calls (.items (n + 1) s) (.value n s)
  | nextItem {n s v s₁} : Json.peek s ≠ 0 ∧ Json.peek s ≠ byte ']' →
      Json.value L n s = .ok (v, s₁) → Json.peek (Json.space s₁) = byte ',' →
      Calls (.items (n + 1) s) (.items n (Json.space s₁).tail)
  | member {n s key s₁} : Json.peek s ≠ 0 ∧ Json.peek s ≠ byte '\x7d' →
      Json.string L (Json.space s) = .ok (key, s₁) → Json.peek (Json.space s₁) = byte ':' →
      Calls (.members (n + 1) s) (.value n (Json.space s₁).tail)
  | nextMember {n s key s₁ v s₂} : Json.peek s ≠ 0 ∧ Json.peek s ≠ byte '\x7d' →
      Json.string L (Json.space s) = .ok (key, s₁) → Json.peek (Json.space s₁) = byte ':' →
      Json.value L n (Json.space s₁).tail = .ok (v, s₂) → Json.peek (Json.space s₂) = byte ',' →
      Calls (.members (n + 1) s) (.members n (Json.space s₂).tail)

/-- A call that comes to read a value where the text ends in one. -/
def ReachesEnd (c : Call) : Prop :=
  ∃ n s, Relation.ReflTransGen (Calls L) c (.value (n + 1) s) ∧ AtEnd (Json.space s)

section Descent

variable {L} {text behind s : Text} {n : Nat} {c c' : Call}

lemma reachesEnd_iff : ReachesEnd L c ↔ (∃ n s, c = .value (n + 1) s ∧ AtEnd (Json.space s)) ∨
    ∃ c', Calls L c c' ∧ ReachesEnd L c' := by
  constructor
  · rintro ⟨n, s, hpath, hend⟩
    rcases hpath.cases_head with rfl | ⟨c', hstep, hpath⟩
    · exact .inl ⟨n, s, rfl, hend⟩
    · exact .inr ⟨c', hstep, n, s, hpath, hend⟩
  · rintro (⟨n, s, rfl, hend⟩ | ⟨c', hstep, n, s, hpath, hend⟩)
    · exact ⟨n, s, .refl, hend⟩
    · exact ⟨n, s, hpath.head hstep, hend⟩

lemma reachesEnd_value_iff : ReachesEnd L (.value (n + 1) s) ↔ AtEnd (Json.space s) ∨
    (Json.peek (Json.space s) = byte '[' ∧ ReachesEnd L (.items n (Json.space s).tail)) ∨
    (Json.peek (Json.space s) = byte '\x7b' ∧ ReachesEnd L (.members n (Json.space s).tail)) := by
  rw [reachesEnd_iff]
  constructor
  · rintro (⟨_, _, heq, hend⟩ | ⟨c', hstep, hreach⟩)
    · cases heq
      exact .inl hend
    · cases hstep with
      | array hc => exact .inr (.inl ⟨hc, hreach⟩)
      | object hc => exact .inr (.inr ⟨hc, hreach⟩)
  · rintro (hend | ⟨hc, hreach⟩ | ⟨hc, hreach⟩)
    · exact .inl ⟨n, s, rfl, hend⟩
    · exact .inr ⟨_, .array hc, hreach⟩
    · exact .inr ⟨_, .object hc, hreach⟩

/-- A loop goes on behind a value that has been read. -/
def Continues (L : Library R) (call : Text → Call) (s : Text) : Prop :=
  Json.peek (Json.space s) = byte ',' ∧ ReachesEnd L (call (Json.space s).tail)

lemma reachesEnd_items_iff : ReachesEnd L (.items (n + 1) s) ↔
    (Json.peek s ≠ 0 ∧ Json.peek s ≠ byte ']') ∧ (ReachesEnd L (.value n s) ∨
      ∃ v s₁, Json.value L n s = .ok (v, s₁) ∧ Continues L (.items n) s₁) := by
  rw [reachesEnd_iff]
  constructor
  · rintro (⟨_, _, heq, -⟩ | ⟨c', hstep, hreach⟩)
    · cases heq
    · cases hstep with
      | item hopen => exact ⟨hopen, .inl hreach⟩
      | nextItem hopen hv hcomma => exact ⟨hopen, .inr ⟨_, _, hv, hcomma, hreach⟩⟩
  · rintro ⟨hopen, hreach | ⟨_, _, hv, hcomma, hreach⟩⟩
    · exact .inr ⟨_, .item hopen, hreach⟩
    · exact .inr ⟨_, .nextItem hopen hv hcomma, hreach⟩

lemma reachesEnd_members_iff : ReachesEnd L (.members (n + 1) s) ↔
    (Json.peek s ≠ 0 ∧ Json.peek s ≠ byte '\x7d') ∧ ∃ key s₁,
      Json.string L (Json.space s) = .ok (key, s₁) ∧ Json.peek (Json.space s₁) = byte ':' ∧
      (ReachesEnd L (.value n (Json.space s₁).tail) ∨
        ∃ v s₂, Json.value L n (Json.space s₁).tail = .ok (v, s₂) ∧
          Continues L (.members n) s₂) := by
  rw [reachesEnd_iff]
  constructor
  · rintro (⟨_, _, heq, -⟩ | ⟨c', hstep, hreach⟩)
    · cases heq
    · cases hstep with
      | member hopen hkey hcolon => exact ⟨hopen, _, _, hkey, hcolon, .inl hreach⟩
      | nextMember hopen hkey hcolon hv hcomma =>
        exact ⟨hopen, _, _, hkey, hcolon, .inr ⟨_, _, hv, hcomma, hreach⟩⟩
  · rintro ⟨hopen, _, _, hkey, hcolon, hreach | ⟨_, _, hv, hcomma, hreach⟩⟩
    · exact .inr ⟨_, .member hopen hkey hcolon, hreach⟩
    · exact .inr ⟨_, .nextMember hopen hkey hcolon hv hcomma, hreach⟩

lemma not_reachesEnd_zero : ¬ ReachesEnd L (.value 0 s) ∧ ¬ ReachesEnd L (.items 0 s) ∧
    ¬ ReachesEnd L (.members 0 s) := by
  refine ⟨?_, ?_, ?_⟩ <;>
  · rw [reachesEnd_iff]
    rintro (⟨_, _, heq, -⟩ | ⟨_, hstep, -⟩)
    · cases heq
    · cases hstep

lemma not_reachesEnd_items (h : Json.peek s = byte ']') : ¬ ReachesEnd L (.items n s) := by
  cases n with
  | zero => exact not_reachesEnd_zero.2.1
  | succ n => exact fun hreach => (reachesEnd_items_iff.mp hreach).1.2 h

lemma not_reachesEnd_members (h : Json.peek s = byte '\x7d') : ¬ ReachesEnd L (.members n s) := by
  cases n with
  | zero => exact not_reachesEnd_zero.2.2
  | succ n => exact fun hreach => (reachesEnd_members_iff.mp hreach).1.2 h

/-- The programs behind the three kinds of calls, with as many calls as they may make. -/
structure DoesAll (L : Library R) (text behind : Text) (n : Nat) : Prop where
  value : ∀ s, Does text (value L (text ++ behind) n) (ReachesEnd L (.value n s)) s
    (Json.value L n s)
  items : ∀ s items, Does text (arrayLoop L (text ++ behind) n items) (ReachesEnd L (.items n s)) s
    (Json.arrayLoop L n s items)
  members : ∀ s entries, Does text (objectLoop L (text ++ behind) n entries)
    (ReachesEnd L (.members n s)) s (Json.objectLoop L n s entries)

/-! ### Values -/

/-- What `value` does once it has seen the first character. -/
lemma follows_scalar (hend : ¬ AtEnd s) : Follows text
    (if Json.peek s = byte '"' then return .string (← string L (text ++ behind))
      else if Json.peek s = byte 'n' then null (text ++ behind)
      else if Json.peek s = byte 't' then jtrue (text ++ behind)
      else if Json.peek s = byte 'f' then jfalse (text ++ behind)
      else if Json.peek s = byte '-' ∨ isdigit (Json.peek s) then number L (text ++ behind)
      else fail .fail) s
    (if Json.peek s = byte '"' then (Json.string L s).map fun r => (.string r.1, r.2)
      else if Json.peek s = byte 'n' then orFail (Json.null s)
      else if Json.peek s = byte 't' then orFail (Json.jtrue s)
      else if Json.peek s = byte 'f' then orFail (Json.jfalse s)
      else if Json.peek s = byte '-' ∨ isdigit (Json.peek s) then orFail (Json.number L s)
      else .error .fail) := by
  have hne : ∀ {c : UInt8}, Json.peek s = c → c ≠ 0 → s ≠ [] := by
    rintro c hc h0 rfl
    exact h0 hc.symm
  split
  · exact follows_string.map _
  split
  · next hn => exact follows_literal fun h => hend (.inl ⟨hne hn (by decide), .inl h⟩)
  · split
    · next ht => exact follows_literal fun h => hend (.inl ⟨hne ht (by decide), .inr (.inl h)⟩)
    · split
      · next hf => exact follows_literal fun h => hend (.inl ⟨hne hf (by decide), .inr (.inr h)⟩)
      · split
        · exact follows_number fun i hi => hend (.inr ⟨i, hi⟩)
        · exact follows_fail _ _

lemma peek_of_keyword {c : UInt8} {w : Text} (hs : s ≠ []) (h : s <+: c :: w) :
    Json.peek s = c := by
  cases s with
  | nil => exact absurd rfl hs
  | cons a s => exact (List.cons_prefix_cons.mp h).1

lemma peek_of_numberEnd {r : Bool × Text} (h : numberEnd s = some r) :
    Json.peek s = byte '-' ∨ isdigit (Json.peek s) := by
  by_cases hminus : Json.peek s = byte '-'
  · exact .inl hminus
  · refine .inr ?_
    by_contra hdigit
    rw [numberEnd, if_neg hminus, Json.digits, if_neg hdigit] at h
    cases h

lemma value_strays (hend : AtEnd (Json.space s)) :
    Strays text (value L (text ++ behind) (n + 1)) s := by
  refine follows_space.bind_strays (follows_peek.bind_strays ?_)
  rcases hend with ⟨hs, hnull | htrue | hfalse⟩ | ⟨i, hi⟩
  · rw [peek_of_keyword hs hnull]
    exact strays_literal hnull
  · rw [peek_of_keyword hs htrue]
    exact strays_literal htrue
  · rw [peek_of_keyword hs hfalse]
    exact strays_literal hfalse
  · have hpeek := peek_of_numberEnd hi
    have hne : ∀ c : UInt8, c ≠ byte '-' → isdigit c = false → Json.peek (Json.space s) ≠ c := by
      rintro c hminus hdigit rfl
      rcases hpeek with h | h
      · exact hminus h
      · rw [hdigit] at h
        cases h
    rw [if_neg (hne _ (by decide) (by decide)), if_neg (hne _ (by decide) (by decide)),
      if_neg (hne _ (by decide) (by decide)), if_neg (hne _ (by decide) (by decide)),
      if_neg (hne _ (by decide) (by decide)), if_neg (hne _ (by decide) (by decide)), if_pos hpeek]
    exact strays_number hi

lemma value_does (ih : DoesAll L text behind n) (s : Text) :
    Does text (value L (text ++ behind) (n + 1)) (ReachesEnd L (.value (n + 1) s)) s
      (Json.value L (n + 1) s) := by
  by_cases hend : AtEnd (Json.space s)
  · exact (value_strays hend).does (reachesEnd_value_iff.mpr (.inl hend))
  rw [Json.value]
  refine follows_space.bind_does (follows_peek.bind_does ?_)
  by_cases hbrace : Json.peek (Json.space s) = byte '\x7b'
  · rw [if_pos hbrace, if_pos hbrace]
    refine (follows_next.bind_does ((ih.members _ []).map _)).congr ?_
    rw [reachesEnd_value_iff, hbrace]
    simp +decide [hend]
  rw [if_neg hbrace, if_neg hbrace]
  by_cases hbracket : Json.peek (Json.space s) = byte '['
  · rw [if_pos hbracket, if_pos hbracket]
    refine (follows_next.bind_does ((ih.items _ []).map _)).congr ?_
    rw [reachesEnd_value_iff, hbracket]
    simp +decide [hend]
  rw [if_neg hbracket, if_neg hbracket]
  refine (follows_scalar hend).does ?_
  rw [reachesEnd_value_iff]
  simp [hend, hbrace, hbracket]

/-! ### Arrays and objects -/

/-- What a loop does behind a value, where `close` is the character that ends it. -/
def separated {α : Type} (mem : Text) (close : UInt8) (loop : Parser α) : Parser α := do
  space mem
  if (← peek mem) = close then loop
  else if (← next mem) = byte ',' then loop
  else fail .fail

lemma separated_does {α : Type} {close : UInt8} {loop : Parser α} {call : Text → Call}
    {r : Text → Except Failure (α × Text)} (hcomma : close ≠ byte ',')
    (hloop : ∀ t, Does text loop (ReachesEnd L (call t)) t (r t))
    (hclosed : ∀ t, Json.peek t = close → ¬ ReachesEnd L (call t)) (s : Text) :
    Does text (separated (text ++ behind) close loop) (Continues L call s) s
      (if Json.peek (Json.space s) = close then r (Json.space s)
        else if Json.peek (Json.space s) = byte ',' then r (Json.space s).tail
        else .error .fail) := by
  refine follows_space.bind_does (follows_peek.bind_does ?_)
  by_cases hclose : Json.peek (Json.space s) = close
  · rw [if_pos hclose, if_pos hclose]
    have hnot := hclosed _ hclose
    refine (hloop (Json.space s)).congr ?_
    simp [Continues, hclose, hcomma, hnot]
  rw [if_neg hclose, if_neg hclose]
  refine follows_next.bind_does ?_
  by_cases hc : Json.peek (Json.space s) = byte ','
  · rw [if_pos hc, if_pos hc]
    refine (hloop (Json.space s).tail).congr ?_
    simp [Continues, hc]
  · rw [if_neg hc, if_neg hc]
    exact (follows_fail _ _).does fun h => hc h.1

/-- The end of a loop. -/
lemma follows_close {α : Type} (close : UInt8) (a : α) : Follows text
    (do if (← next (text ++ behind)) = close then return a else fail .fail) s
    (if Json.peek s = close then .ok (a, s.tail) else .error .fail) := by
  refine follows_next.bind ?_
  split
  · exact follows_pure _ _
  · exact follows_fail _ _

lemma items_does (ih : DoesAll L text behind n) (s : Text) (items : List (Val R)) :
    Does text (arrayLoop L (text ++ behind) (n + 1) items) (ReachesEnd L (.items (n + 1) s)) s
      (Json.arrayLoop L (n + 1) s items) := by
  rw [Json.arrayLoop]
  refine follows_peek.bind_does ?_
  by_cases hopen : Json.peek s ≠ 0 ∧ Json.peek s ≠ byte ']'
  · rw [if_pos hopen, if_pos hopen]
    refine ((ih.value s).bind (fun e he => by rw [he]) fun v s₁ hv => ?_).congr
      (reachesEnd_items_iff.trans (and_iff_right hopen))
    rw [hv]
    exact separated_does (by decide) (fun t => ih.items t _) (fun t => not_reachesEnd_items) s₁
  · rw [if_neg hopen, if_neg hopen]
    exact (follows_close _ _).does fun h => hopen (reachesEnd_items_iff.mp h).1

lemma members_does (ih : DoesAll L text behind n) (s : Text) (entries : List (Text × Val R)) :
    Does text (objectLoop L (text ++ behind) (n + 1) entries) (ReachesEnd L (.members (n + 1) s)) s
      (Json.objectLoop L (n + 1) s entries) := by
  rw [Json.objectLoop]
  refine follows_peek.bind_does ?_
  by_cases hopen : Json.peek s ≠ 0 ∧ Json.peek s ≠ byte '\x7d'
  · rw [if_pos hopen, if_pos hopen]
    refine follows_space.bind_does ?_
    have hstring : Does text (string L (text ++ behind)) False (Json.space s) _ :=
      follows_string.does id
    refine (hstring.bind (fun e he => by rw [he]) fun key s₁ hkey => ?_).congr
      ((reachesEnd_members_iff.trans (and_iff_right hopen)).trans (iff_of_eq (false_or _)).symm)
    rw [hkey]
    dsimp only
    refine follows_space.bind_does (follows_next.bind_does ?_)
    by_cases hcolon : Json.peek (Json.space s₁) = byte ':'
    · rw [if_neg (not_not_intro hcolon), if_neg (not_not_intro hcolon)]
      refine ((ih.value _).bind (fun e he => by rw [he]) fun v s₂ hv => ?_).congr
        (and_iff_right hcolon)
      rw [hv]
      exact separated_does (by decide) (fun t => ih.members t _)
        (fun t => not_reachesEnd_members) s₂
    · rw [if_pos hcolon, if_pos hcolon]
      exact (follows_fail _ _).does fun h => hcolon h.1
  · rw [if_neg hopen, if_neg hopen]
    exact (follows_close _ _).does fun h => hopen (reachesEnd_members_iff.mp h).1

lemma doesAll (n : Nat) : DoesAll L text behind n := by
  induction n with
  | zero =>
    exact ⟨fun _ => (follows_fail _ _).does not_reachesEnd_zero.1,
      fun _ _ => (follows_fail _ _).does not_reachesEnd_zero.2.1,
      fun _ _ => (follows_fail _ _).does not_reachesEnd_zero.2.2⟩
  | succ n ih => exact ⟨value_does ih, items_does ih, members_does ih⟩

end Descent

/-! ### The text alone -/

/-- Whatever is behind the text, its value is the same, and nothing behind it is read. -/
def DependsOnText (text : Text) : Prop :=
  ∀ behind behind', (jsonParse L (text ++ behind) text.length).2 ≤ text.length ∧
    (jsonParse L (text ++ behind) text.length).1.isSome ∧
    (jsonParse L (text ++ behind) text.length).1 = (jsonParse L (text ++ behind') text.length).1

lemma parse_does (text behind : Text) :
    (¬ ReachesEnd L (.value (2 * text.length + 1) text) ∧
      ∃ r, Follows text (parse L (text ++ behind) text.length) text r ∧
        r.map Prod.fst = Json.parse L text) ∨
    (ReachesEnd L (.value (2 * text.length + 1) text) ∧
      Strays text (parse L (text ++ behind) text.length) text) := by
  have hdoes : DoesAll L text behind (2 * text.length + 1) := doesAll _
  rcases hdoes.value text with ⟨hnot, hvalue⟩ | ⟨hreach, hstrays⟩
  · refine .inl ⟨hnot, ?_⟩
    rw [Json.parse]
    cases hv : Json.value L (2 * text.length + 1) text with
    | error e =>
      rw [hv] at hvalue
      exact ⟨_, hvalue.bind_error, rfl⟩
    | ok q =>
      obtain ⟨v, rest⟩ := q
      rw [hv] at hvalue
      dsimp only
      split
      · next hrest =>
        refine ⟨.error .fail, hvalue.bind (follows_space.bind (follows_peek.bind ?_)), rfl⟩
        rw [if_pos hrest]
        exact follows_fail _ _
      · next hrest =>
        refine ⟨.ok (v, Json.space rest),
          hvalue.bind (follows_space.bind (follows_peek.bind ?_)), rfl⟩
        rw [if_neg hrest]
        exact follows_pure _ _
  · exact .inr ⟨hreach, hstrays.bind⟩

lemma at_start (text : Text) : At text ⟨0, text.length⟩ text :=
  ⟨List.drop_zero, Nat.zero_le _, rfl⟩

/-- What `json_parse` makes of the text if it looks at nothing else. -/
lemma jsonParse_of_follows {text behind : Text} {r : Except Failure (Val R × Text)}
    (h : Follows text (parse L (text ++ behind) text.length) text r)
    (hr : r.map Prod.fst = Json.parse L text) :
    (jsonParse L (text ++ behind) text.length).1 = some (Json.jsonParse L text) ∧
      (jsonParse L (text ++ behind) text.length).2 ≤ text.length := by
  obtain ⟨hhigh, hresult⟩ := h _ (at_start text)
  have hfuel := parse_ne_fuel L text
  rw [Json.jsonParse, jsonParse]
  cases r with
  | error e =>
    rw [show Json.parse L text = .error e from hr.symm] at hfuel ⊢
    simp only [hresult]
    cases e with
    | fail => exact ⟨rfl, hhigh⟩
    | fuel => exact absurd rfl hfuel
  | ok q =>
    rw [show Json.parse L text = .ok q.1 from hr.symm]
    simp only [hresult.1]
    exact ⟨trivial, hhigh⟩

end TyLang.Json.Memory
