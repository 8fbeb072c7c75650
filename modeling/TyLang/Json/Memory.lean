import TyLang.Json.Sound
import TyLang.Lib.Reading

/-!
`json_parse` of `src/json.c` on a text in memory that is not known to end in `NUL`. All
characters but those of numbers and keywords come from `peek` and `next`, which look at the
number of bytes that are left. `strtoimax`, `strtod`, `strncmp` and the tests for the character
behind a keyword do not.
-/
namespace TyLang.Json.Memory
open List Reading Option

abbrev Parser := Reader Failure

section Code

variable {R : Type} (L : Library R) (mem : Text)

/-! ### The functions of the parser -/

def peek : Parser UInt8 := do
  if (← here).len = 0 then return 0
  load mem 0

def next : Parser UInt8 := do
  if (← here).len = 0 then return 0
  let c ← load mem 0
  advance 1
  return c

/-- `while (p(peek())) next();`, where each round takes a byte from those that are left. -/
def skipLoop (p : UInt8 → Bool) : Nat → Parser Unit
  | 0 => fail .fuel
  | n + 1 => do
    if p (← peek mem) then
      let _ ← next mem
      skipLoop p n
    else return ()

def skip (p : UInt8 → Bool) : Parser Unit := do skipLoop mem p ((← here).len + 1)

def space : Parser Unit := skip mem isspace

/-- The test and the loop for digits that `number` has three times. -/
def digits : Parser Unit := do
  if isdigit (← peek mem) then skip mem isdigit else fail .fail

/-- What is behind the number that `strtoimax` reads. -/
def intRest (num : Text) : Text :=
  (if Json.peek num = byte '-' then num.tail else num).dropWhile isdigit

def fracRest (s : Text) : Text :=
  if Json.peek s = byte '.' then s.tail.dropWhile isdigit else s

def expRest (s : Text) : Text :=
  if (Json.peek s = byte 'e' ∨ Json.peek s = byte 'E') ∧ isdigit (Json.peek (sign s.tail)) then
    (sign s.tail).dropWhile isdigit
  else s

/-- What is behind the number that `strtod` or `strtoimax` reads from the memory at `num`. -/
def numRest (integral : Bool) (num : Text) : Text :=
  if integral then intRest num else expRest (fracRest (intRest num))

/-- The two functions go on to the first character that does not belong to the number. -/
def convert (integral : Bool) (num : Nat) : Parser (Val R) := do
  let bytes := mem.drop num
  let n := bytes.length - (numRest integral bytes).length
  upTo (num + n + 1)
  match Json.convert L integral (bytes.take n) with
  | some v => return v
  | none => fail .fail

def fraction : Parser Bool := do
  if (← peek mem) = byte '.' then
    let _ ← next mem
    digits mem
    return true
  else return false

def expSign : Parser Unit := do
  let c ← peek mem
  if c = byte '-' ∨ c = byte '+' then
    let _ ← next mem
    return ()
  else return ()

def exponent : Parser Bool := do
  let c ← peek mem
  if c = byte 'e' ∨ c = byte 'E' then
    let _ ← next mem
    expSign mem
    digits mem
    return true
  else return false

def minus : Parser Unit := do
  if (← peek mem) = byte '-' then
    let _ ← next mem
    return ()
  else return ()

/-- The part of `number` before the conversion, which tells whether the number is integral. -/
def scanNumber : Parser Bool := do
  minus mem
  digits mem
  let frac ← fraction mem
  let exp ← exponent mem
  return !frac && !exp

def number : Parser (Val R) := do
  let num := (← here).pos
  convert L mem (← scanNumber mem) num

/-- The number of characters in which two texts agree from the start. -/
def common : Text → Text → Nat
  | a :: as, b :: bs => if a = b then common as bs + 1 else 0
  | _, _ => 0

/-- `strncmp(json, w, n) == 0` for the length `n` of the keyword. It stops at the first
difference. -/
def strncmp (w : Text) : Parser Bool := do
  let st ← here
  let n := common w (mem.drop st.pos)
  upTo (st.pos + min (n + 1) w.length)
  return n = w.length

def literal (w : Text) (v : Val R) : Parser (Val R) := do
  if ← strncmp mem w then
    if kwDelim (← load mem w.length) then
      advance w.length
      return v
    else fail .fail
  else fail .fail

def null : Parser (Val R) := literal mem (word ['n', 'u', 'l', 'l']) .nil

def jtrue : Parser (Val R) := literal mem (word ['t', 'r', 'u', 'e']) (.boolean true)

def jfalse : Parser (Val R) := literal mem (word ['f', 'a', 'l', 's', 'e']) (.boolean false)

def next8x : Parser UInt8 := do
  let b₀ ← next mem
  let b₁ ← next mem
  return UInt8.ofNat (16 * xtable b₀ + xtable b₁)

def next16x : Parser Nat := do
  let b₀ ← next mem
  let b₁ ← next mem
  let b₂ ← next mem
  let b₃ ← next mem
  return 4096 * xtable b₀ + 256 * xtable b₁ + 16 * xtable b₂ + xtable b₃

def unicodeEscape : Parser Text := do
  let cp ← next16x mem
  if isSurrogate cp then
    if (← next mem) ≠ byte '\\' then fail .fail
    else if (← next mem) ≠ byte 'u' then fail .fail
    else
      let lo ← next16x mem
      return L.encodeChar (combine cp lo)
  else return L.encodeChar cp

def escape (c : UInt8) : Parser Text :=
  match simpleEscape c with
  | some b => return [b]
  | none => do
    if c = byte 'x' then return [← next8x mem]
    else if c = byte 'u' then unicodeEscape L mem
    else return [← next mem]

def piece : Parser Text := do
  if (← peek mem) = byte '\\' then
    let _ ← next mem
    escape L mem (← next mem)
  else return [← next mem]

def stringLoop : Nat → Text → Parser Text
  | 0, _ => fail .fuel
  | n + 1, str => do
    let c ← peek mem
    if c ≠ 0 ∧ c ≠ byte '"' then
      let bytes ← piece L mem
      stringLoop n (str ++ bytes)
    else if (← next mem) = byte '"' then return str
    else fail .fail

def string : Parser Text := do
  if (← next mem) ≠ byte '"' then fail .fail
  else stringLoop L mem ((← here).len + 1) []

mutual

def value : Nat → Parser (Val R)
  | 0 => fail .fuel
  | n + 1 => do
    space mem
    let c ← peek mem
    if c = byte '\x7b' then
      let _ ← next mem
      return .dict (← objectLoop n [])
    else if c = byte '[' then
      let _ ← next mem
      return .array (← arrayLoop n [])
    else if c = byte '"' then return .string (← string L mem)
    else if c = byte 'n' then null mem
    else if c = byte 't' then jtrue mem
    else if c = byte 'f' then jfalse mem
    else if c = byte '-' ∨ isdigit c then number L mem
    else fail .fail

def arrayLoop : Nat → List (Val R) → Parser (List (Val R))
  | 0, _ => fail .fuel
  | n + 1, items => do
    let c ← peek mem
    if c ≠ 0 ∧ c ≠ byte ']' then
      let v ← value n
      space mem
      if (← peek mem) = byte ']' then arrayLoop n (items ++ [v])
      else if (← next mem) = byte ',' then arrayLoop n (items ++ [v])
      else fail .fail
    else if (← next mem) = byte ']' then return items
    else fail .fail

def objectLoop : Nat → List (Text × Val R) → Parser (List (Text × Val R))
  | 0, _ => fail .fuel
  | n + 1, entries => do
    let c ← peek mem
    if c ≠ 0 ∧ c ≠ byte '\x7d' then
      space mem
      let key ← string L mem
      space mem
      if (← next mem) ≠ byte ':' then fail .fail
      else
        let v ← value n
        space mem
        if (← peek mem) = byte '\x7d' then objectLoop n (OrderedMap.put entries key v)
        else if (← next mem) = byte ',' then objectLoop n (OrderedMap.put entries key v)
        else fail .fail
    else if (← next mem) = byte '\x7d' then return entries
    else fail .fail

end

def parse (n : Nat) : Parser (Val R) := do
  let v ← value L mem (2 * n + 1)
  space mem
  if (← peek mem) ≠ 0 then fail .fail else return v

/-- `json_parse(ty, s, n)` for a text at the start of the memory: the value, unless the calls run
out, and one more than the highest offset that is read. -/
def jsonParse (n : Nat) : Option (Val R) × Nat :=
  (match (parse L mem n ⟨0, n⟩).result with
    | .ok v => some v
    | .error .fail => some .nil
    | .error .fuel => none,
    (parse L mem n ⟨0, n⟩).high)

end Code

section Scanning

variable {R : Type} {L : Library R} {text behind s s' : Text}

/-! ### Characters -/

lemma follows_peek : Follows text (peek (text ++ behind)) s (.ok (Json.peek s, s)) := by
  refine follows_here fun st hst => ?_
  rw [hst.len]
  cases s with
  | nil => exact follows_pure _ _
  | cons c s => exact follows_load behind (Nat.zero_lt_succ _)

lemma follows_next : Follows text (next (text ++ behind)) s (.ok (Json.peek s, s.tail)) := by
  refine follows_here fun st hst => ?_
  rw [hst.len]
  cases s with
  | nil => exact follows_pure _ _
  | cons c s =>
    refine (follows_load behind (Nat.zero_lt_succ _)).bind ?_
    exact (follows_advance (Nat.succ_le_succ (Nat.zero_le _))).bind (follows_pure _ _)

lemma follows_skipLoop {p : UInt8 → Bool} (hp : p 0 = false) (n : Nat) :
    ∀ {s : Text}, s.length < n →
      Follows text (skipLoop (text ++ behind) p n) s (.ok ((), s.dropWhile p)) := by
  induction n with
  | zero => intro s h; cases h
  | succ n ih =>
    intro s h
    refine follows_peek.bind ?_
    cases s with
    | nil =>
      rw [show Json.peek [] = 0 from rfl, hp]
      exact follows_pure _ _
    | cons c s =>
      rw [show Json.peek (c :: s) = c from rfl, dropWhile_cons]
      split
      · exact follows_next.bind (ih (Nat.lt_of_succ_lt_succ h))
      · exact follows_pure _ _

lemma follows_skip {p : UInt8 → Bool} (hp : p 0 = false) :
    Follows text (skip (text ++ behind) p) s (.ok ((), s.dropWhile p)) :=
  follows_here fun st hst => follows_skipLoop hp _ (by rw [hst.len]; exact Nat.lt_succ_self _)

lemma follows_space : Follows text (space (text ++ behind)) s (.ok ((), Json.space s)) :=
  follows_skip rfl

lemma follows_digits : Follows text (digits (text ++ behind)) s
    (orFail ((Json.digits s).map fun r => ((), r))) := by
  refine follows_peek.bind ?_
  rw [Json.digits]
  split
  · exact follows_skip rfl
  · exact follows_fail _ _

lemma follows_minus : Follows text (minus (text ++ behind)) s
    (.ok ((), if Json.peek s = byte '-' then s.tail else s)) := by
  refine follows_peek.bind ?_
  split
  · exact follows_next.bind (follows_pure _ _)
  · exact follows_pure _ _

lemma follows_expSign : Follows text (expSign (text ++ behind)) s (.ok ((), sign s)) := by
  refine follows_peek.bind ?_
  rw [sign]
  split
  · exact follows_next.bind (follows_pure _ _)
  · exact follows_pure _ _

lemma follows_fraction : Follows text (fraction (text ++ behind)) s
    (orFail (Json.fraction s)) := by
  refine follows_peek.bind ?_
  rw [Json.fraction]
  split
  · refine follows_next.bind ?_
    have hdigits : Follows text (digits (text ++ behind)) s.tail _ := follows_digits
    cases hd : Json.digits s.tail with
    | none =>
      rw [hd] at hdigits
      exact hdigits.bind_error
    | some r =>
      rw [hd] at hdigits
      exact hdigits.bind (follows_pure _ _)
  · exact follows_pure _ _

lemma follows_exponent : Follows text (exponent (text ++ behind)) s
    (orFail (Json.exponent s)) := by
  refine follows_peek.bind ?_
  rw [Json.exponent]
  split
  · refine follows_next.bind (follows_expSign.bind ?_)
    have hdigits : Follows text (digits (text ++ behind)) (sign s.tail) _ := follows_digits
    cases hd : Json.digits (sign s.tail) with
    | none =>
      rw [hd] at hdigits
      exact hdigits.bind_error
    | some r =>
      rw [hd] at hdigits
      exact hdigits.bind (follows_pure _ _)
  · exact follows_pure _ _

/-! ### Numbers -/

/-- Whether the number at the start of a text is integral, and what is behind it. -/
def numberEnd (s : Text) : Option (Bool × Text) := do
  let s₁ ← Json.digits (if Json.peek s = byte '-' then s.tail else s)
  let (frac, s₂) ← Json.fraction s₁
  let (exp, s₃) ← Json.exponent s₂
  return (!frac && !exp, s₃)

lemma number_eq (s : Text) : Json.number L s = (numberEnd s).bind fun r =>
    (Json.convert L r.1 (s.take (s.length - r.2.length))).map fun v => (v, r.2) := by
  rw [Json.number, numberEnd]
  cases Json.digits (if Json.peek s = byte '-' then s.tail else s) with
  | none => rfl
  | some s₁ =>
    cases hf : Json.fraction s₁ with
    | none => simp [hf]
    | some r =>
      cases he : Json.exponent r.2 with
      | none => simp [hf, he]
      | some q =>
        simp only [Option.bind_eq_bind, Option.bind_some, hf, he, Option.pure_def]
        rw [Option.map_eq_bind]
        rfl

lemma follows_scanNumber : Follows text (scanNumber (text ++ behind)) s
    (orFail (numberEnd s)) := by
  refine follows_minus.bind ?_
  have hdigits : Follows text (digits (text ++ behind))
    (if Json.peek s = byte '-' then s.tail else s)
    _ := follows_digits
  cases hd : Json.digits (if Json.peek s = byte '-' then s.tail else s) with
  | none =>
    rw [show numberEnd s = none by simp [numberEnd, hd]]
    rw [hd] at hdigits
    exact hdigits.bind_error
  | some s₁ =>
    rw [hd] at hdigits
    refine hdigits.bind ?_
    have hfraction : Follows text (fraction (text ++ behind)) s₁ _ := follows_fraction
    cases hf : Json.fraction s₁ with
    | none =>
      rw [show numberEnd s = none by simp [numberEnd, hd, hf]]
      rw [hf] at hfraction
      exact hfraction.bind_error
    | some r =>
      rw [hf] at hfraction
      refine hfraction.bind ?_
      have hexponent : Follows text (exponent (text ++ behind)) r.2 _ := follows_exponent
      cases he : Json.exponent r.2 with
      | none =>
        rw [show numberEnd s = none by simp [numberEnd, hd, hf, he]]
        rw [he] at hexponent
        exact hexponent.bind_error
      | some q =>
        rw [show numberEnd s = some (!r.1 && !q.1, q.2) by simp [numberEnd, hd, hf, he]]
        rw [he] at hexponent
        exact hexponent.bind (follows_pure _ _)

/-- What is left of a text with more behind it, where `r` is left without: the same with the
bytes behind it, or less than these if nothing is left of the text itself. -/
def Past (r behind x : Text) : Prop := x = r ++ behind ∨ (r = [] ∧ x.length ≤ behind.length)

lemma Past.length_le {r x : Text} (h : Past r behind x) : x.length ≤ r.length + behind.length := by
  rcases h with rfl | ⟨rfl, h⟩
  · rw [length_append]
  · rwa [length_nil, Nat.zero_add]

lemma past_digits (s behind : Text) :
    Past (s.dropWhile isdigit) behind ((s ++ behind).dropWhile isdigit) := by
  rw [dropWhile_append]
  split
  · next h =>
    exact .inr ⟨isEmpty_iff.mp h, (dropWhile_suffix _).length_le⟩
  · exact .inl rfl

lemma digits_some {r : Text} (h : Json.digits s = some r) : s ≠ [] ∧ r = s.dropWhile isdigit := by
  rw [Json.digits] at h
  split at h
  · next hd =>
    refine ⟨?_, (some.inj h).symm⟩
    rintro rfl
    cases hd
  · cases h

lemma tail_append_of_ne_nil (h : s ≠ []) : (s ++ behind).tail = s.tail ++ behind := by
  cases s with
  | nil => exact absurd rfl h
  | cons c s => rfl

variable (behind) in
lemma past_intRest {s₁ : Text}
    (h : Json.digits (if Json.peek s = byte '-' then s.tail else s) = some s₁) :
    Past s₁ behind (intRest (s ++ behind)) := by
  obtain ⟨hne, rfl⟩ := digits_some h
  have hs : s ≠ [] := by
    rintro rfl
    exact hne rfl
  rw [intRest, peek_append hs, tail_append_of_ne_nil hs]
  split
  · exact past_digits s.tail behind
  · exact past_digits s behind

lemma length_fracRest_le (s : Text) : (fracRest s).length ≤ s.length := by
  rw [fracRest]
  split
  · exact ((dropWhile_suffix _).trans (tail_suffix s)).length_le
  · exact .refl

lemma length_sign_le (s : Text) : (sign s).length ≤ s.length := by
  rw [sign]
  split
  · exact (tail_suffix s).length_le
  · exact .refl

lemma length_expRest_le (s : Text) : (expRest s).length ≤ s.length := by
  rw [expRest]
  split
  · have htail := (tail_suffix s).length_le
    have hsign := length_sign_le s.tail
    have hdrop := (dropWhile_suffix isdigit (l := sign s.tail)).length_le
    omega
  · exact .refl

lemma Past.fracRest {s₁ s₂ x : Text} {frac : Bool} (hx : Past s₁ behind x)
    (h : Json.fraction s₁ = some (frac, s₂)) : Past s₂ behind (fracRest x) := by
  by_cases hs : s₁ = []
  · subst hs
    cases h
    exact .inr ⟨rfl, (length_fracRest_le x).trans (by simpa using hx.length_le)⟩
  have hx : x = s₁ ++ behind := hx.resolve_right fun hx => hs hx.1
  rw [hx, Memory.fracRest, peek_append hs, tail_append_of_ne_nil hs]
  rw [Json.fraction] at h
  split at h
  · next hdot =>
    obtain ⟨r, hr, heq⟩ := map_eq_some_iff.mp h
    cases heq
    rw [(digits_some hr).2, if_pos hdot]
    exact past_digits _ behind
  · next hdot =>
    cases h
    exact .inl (if_neg hdot)

lemma sign_append (h : sign s ≠ []) : sign (s ++ behind) = sign s ++ behind := by
  have hs : s ≠ [] := by
    rintro rfl
    exact h rfl
  rw [sign, sign, peek_append hs, tail_append_of_ne_nil hs]
  split <;> rfl

lemma Past.expRest {s₂ s₃ x : Text} {exp : Bool} (hx : Past s₂ behind x)
    (h : Json.exponent s₂ = some (exp, s₃)) : Past s₃ behind (expRest x) := by
  by_cases hs : s₂ = []
  · subst hs
    cases h
    exact .inr ⟨rfl, (length_expRest_le x).trans (by simpa using hx.length_le)⟩
  have hx : x = s₂ ++ behind := hx.resolve_right fun hx => hs hx.1
  rw [hx, Memory.expRest, peek_append hs, tail_append_of_ne_nil hs]
  rw [Json.exponent] at h
  split at h
  · next he =>
    obtain ⟨r, hr, heq⟩ := map_eq_some_iff.mp h
    cases heq
    obtain ⟨hne, rfl⟩ := digits_some hr
    have hdigit : isdigit (Json.peek (sign s₂.tail)) := by
      by_contra hnot
      rw [Json.digits, if_neg hnot] at hr
      cases hr
    rw [sign_append hne, peek_append hne, if_pos ⟨he, hdigit⟩]
    exact past_digits _ behind
  · next he =>
    cases h
    rw [if_neg fun h => he h.1]
    exact .inl rfl

variable (behind) in
lemma past_numRest {i : Bool} {r : Text} (h : numberEnd s = some (i, r)) :
    Past r behind (numRest i (s ++ behind)) := by
  simp only [numberEnd, bind_eq_bind, bind_eq_some_iff] at h
  obtain ⟨s₁, hd, ⟨frac, s₂⟩, hf, ⟨exp, s₃⟩, he, heq⟩ := h
  cases heq
  have hint := past_intRest behind hd
  have hfrac := hint.fracRest hf
  have hexp := hfrac.expRest he
  rw [numRest]
  split
  · next hi =>
    rw [Bool.and_eq_true, Bool.not_eq_true', Bool.not_eq_true'] at hi
    obtain ⟨rfl, rfl⟩ := hi
    have h₂ : s₂ = s₁ := by
      rw [Json.fraction] at hf
      split at hf
      · obtain ⟨_, -, heq⟩ := map_eq_some_iff.mp hf
        cases heq
      · cases hf
        rfl
    have h₃ : s₃ = s₂ := by
      rw [Json.exponent] at he
      split at he
      · obtain ⟨_, -, heq⟩ := map_eq_some_iff.mp he
        cases heq
      · cases he
        rfl
    rwa [h₃, h₂]
  · exact hexp

/-- A number with a character behind it in the text is read from the text. -/
lemma follows_number (h : ∀ i, numberEnd s ≠ some (i, [])) :
    Follows text (number L (text ++ behind)) s (orFail (Json.number L s)) := by
  refine follows_here fun st hst => ?_
  rw [number_eq]
  have hscan : Follows text (scanNumber (text ++ behind)) s _ := follows_scanNumber
  cases hend : numberEnd s with
  | none =>
    rw [hend] at hscan
    exact hscan.bind_error
  | some q =>
    obtain ⟨i, r⟩ := q
    rw [hend] at hscan
    refine hscan.bind ?_
    have hr : r ≠ [] := fun hr => h i (hr ▸ hend)
    have hs : s ≠ [] := by
      rintro rfl
      cases hend
    have hrest := (past_numRest behind hend).resolve_right fun hx => hr hx.1
    have hn : (s ++ behind).length - (numRest i (s ++ behind)).length = s.length - r.length := by
      rw [hrest, length_append, length_append]
      omega
    have hpos := hst.add_length
    have hslen := length_pos_iff.mpr hs
    have hrlen := length_pos_iff.mpr hr
    simp only [convert, hst.drop_memory, hn]
    refine (follows_upTo (by omega)).bind ?_
    rw [take_append_of_le_length (Nat.sub_le ..), bind_some]
    dsimp only
    cases Json.convert L i (s.take (s.length - r.length)) with
    | none => exact follows_fail _ _
    | some v => exact follows_pure _ _

/-- The conversion of a number at the end of the text looks at what is behind the text. -/
lemma strays_number {i : Bool} (h : numberEnd s = some (i, [])) :
    Strays text (number L (text ++ behind)) s := by
  refine strays_here fun st hst => ?_
  have hscan : Follows text (scanNumber (text ++ behind)) s _ := follows_scanNumber
  rw [h] at hscan
  refine hscan.bind_strays ?_
  have hle := (past_numRest behind h).length_le
  have hpos := hst.add_length
  simp only [convert, hst.drop_memory]
  refine (strays_upTo ?_).bind
  rw [length_nil] at hle
  rw [length_append]
  omega

/-! ### Keywords -/

variable (behind) in
lemma common_append (w : Text) : ∀ {s : Text}, ¬ s <+: w →
    common w (s ++ behind) = common w s ∧ common w s < s.length := by
  induction w with
  | nil =>
    intro s h
    refine ⟨by simp [common], ?_⟩
    have hs : s ≠ [] := fun hs => h (hs ▸ List.nil_prefix)
    simpa [common] using length_pos_iff.mpr hs
  | cons a w ih =>
    intro s h
    cases s with
    | nil => exact absurd (List.nil_prefix) h
    | cons c s =>
      rw [cons_append, common, common, length_cons]
      split
      · next hac =>
        have hs : ¬ s <+: w := fun hs => h (List.cons_prefix_cons.mpr ⟨hac.symm, hs⟩)
        rw [(ih hs).1]
        exact ⟨rfl, Nat.succ_lt_succ (ih hs).2⟩
      · exact ⟨rfl, Nat.succ_pos _⟩

lemma common_of_append (s t behind : Text) : s.length ≤ common (s ++ t) (s ++ behind) := by
  induction s with
  | nil => exact Nat.zero_le _
  | cons c s ih =>
    rw [cons_append, cons_append, common, if_pos rfl]
    exact Nat.succ_le_succ ih

lemma common_le (w s : Text) : common w s ≤ w.length := by
  induction w generalizing s with
  | nil => exact .refl
  | cons a w ih =>
    cases s with
    | nil => exact Nat.zero_le _
    | cons c s =>
      rw [common]
      split
      · exact Nat.succ_le_succ (ih s)
      · exact Nat.zero_le _

lemma common_eq_length_iff (w s : Text) : common w s = w.length ↔ s.take w.length = w := by
  induction w generalizing s with
  | nil => simp [common]
  | cons a w ih =>
    cases s with
    | nil => simp [common]
    | cons c s =>
      rw [common]
      split
      · next hac => simp [hac, ih]
      · next hac => simp [Ne.symm hac]

lemma follows_literal {w : Text} {v : Val R} (h : ¬ s <+: w) :
    Follows text (literal (text ++ behind) w v) s (orFail (Json.literal w v s)) := by
  obtain ⟨hcommon, hlt⟩ := common_append behind w h
  have hcmp : Follows text (strncmp (text ++ behind) w) s
      (.ok (decide (common w s = w.length), s)) := by
    refine follows_here fun st hst => ?_
    have hpos := hst.add_length
    simp only [hst.drop_memory, hcommon]
    exact (follows_upTo (by omega)).bind (follows_pure _ _)
  refine hcmp.bind ?_
  rw [Json.literal]
  by_cases hw : s.take w.length = w
  · have hlen := (common_eq_length_iff w s).mpr hw
    rw [if_neg (not_not_intro hw), if_pos (decide_eq_true hlen)]
    refine (follows_load behind (by omega)).bind ?_
    split
    · exact (follows_advance (by omega)).bind (follows_pure _ _)
    · exact follows_fail _ _
  · rw [if_pos hw, if_neg (by simpa [common_eq_length_iff] using hw)]
    exact follows_fail _ _

/-- The comparison of a keyword that the text may end in looks behind the text, or the test of the
character behind the keyword does. -/
lemma strays_literal {w : Text} {v : Val R} (h : s <+: w) :
    Strays text (literal (text ++ behind) w v) s := by
  obtain ⟨t, rfl⟩ := h
  have hle := common_of_append s t behind
  have hge := common_le (s ++ t) (s ++ behind)
  cases t with
  | cons c t =>
    refine Strays.bind (strays_here fun st hst => ?_)
    have hpos := hst.add_length
    simp only [hst.drop_memory]
    refine (strays_upTo ?_).bind
    rw [length_append, length_cons]
    omega
  | nil =>
    rw [append_nil] at hle hge ⊢
    have hcmp : Follows text (strncmp (text ++ behind) s) s (.ok (true, s)) := by
      refine follows_here fun st hst => ?_
      have hpos := hst.add_length
      simp only [hst.drop_memory, Nat.le_antisymm hge hle]
      refine (follows_upTo (by omega)).bind ?_
      exact follows_pure _ _
    refine hcmp.bind_strays ?_
    rw [if_pos rfl]
    exact (strays_load .refl).bind

/-! ### Strings -/

lemma follows_next8x : Follows text (next8x (text ++ behind)) s
    (.ok ((Json.next8x s).1, (Json.next8x s).2)) :=
  follows_next.bind (follows_next.bind (follows_pure _ _))

lemma follows_next16x : Follows text (next16x (text ++ behind)) s
    (.ok ((Json.next16x s).1, (Json.next16x s).2)) :=
  follows_next.bind (follows_next.bind (follows_next.bind (follows_next.bind (follows_pure _ _))))

lemma follows_unicodeEscape : Follows text (unicodeEscape L (text ++ behind)) s
    (orFail (Json.unicodeEscape L s)) := by
  refine follows_next16x.bind ?_
  rw [Json.unicodeEscape]
  dsimp only
  split
  · refine follows_next.bind ?_
    by_cases hbackslash : Json.peek (Json.next16x s).2 = byte '\\'
    · rw [if_neg (not_not_intro hbackslash)]
      refine follows_next.bind ?_
      by_cases hu : Json.peek (Json.next16x s).2.tail = byte 'u'
      · rw [if_neg (not_not_intro hu), if_neg (by simp [hbackslash, hu])]
        exact follows_next16x.bind (follows_pure _ _)
      · rw [if_pos hu, if_pos (.inr hu)]
        exact follows_fail _ _
    · rw [if_pos hbackslash, if_pos (.inl hbackslash)]
      exact follows_fail _ _
  · exact follows_pure _ _

lemma follows_escape (c : UInt8) : Follows text (escape L (text ++ behind) c) s
    (orFail (Json.escape L c s)) := by
  rw [escape, Json.escape]
  cases simpleEscape c with
  | some b => exact follows_pure _ _
  | none =>
    dsimp only
    split
    · exact follows_next8x.bind (follows_pure _ _)
    · split
      · exact follows_unicodeEscape
      · exact follows_next.bind (follows_pure _ _)

lemma follows_piece : Follows text (piece L (text ++ behind)) s (orFail (Json.piece L s)) := by
  refine follows_peek.bind ?_
  rw [Json.piece]
  split
  · exact follows_next.bind (follows_next.bind (follows_escape _))
  · exact follows_next.bind (follows_pure _ _)

lemma follows_stringLoop (n : Nat) : ∀ {s : Text} (str : Text),
    Follows text (stringLoop L (text ++ behind) n str) s (Json.stringLoop L n s str) := by
  induction n with
  | zero => exact fun _ => follows_fail _ _
  | succ n ih =>
    intro s str
    refine follows_peek.bind ?_
    rw [Json.stringLoop]
    split
    · have hpiece : Follows text (piece L (text ++ behind)) s _ := follows_piece
      cases hp : Json.piece L s with
      | none =>
        rw [hp] at hpiece
        exact hpiece.bind_error
      | some r =>
        rw [hp] at hpiece
        exact hpiece.bind (ih _)
    · refine follows_next.bind ?_
      split
      · exact follows_pure _ _
      · exact follows_fail _ _

lemma follows_string : Follows text (string L (text ++ behind)) s (Json.string L s) := by
  refine follows_next.bind ?_
  rw [Json.string]
  split
  · exact follows_fail _ _
  · refine follows_here fun st hst => ?_
    rw [hst.len]
    exact follows_stringLoop _ _

end Scanning

end TyLang.Json.Memory
