import TyLang.Json.Read

/-!
Whatever `value` of `src/json.c` reads is the text of a tree. Its string literals are made
of pieces, one for each round of the loop of `string`: among the escapes are some whose
digits may be any characters, and some that no one has given a meaning.
-/
namespace TyLang.Json
open List Option

section Pieces

/-- Four characters that `next16x` reads. -/
structure Hex4 where
  (a b c d : UInt8)

def Hex4.text (h : Hex4) : Text := [h.a, h.b, h.c, h.d]

def Hex4.code (h : Hex4) : Nat :=
  4096 * xtable h.a + 256 * xtable h.b + 16 * xtable h.c + xtable h.d

inductive Piece where
  | raw (b : UInt8) (h : b ≠ 0 ∧ b ≠ byte '"' ∧ b ≠ byte '\\')
  | simple (c b : UInt8) (h : simpleEscape c = some b)
  | hex (a b : UInt8)
  | unit (x : Hex4) (h : isSurrogate x.code = false)
  | pair (x y : Hex4) (h : isSurrogate x.code = true)
  | skip (c b : UInt8) (h : simpleEscape c = none ∧ c ≠ byte 'x' ∧ c ≠ byte 'u')

def Piece.text : Piece → Text
  | .raw b _ => [b]
  | .simple c _ _ => [byte '\\', c]
  | .hex a b => [byte '\\', byte 'x', a, b]
  | .unit x _ => byte '\\' :: byte 'u' :: x.text
  | .pair x y _ => byte '\\' :: byte 'u' :: (x.text ++ byte '\\' :: byte 'u' :: y.text)
  | .skip c b _ => [byte '\\', c, b]

def Piece.bytes {R : Type} (L : Library R) : Piece → Text
  | .raw b _ => [b]
  | .simple _ b _ => [b]
  | .hex a b => [UInt8.ofNat (16 * xtable a + xtable b)]
  | .unit x _ => L.encodeChar x.code
  | .pair x y _ => L.encodeChar (combine x.code y.code)
  | .skip _ b _ => [b]

def bodyText (ps : List Piece) : Text := ps.flatMap Piece.text

def litText (ps : List Piece) : Text := byte '"' :: (bodyText ps ++ [byte '"'])

def litMeans {R : Type} (L : Library R) (ps : List Piece) : Option Text :=
  some (ps.flatMap (Piece.bytes L))

variable {R : Type} (L : Library R)

@[simp] lemma bodyText_cons (p : Piece) (ps : List Piece) :
    bodyText (p :: ps) = p.text ++ bodyText ps := flatMap_cons

lemma next16x_text (x : Hex4) (s : Text) : next16x (x.text ++ s) = (x.code, s) := rfl

lemma piece_text (p : Piece) (s : Text) : piece L (p.text ++ s) = some (p.bytes L, s) := by
  cases p with
  | raw b h => exact if_neg h.2.2
  | simple c b h => simp [piece, Piece.text, Piece.bytes, escape, h]
  | hex a b => rfl
  | unit x h =>
    change unicodeEscape L (x.text ++ s) = some (L.encodeChar x.code, s)
    simp [unicodeEscape, next16x_text, h]
  | pair x y h =>
    change unicodeEscape L (x.text ++ byte '\\' :: byte 'u' :: (y.text ++ s)) =
      some (L.encodeChar (combine x.code y.code), s)
    simp [unicodeEscape, next16x_text, h]
  | skip c b h => simp [piece, Piece.text, Piece.bytes, escape, h.1, h.2.1, h.2.2]

lemma Piece.peek_text (p : Piece) (s : Text) :
    peek (p.text ++ s) ≠ 0 ∧ peek (p.text ++ s) ≠ byte '"' := by
  cases p with
  | raw b h => exact ⟨h.1, h.2.1⟩
  | _ => exact ⟨by simp [Piece.text]; decide, by simp [Piece.text]; decide⟩

lemma stringLoop_text (ps : List Piece) (n : Nat) (rest acc : Text) (hn : ps.length < n) :
    stringLoop L n (bodyText ps ++ byte '"' :: rest) acc =
      .ok (acc ++ ps.flatMap (Piece.bytes L), rest) := by
  induction ps generalizing n acc with obtain ⟨n, rfl⟩ : ∃ m, n = m + 1 := ⟨n - 1, by omega⟩
  | nil => simp [stringLoop, bodyText]
  | cons p ps ih =>
    rw [length_cons] at hn
    rw [bodyText_cons, append_assoc, stringLoop, if_pos (p.peek_text _), piece_text]
    simp only
    rw [ih n _ (by omega), flatMap_cons, append_assoc]

lemma Piece.length_text_pos (p : Piece) : 0 < p.text.length := by
  cases p <;> simp [Piece.text]

lemma length_le_bodyText (ps : List Piece) : ps.length ≤ (bodyText ps).length := by
  induction ps with
  | nil => simp
  | cons p ps ih =>
    have := p.length_text_pos
    simp only [length_cons, bodyText_cons, length_append]
    omega

/-- The literals that `string` reads. -/
def pieces : Literals L where
  Lit := List Piece
  text := litText
  means := litMeans L
  begins ps := .inl rfl
  reads ps rest := by
    have hloop := stringLoop_text L ps ((bodyText ps ++ byte '"' :: rest).length + 1) rest [] (by
      have := length_le_bodyText ps
      simp only [length_append, length_cons]
      omega)
    have htext : litText ps ++ rest = byte '"' :: (bodyText ps ++ byte '"' :: rest) := by
      simp [litText]
    rwa [htext, string, if_neg (by simp)]

end Pieces

section Lexemes

variable {R : Type} (L : Library R) {s r : Text} {bytes : Text}

lemma eq_cons_of_ne_nil (h : s ≠ []) : s = peek s :: s.tail := by
  obtain _ | ⟨c, s⟩ := s
  · exact absurd rfl h
  · rfl

lemma eq_cons_of_peek {c : UInt8} (h : peek s = c) (hc : c ≠ 0) : s = c :: s.tail := by
  subst h
  exact eq_cons_of_ne_nil (by rintro rfl; exact hc rfl)

lemma next16x_eq (h : (next16x s).2 ≠ []) :
    ∃ x : Hex4, s = x.text ++ (next16x s).2 ∧ (next16x s).1 = x.code := by
  match s with
  | a :: b :: c :: d :: r => exact ⟨⟨a, b, c, d⟩, rfl, rfl⟩
  | [] | [_] | [_, _] | [_, _, _] => exact absurd rfl h

lemma unicodeEscape_sound (h : unicodeEscape L s = some (bytes, r)) (hr : r ≠ []) :
    ∃ p : Piece, byte '\\' :: byte 'u' :: s = p.text ++ r ∧ bytes = p.bytes L := by
  simp only [unicodeEscape] at h
  cases hsurrogate : isSurrogate (next16x s).1 with
  | false =>
    rw [hsurrogate] at h
    obtain ⟨rfl, rfl⟩ : _ ∧ _ := by simpa using h
    obtain ⟨x, hs, hcode⟩ := next16x_eq hr
    refine ⟨.unit x (hcode ▸ hsurrogate), ?_, congrArg L.encodeChar hcode⟩
    rw [Piece.text, cons_append, cons_append, ← hs]
  | true =>
    rw [hsurrogate, if_pos rfl] at h
    split at h
    · cases h
    next hnot =>
      rw [not_or, not_not, not_not] at hnot
      obtain ⟨rfl, rfl⟩ : _ ∧ _ := by simpa using h
      obtain ⟨y, hy, hlo⟩ := next16x_eq hr
      have hu := eq_cons_of_peek hnot.2 (by decide)
      have hb := eq_cons_of_peek hnot.1 (by decide)
      have hne : (next16x s).2 ≠ [] := by
        rw [hb]
        exact cons_ne_nil _ _
      obtain ⟨x, hx, hhi⟩ := next16x_eq hne
      refine ⟨.pair x y (hhi ▸ hsurrogate), ?_, congrArg L.encodeChar (congrArg₂ combine hhi hlo)⟩
      rw [Piece.text, cons_append, cons_append, append_assoc,
        cons_append, cons_append, ← hy, ← hu, ← hb, ← hx]

lemma escape_sound {c : UInt8} (h : escape L c s = some (bytes, r)) (hr : r ≠ []) :
    ∃ p : Piece, byte '\\' :: c :: s = p.text ++ r ∧ bytes = p.bytes L := by
  rw [escape] at h
  cases hsimple : simpleEscape c with
  | some b =>
    rw [hsimple] at h
    obtain ⟨rfl, rfl⟩ : _ ∧ _ := by simpa using h
    exact ⟨.simple c b hsimple, rfl, rfl⟩
  | none =>
    rw [hsimple] at h
    simp only at h
    split at h
    · next hx =>
        obtain ⟨rfl, rfl⟩ : _ ∧ _ := by simpa using h
        match s with
        | a :: b :: r => exact ⟨.hex a b, by rw [hx]; rfl, rfl⟩
        | [] | [_] => exact absurd rfl hr
    · next hx =>
        split at h
        · next hu =>
            rw [hu]
            exact unicodeEscape_sound L h hr
        · next hu =>
            obtain ⟨rfl, rfl⟩ : _ ∧ _ := by simpa using h
            refine ⟨.skip c (peek s) ⟨hsimple, hx, hu⟩, ?_, rfl⟩
            exact congrArg (byte '\\' :: c :: ·) (eq_cons_of_ne_nil (by rintro rfl; exact hr rfl))

lemma piece_sound (h : piece L s = some (bytes, r)) (hnul : peek s ≠ 0)
    (hquote : peek s ≠ byte '"') (hr : r ≠ []) :
    ∃ p : Piece, s = p.text ++ r ∧ bytes = p.bytes L := by
  rw [piece] at h
  split at h
  · next hb =>
      have hs := eq_cons_of_peek hb (by decide)
      by_cases ht : s.tail = []
      · rw [ht] at h
        cases h
        exact absurd rfl hr
      rw [hs, eq_cons_of_ne_nil ht]
      exact escape_sound L h hr
  · next hb =>
      obtain ⟨rfl, rfl⟩ : _ ∧ _ := by simpa using h
      exact ⟨.raw (peek s) ⟨hnul, hquote, hb⟩, eq_cons_of_ne_nil (by rintro rfl; exact hr rfl), rfl⟩

lemma stringLoop_sound (n : Nat) {s acc w : Text} (h : stringLoop L n s acc = .ok (w, r)) :
    ∃ ps : List Piece, s = bodyText ps ++ byte '"' :: r ∧
      w = acc ++ ps.flatMap (Piece.bytes L) := by
  induction n generalizing s acc with
  | zero => cases h
  | succ n ih =>
    rw [stringLoop] at h
    split at h
    · next hpeek =>
        rcases hp : piece L s with _ | ⟨bytes, s'⟩ <;> rw [hp] at h
        · cases h
        obtain ⟨ps, rfl, rfl⟩ := ih h
        obtain ⟨p, rfl, rfl⟩ := piece_sound L hp hpeek.1 hpeek.2 (by simp)
        exact ⟨p :: ps, by rw [bodyText_cons, append_assoc], by rw [flatMap_cons, append_assoc]⟩
    · split at h
      · next hquote =>
          cases h
          exact ⟨[], eq_cons_of_peek hquote (by decide), by simp⟩
      · cases h

lemma string_sound {w : Text} (h : string L s = .ok (w, r)) :
    ∃ ps : List Piece, s = litText ps ++ r ∧ w = ps.flatMap (Piece.bytes L) := by
  rw [string] at h
  split at h
  · cases h
  · next hquote =>
      obtain ⟨ps, hs, hw⟩ := stringLoop_sound L _ h
      refine ⟨ps, ?_, hw⟩
      rw [eq_cons_of_peek (not_not.1 hquote) (by decide), hs]
      simp [litText]

lemma literal_sound {w : Text} {v v' : Val R} (h : literal w v s = some (v', r)) :
    s = w ++ r ∧ v' = v ∧ kwDelim (peek r) := by
  rw [literal] at h
  split at h
  · cases h
  next hw =>
    split at h
    · next hdelim =>
        obtain ⟨rfl, rfl⟩ : _ ∧ _ := by simpa using h
        have hs : s = w ++ s.drop w.length := by
          conv_lhs => rw [← take_append_drop w.length s, not_not.1 hw]
        refine ⟨hs, rfl, ?_⟩
        have hget : peek (s.drop w.length) = s.getD w.length 0 := by
          rw [peek, headD_eq_head?_getD, head?_drop, getD_eq_getElem?_getD]
        rwa [hget]
    · cases h

lemma digits_sound (h : digits s = some r) : ∃ ds : Digits, s = ds.bytes ++ r := by
  rw [digits] at h
  split at h
  · next hpeek =>
      cases h
      refine ⟨⟨s.takeWhile isdigit, ?_, fun d hd => mem_takeWhile_imp hd⟩,
        (takeWhile_append_dropWhile).symm⟩
      obtain _ | ⟨c, s⟩ := s
      · cases hpeek
      rw [takeWhile_cons_of_pos (by exact hpeek)]
      exact cons_ne_nil _ _
  · cases h

lemma fraction_sound {b : Bool} (h : fraction s = some (b, r)) :
    ∃ frac : Option Digits, s = fracText frac ++ r ∧ b = frac.isSome := by
  rw [fraction] at h
  split at h
  · next hpoint =>
      obtain ⟨r', hd, heq⟩ := map_eq_some_iff.mp h
      cases heq
      obtain ⟨ds, hs⟩ := digits_sound hd
      exact ⟨some ds, (eq_cons_of_peek hpoint (by decide)).trans (by rw [hs]; rfl), rfl⟩
  · cases h
    exact ⟨none, rfl, rfl⟩

lemma sign_sound (s : Text) : ∃ b, s = signText b ++ sign s := by
  rw [sign]
  split
  · next h =>
      rcases h with h | h
      · exact ⟨some true, eq_cons_of_peek h (by decide)⟩
      · exact ⟨some false, eq_cons_of_peek h (by decide)⟩
  · exact ⟨none, rfl⟩

lemma exponent_sound {b : Bool} (h : exponent s = some (b, r)) :
    ∃ exp : Option Exponent, s = expText exp ++ r ∧ b = exp.isSome := by
  rw [exponent] at h
  split at h
  · next hmark =>
      obtain ⟨r', hd, heq⟩ := map_eq_some_iff.mp h
      cases heq
      obtain ⟨ds, hs⟩ := digits_sound hd
      obtain ⟨sg, hsign⟩ := sign_sound s.tail
      have htail : s.tail = signText sg ++ (ds.bytes ++ r) := by rw [← hs, ← hsign]
      rcases hmark with hm | hm <;> rw [eq_cons_of_peek hm (by decide), htail]
      · exact ⟨some ⟨false, sg, ds⟩, by simp [expText], rfl⟩
      · exact ⟨some ⟨true, sg, ds⟩, by simp [expText], rfl⟩
  · cases h
    exact ⟨none, rfl, rfl⟩

lemma number_sound {v : Val R} (h : number L s = some (v, r)) :
    ∃ x : Num, s = x.text ++ r ∧ convert L x.integral x.text = some v := by
  simp only [number, Option.bind_eq_bind, Option.bind_eq_some_iff, Option.pure_def,
    Option.some.injEq] at h
  obtain ⟨s1, hd, ⟨b, s2⟩, hf, ⟨b', s3⟩, he, v', hconvert, hvr⟩ := h
  obtain ⟨rfl, rfl⟩ := Prod.mk.inj hvr
  obtain ⟨int, hint⟩ := digits_sound hd
  obtain ⟨frac, hfrac, rfl⟩ := fraction_sound hf
  obtain ⟨exp, hexp, rfl⟩ := exponent_sound he
  simp only at hexp
  have hs : s = (Num.mk (decide (peek s = byte '-')) int frac exp).text ++ s3 := by
    by_cases hminus : peek s = byte '-'
    · rw [if_pos hminus] at hint
      rw [eq_cons_of_peek hminus (by decide), hint, hfrac, hexp]
      simp [Num.text]
    · rw [if_neg hminus] at hint
      simp only [Num.text, hminus, decide_false]
      rw [hint, hfrac, hexp]
      simp
  refine ⟨_, hs, ?_⟩
  have htake : s.take (s.length - s3.length) =
      (Num.mk (decide (peek s = byte '-')) int frac exp).text := by
    conv_lhs => rw [hs]
    simp
  rw [htake] at hconvert
  rw [← hconvert]
  cases frac <;> cases exp <;> rfl

end Lexemes

variable {s r : Text} {n : Nat}

section Trees

variable {R : Type} (L : Library R)

lemma map_ok {α β : Type} {x : Except Failure (α × Text)} {f : α → β} {b : β} {r : Text}
    (h : (x.map fun q => (f q.1, q.2)) = .ok (b, r)) : ∃ a, x = .ok (a, r) ∧ b = f a := by
  cases x <;> cases h
  exact ⟨_, rfl, rfl⟩

lemma orFail_ok {α : Type} {x : Option α} {a : α} (h : orFail x = .ok a) : x = some a := by
  cases x <;> cases h
  rfl

lemma space_split (s : Text) : ∃ b : Blank, s = b.1 ++ space s :=
  ⟨⟨s.takeWhile isspace, fun _ hc => mem_takeWhile_imp hc⟩, (takeWhile_append_dropWhile).symm⟩

/-- A value that is read is the value of a tree whose text it was read from. -/
def Spells (s : Text) (v : Val R) (r : Text) : Prop :=
  ∃ (b : Blank) (t : Tree (pieces L).Lit), s = b.1 ++ (t.text (pieces L).text ++ r) ∧
    t.plain (kwDelim (peek r)) ∧ t.denote L (pieces L).means = some v

def SpellsItems (s : Text) (vs : List (Val R)) (r : Text) : Prop :=
  ∃ (is : Items (pieces L).Lit) (comma : Bool),
    s = is.text (pieces L).text ++ (commaText comma ++ byte ']' :: r) ∧
    is.plain ∧ is.denote L (pieces L).means = some vs

def SpellsMembers (s : Text) (es : List (Text × Val R)) (r : Text) : Prop :=
  ∃ (ms : Members (pieces L).Lit) (comma : Bool),
    s = ms.text (pieces L).text ++ (commaText comma ++ byte '\x7d' :: r) ∧
    ms.plain ∧ ms.denote L (pieces L).means = some es

lemma kwDelim_sep (a : Blank) {sep : UInt8} (hs : s = a.1 ++ sep :: r)
    (hsep : kwDelim sep) : kwDelim (peek s) = a.delimits := by
  rw [hs]
  exact kwDelim_peek a r hsep

lemma value_cases {v : Val R} (h : value L (n + 1) s = .ok (v, r)) :
    (∃ s' es, space s = byte '\x7b' :: s' ∧ objectLoop L n s' [] = .ok (es, r) ∧ v = .dict es) ∨
    (∃ s' vs, space s = byte '[' :: s' ∧ arrayLoop L n s' [] = .ok (vs, r) ∧ v = .array vs) ∨
    (∃ w, string L (space s) = .ok (w, r) ∧ v = .string w) ∨
    (∃ w : Word, space s = w.text ++ r ∧ v = w.val ∧ kwDelim (peek r)) ∨
    (∃ x : Num, space s = x.text ++ r ∧ convert L x.integral x.text = some v) := by
  rw [value] at h
  split at h
  · next hpeek =>
      left
      obtain ⟨es, hloop, rfl⟩ := map_ok h
      exact ⟨_, es, eq_cons_of_peek hpeek (by decide), hloop, rfl⟩
  split at h
  · next hpeek =>
      right; left
      obtain ⟨vs, hloop, rfl⟩ := map_ok h
      exact ⟨_, vs, eq_cons_of_peek hpeek (by decide), hloop, rfl⟩
  split at h
  · right; right; left
    exact map_ok h
  split at h
  · right; right; right; left
    exact ⟨.null, literal_sound (orFail_ok h)⟩
  split at h
  · right; right; right; left
    exact ⟨.jtrue, literal_sound (orFail_ok h)⟩
  split at h
  · right; right; right; left
    exact ⟨.jfalse, literal_sound (orFail_ok h)⟩
  split at h
  · right; right; right; right
    exact number_sound L (orFail_ok h)
  · cases h

/-- What stands behind a value in a loop that goes on. -/
lemma sep_cases {α : Type} {close : UInt8} {s : Text} {x y : Except Failure α} {a : α}
    (hclose : close ≠ 0)
    (h : (if peek s = close then x else if peek s = byte ',' then y else .error .fail) = .ok a) :
    s = close :: s.tail ∧ x = .ok a ∨ s = byte ',' :: s.tail ∧ y = .ok a := by
  split at h
  · next hpeek => exact .inl ⟨eq_cons_of_peek hpeek hclose, h⟩
  split at h
  · next hpeek => exact .inr ⟨eq_cons_of_peek hpeek (by decide), h⟩
  · cases h

lemma arrayLoop_cases {acc vs : List (Val R)} (h : arrayLoop L (n + 1) s acc = .ok (vs, r)) :
    (s = byte ']' :: r ∧ vs = acc) ∨
    ∃ v s1 s2, value L n s = .ok (v, s1) ∧
      ((space s1 = byte ']' :: s2 ∧ arrayLoop L n (byte ']' :: s2) (acc ++ [v]) = .ok (vs, r)) ∨
        (space s1 = byte ',' :: s2 ∧ arrayLoop L n s2 (acc ++ [v]) = .ok (vs, r))) := by
  rw [arrayLoop] at h
  split at h
  · right
    split at h
    · cases h
    · next v s1 hv =>
        rcases sep_cases (by decide) h with ⟨hs, h⟩ | ⟨hs, h⟩
        · exact ⟨v, s1, (space s1).tail, hv, .inl ⟨hs, hs ▸ h⟩⟩
        · exact ⟨v, s1, _, hv, .inr ⟨hs, h⟩⟩
  split at h
  · next hclose =>
      left
      cases h
      exact ⟨eq_cons_of_peek hclose (by decide), rfl⟩
  · cases h

lemma objectLoop_cases {acc es : List (Text × Val R)}
    (h : objectLoop L (n + 1) s acc = .ok (es, r)) :
    (s = byte '\x7d' :: r ∧ es = acc) ∨
    ∃ key s1 s2 v s3 s4, string L (space s) = .ok (key, s1) ∧ space s1 = byte ':' :: s2 ∧
      value L n s2 = .ok (v, s3) ∧
      ((space s3 = byte '\x7d' :: s4 ∧
          objectLoop L n (byte '\x7d' :: s4) (OrderedMap.put acc key v) = .ok (es, r)) ∨
        (space s3 = byte ',' :: s4 ∧
          objectLoop L n s4 (OrderedMap.put acc key v) = .ok (es, r))) := by
  rw [objectLoop] at h
  split at h
  · right
    split at h
    · cases h
    next key s1 hk =>
    simp only at h
    split at h
    · cases h
    next hcolon =>
    have hs1 := eq_cons_of_peek (not_not.1 hcolon) (by decide)
    split at h
    · cases h
    next v s3 hv =>
    rcases sep_cases (by decide) h with ⟨hs, h⟩ | ⟨hs, h⟩
    · exact ⟨key, s1, _, v, s3, (space s3).tail, hk, hs1, hv, .inl ⟨hs, hs ▸ h⟩⟩
    · exact ⟨key, s1, _, v, s3, _, hk, hs1, hv, .inr ⟨hs, h⟩⟩
  split at h
  · next hclose =>
      left
      cases h
      exact ⟨eq_cons_of_peek hclose (by decide), rfl⟩
  · cases h

lemma SpellsItems.cons {s s1 r : Text} {v : Val R} {ws : List (Val R)} (hv : Spells L s v s1)
    (h : space s1 = byte ']' :: r ∧ ws = [] ∨ ∃ s2, space s1 = byte ',' :: s2 ∧
      (s2 = byte ']' :: r ∧ ws = [] ∨ SpellsItems L s2 ws r)) :
    SpellsItems L s (v :: ws) r := by
  obtain ⟨b, t, rfl, hplain, hdenote⟩ := hv
  obtain ⟨a, ha⟩ := space_split s1
  rcases h with ⟨hs, rfl⟩ | ⟨s2, hs, ⟨rfl, rfl⟩ | ⟨is, comma, rfl, hisplain, hisdenote⟩⟩
  all_goals
    rw [hs] at ha
    rw [kwDelim_sep a ha rfl] at hplain
  · exact ⟨.one b t a, false, by simp [ha, Items.text, commaText], hplain,
      by simp [Items.denote, hdenote]⟩
  · exact ⟨.one b t a, true, by simp [ha, Items.text, commaText], hplain,
      by simp [Items.denote, hdenote]⟩
  · exact ⟨.more b t a is, comma, by simp [ha, Items.text], by simp [Items.plain, hplain, hisplain],
      by simp [Items.denote, hdenote, hisdenote]⟩

/-- The key of a member, with the blanks around it and the colon. -/
lemma key_split {s s1 s2 key : Text} (hk : string L (space s) = .ok (key, s1))
    (hcolon : space s1 = byte ':' :: s2) :
    ∃ (b : Blank) (k : (pieces L).Lit) (c : Blank), (pieces L).means k = some key ∧
      s = b.1 ++ ((pieces L).text k ++ (c.1 ++ byte ':' :: s2)) := by
  obtain ⟨b, hb⟩ := space_split s
  obtain ⟨c, hc⟩ := space_split s1
  obtain ⟨ps, hps, hkey⟩ := string_sound L hk
  refine ⟨b, ps, c, congrArg some hkey.symm, ?_⟩
  rw [hcolon] at hc
  rwa [hps, hc] at hb

lemma SpellsMembers.cons {s s1 s2 s3 r key : Text} {v : Val R} {fs : List (Text × Val R)}
    (hk : string L (space s) = .ok (key, s1)) (hcolon : space s1 = byte ':' :: s2)
    (hv : Spells L s2 v s3)
    (h : space s3 = byte '\x7d' :: r ∧ fs = [] ∨ ∃ s4, space s3 = byte ',' :: s4 ∧
      (s4 = byte '\x7d' :: r ∧ fs = [] ∨ SpellsMembers L s4 fs r)) :
    SpellsMembers L s ((key, v) :: fs) r := by
  obtain ⟨b, k, c, hmeans, rfl⟩ := key_split L hk hcolon
  obtain ⟨i, t, rfl, hplain, hdenote⟩ := hv
  obtain ⟨a, ha⟩ := space_split s3
  rcases h with ⟨hs, rfl⟩ | ⟨s4, hs, ⟨rfl, rfl⟩ | ⟨ms, comma, rfl, hmsplain, hmsdenote⟩⟩
  all_goals
    rw [hs] at ha
    rw [kwDelim_sep a ha rfl] at hplain
  · exact ⟨.one b k c i t a, false, by simp [ha, Members.text, commaText], hplain,
      by simp [Members.denote, hmeans, hdenote]⟩
  · exact ⟨.one b k c i t a, true, by simp [ha, Members.text, commaText], hplain,
      by simp [Members.denote, hmeans, hdenote]⟩
  · exact ⟨.more b k c i t a ms, comma, by simp [ha, Members.text],
      by simp [Members.plain, hplain, hmsplain],
      by simp [Members.denote, hmeans, hdenote, hmsdenote]⟩

/-- What the loops and `value` read, for a number of calls. -/
structure ReadsTrees (n : Nat) : Prop where
  value : ∀ s v r, value L n s = .ok (v, r) → Spells L s v r
  array : ∀ s acc vs r, arrayLoop L n s acc = .ok (vs, r) →
    (s = byte ']' :: r ∧ vs = acc) ∨ ∃ ws, vs = acc ++ ws ∧ SpellsItems L s ws r
  object : ∀ s acc es r, objectLoop L n s acc = .ok (es, r) →
    (s = byte '\x7d' :: r ∧ es = acc) ∨
      ∃ fs, es = fs.foldl (fun d e => OrderedMap.put d e.1 e.2) acc ∧ SpellsMembers L s fs r

lemma ReadsTrees.succ (ih : ReadsTrees L n) : ReadsTrees L (n + 1) where
  value s v r h := by
    obtain ⟨b, hb⟩ := space_split s
    rcases value_cases L h with ⟨s', es, hs, hloop, rfl⟩ | ⟨s', vs, hs, hloop, rfl⟩ |
      ⟨w, hstring, rfl⟩ | ⟨w, hs, rfl, hdelim⟩ | ⟨x, hs, hconvert⟩
    · rw [hs] at hb
      rcases ih.object _ _ _ _ hloop with ⟨rfl, rfl⟩ | ⟨fs, rfl, ms, comma, rfl, hplain, hdenote⟩
      · exact ⟨b, .emptyObject ⟨[], by simp⟩, hb, rfl, rfl⟩
      · refine ⟨b, .object ms comma, ?_, hplain, ?_⟩
        · rw [hb]
          simp [Tree.text]
        · rw [Tree.denote, hdenote]
          rfl
    · rw [hs] at hb
      rcases ih.array _ _ _ _ hloop with ⟨rfl, rfl⟩ | ⟨ws, rfl, is, comma, rfl, hplain, hdenote⟩
      · exact ⟨b, .emptyArray ⟨[], by simp⟩, hb, rfl, rfl⟩
      · refine ⟨b, .array is comma, ?_, hplain, ?_⟩
        · rw [hb]
          simp [Tree.text]
        · rw [Tree.denote, hdenote]
          rfl
    · obtain ⟨ps, hps, rfl⟩ := string_sound L hstring
      exact ⟨b, .str ps, hps ▸ hb, rfl, rfl⟩
    · exact ⟨b, .word w, hs ▸ hb, hdelim, rfl⟩
    · exact ⟨b, .num x, hs ▸ hb, rfl, hconvert⟩
  array s acc vs r h := by
    rcases arrayLoop_cases L h with hend | ⟨v, s1, s2, hv, ⟨hs, hloop⟩ | ⟨hs, hloop⟩⟩
    · exact .inl hend
    all_goals
      right
      replace hv := ih.value _ _ _ hv
    · obtain _ | n := n <;> cases hloop
      exact ⟨[v], rfl, .cons L hv (.inl ⟨hs, rfl⟩)⟩
    · rcases ih.array _ _ _ _ hloop with ⟨hs2, rfl⟩ | ⟨ws, rfl, hitems⟩
      · exact ⟨[v], rfl, .cons L hv (.inr ⟨_, hs, .inl ⟨hs2, rfl⟩⟩)⟩
      · exact ⟨v :: ws, by simp, .cons L hv (.inr ⟨_, hs, .inr hitems⟩)⟩
  object s acc es r h := by
    rcases objectLoop_cases L h with hend |
      ⟨key, s1, s2, v, s3, s4, hk, hcolon, hv, ⟨hs, hloop⟩ | ⟨hs, hloop⟩⟩
    · exact .inl hend
    all_goals
      right
      replace hv := ih.value _ _ _ hv
    · obtain _ | n := n <;> cases hloop
      exact ⟨[(key, v)], rfl, .cons L hk hcolon hv (.inl ⟨hs, rfl⟩)⟩
    · rcases ih.object _ _ _ _ hloop with ⟨hs4, rfl⟩ | ⟨fs, rfl, hmembers⟩
      · exact ⟨[(key, v)], rfl, .cons L hk hcolon hv (.inr ⟨_, hs, .inl ⟨hs4, rfl⟩⟩)⟩
      · exact ⟨(key, v) :: fs, rfl, .cons L hk hcolon hv (.inr ⟨_, hs, .inr hmembers⟩)⟩

lemma readsTrees (n : Nat) : ReadsTrees L n := by
  induction n with
  | zero => exact ⟨fun _ _ _ h => (nomatch h), fun _ _ _ _ h => (nomatch h),
      fun _ _ _ _ h => nomatch h⟩
  | succ n ih => exact ih.succ

end Trees

section Calls

variable {R : Type} (L : Library R)

lemma escape_length {c : UInt8} {s r bytes : Text} (h : escape L c s = some (bytes, r)) :
    r.length ≤ s.length := by
  simp only [escape, unicodeEscape] at h
  (repeat' split at h) <;> cases h
  · exact le_rfl
  all_goals
    simp only [next8x, next16x, length_tail]
    omega

lemma piece_length {s r bytes : Text} (h : piece L s = some (bytes, r)) (hs : s ≠ []) :
    r.length < s.length := by
  have hpos := length_pos_of_ne_nil hs
  rw [piece] at h
  split at h
  · have hle := escape_length L h
    simp only [length_tail] at hle
    omega
  · cases h
    rw [length_tail]
    omega

lemma stringLoop_ne_fuel (n : Nat) {s acc : Text} (hn : s.length < n) :
    stringLoop L n s acc ≠ .error .fuel := by
  induction n generalizing s acc with
  | zero => omega
  | succ n ih =>
    rw [stringLoop]
    split
    · next hpeek =>
        have hs : s ≠ [] := by
          rintro rfl
          exact hpeek.1 rfl
        rcases hp : piece L s with _ | q
        · simp
        have hlt := piece_length L hp hs
        exact ih (by omega)
    · split <;> simp

lemma string_ne_fuel (s : Text) : string L s ≠ .error .fuel := by
  rw [string]
  split
  · simp
  · exact stringLoop_ne_fuel L _ (Nat.lt_succ_self _)

lemma Tree.length_text_pos (t : Tree (pieces L).Lit) : 0 < (t.text (pieces L).text).length := by
  cases t with
  | word w => cases w <;> exact Nat.succ_pos _
  | num x =>
    have := length_pos_of_ne_nil x.int.ne
    simp only [Tree.text, Num.text, length_append]
    omega
  | str _ | emptyArray _ | array _ _ | emptyObject _ | object _ _ => exact Nat.succ_pos _

lemma value_length {v : Val R} (h : value L n s = .ok (v, r)) : r.length < s.length := by
  obtain ⟨b, t, hs, -⟩ := (readsTrees L n).value _ _ _ h
  have := t.length_text_pos L
  rw [hs, length_append, length_append]
  omega

lemma string_length {s r w : Text} (h : string L s = .ok (w, r)) : r.length < s.length := by
  obtain ⟨ps, hs, -⟩ := string_sound L h
  rw [hs, litText]
  simp only [cons_append, length_cons, length_append]
  omega

lemma space_length (s : Text) : (space s).length ≤ s.length :=
  (dropWhile_suffix isspace).length_le

lemma orFail_ne_fuel {α : Type} (x : Option α) : orFail x ≠ .error .fuel := by
  cases x <;> simp [orFail]

lemma map_ne_fuel {α β : Type} {x : Except Failure α} (f : α → β) (h : x ≠ .error .fuel) :
    x.map f ≠ .error .fuel := by
  cases x with
  | error e => exact fun he => h (by cases he; rfl)
  | ok a => simp [Except.map]

/-- The calls are enough: `value` may make two for each character, and a loop one more. -/
structure Enough (n : Nat) : Prop where
  value : ∀ s : Text, 2 * s.length < n → value L n s ≠ .error .fuel
  array : ∀ (s : Text) acc, 2 * s.length + 1 < n → arrayLoop L n s acc ≠ .error .fuel
  object : ∀ (s : Text) acc, 2 * s.length + 1 < n → objectLoop L n s acc ≠ .error .fuel

lemma Enough.succ (ih : Enough L n) : Enough L (n + 1) where
  value s hn := by
    have hspace := space_length s
    have htail : ∀ c : UInt8, peek (space s) = c → c ≠ 0 → 2 * (space s).tail.length + 1 < n := by
      intro c hc hne
      have hcons := congrArg length (eq_cons_of_peek hc hne)
      rw [length_cons] at hcons
      omega
    rw [Json.value]
    split
    · next h => exact map_ne_fuel _ (ih.object _ _ (htail _ h (by decide)))
    split
    · next h => exact map_ne_fuel _ (ih.array _ _ (htail _ h (by decide)))
    split
    · exact map_ne_fuel _ (string_ne_fuel L _)
    iterate 4
      split
      · exact orFail_ne_fuel _
    simp
  array s acc hn := by
    rw [arrayLoop]
    split
    · split
      · next e hv => exact fun h => ih.value s (by omega) (by cases h; exact hv)
      next v s1 hv =>
      have hlt := value_length L hv
      have hspace := space_length s1
      simp only
      split
      · exact ih.array _ _ (by omega)
      split
      · exact ih.array _ _ (by rw [length_tail]; omega)
      · simp
    split <;> simp
  object s acc hn := by
    rw [objectLoop]
    split
    · split
      · next e hk => exact fun h => string_ne_fuel L (space s) (by cases h; exact hk)
      next key s1 hk =>
      have hlt := string_length L hk
      have hspace := space_length s
      have hspace1 := space_length s1
      simp only
      split
      · simp
      have htail : 2 * (space s1).tail.length < n := by
        rw [length_tail]
        omega
      split
      · next e hv => exact fun h => ih.value _ htail (by cases h; exact hv)
      next v s3 hv =>
      have hlt3 := value_length L hv
      have hspace3 := space_length s3
      split
      · exact ih.object _ _ (by omega)
      split
      · exact ih.object _ _ (by rw [length_tail]; omega)
      · simp
    split <;> simp

lemma enough (n : Nat) : Enough L n := by
  induction n with
  | zero => exact ⟨fun s h => by omega, fun s acc h => by omega, fun s acc h => by omega⟩
  | succ n ih => exact ih.succ

/-- `parse` never runs out of calls. -/
lemma parse_ne_fuel (s : Text) : parse L s ≠ .error .fuel := by
  have hvalue := (enough L (2 * s.length + 1)).value s (Nat.lt_succ_self _)
  rw [parse]
  split
  · next e hv => exact fun h => hvalue (by cases h; exact hv)
  · split <;> simp

end Calls

end TyLang.Json
