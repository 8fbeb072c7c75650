import TyLang.Json.Tree

/-!
What the functions of `src/json.c` read from the text of a tree: the value of the tree if
the source refuses nothing in it, and a failure if it does.
-/
namespace TyLang.Json
open List Option

section Bytes

variable {s rest : Text} {c : UInt8}

@[simp] lemma peek_nil : peek [] = 0 := rfl

@[simp] lemma peek_cons (c : UInt8) (s : Text) : peek (c :: s) = c := rfl

lemma peek_append (h : s ≠ []) : peek (s ++ rest) = peek s := by
  cases s with
  | nil => exact absurd rfl h
  | cons c s => rfl

@[simp] lemma space_blank (b : Blank) (s : Text) : space (b.1 ++ s) = space s :=
  dropWhile_append_of_pos b.2

lemma space_eq (h : isspace (peek s) = false) : space s = s := by
  cases s with
  | nil => rfl
  | cons c s => exact dropWhile_cons_of_neg (by simpa using h)

lemma space_cons (h : isspace c = false) : space (c :: s) = c :: s := space_eq h

/-- The characters that may stand behind a value. -/
def closes (c : UInt8) : Bool :=
  isspace c || [byte ',', byte ']', byte '\x7d', 0].contains c

lemma isdigit_of_closes (h : closes c) : isdigit c = false := by
  cases hd : isdigit c with
  | false => rfl
  | true =>
    simp only [closes, isspace, isdigit, Bool.or_eq_true, Bool.and_eq_true,
      decide_eq_true_eq, UInt8.le_iff_toNat_le, ← UInt8.toNat_inj, contains_eq_mem,
      mem_cons, not_mem_nil, or_false] at h hd
    have h48 : (48 : UInt8).toNat = 48 := rfl
    have h13 : (13 : UInt8).toNat = 13 := rfl
    have h32 : (32 : UInt8).toNat = 32 := rfl
    have hcomma : (byte ',').toNat = 44 := rfl
    have hbracket : (byte ']').toNat = 93 := rfl
    have hbrace : (byte '\x7d').toNat = 125 := rfl
    have h0 : (0 : UInt8).toNat = 0 := rfl
    have h57 : (57 : UInt8).toNat = 57 := rfl
    omega

lemma isspace_of_isdigit (h : isdigit c) : isspace c = false := by
  cases hs : isspace c with
  | false => rfl
  | true =>
    rw [isdigit_of_closes (by simp [closes, hs])] at h
    cases h

lemma ne_of_test {p : UInt8 → Bool} {d : UInt8} (h : p c) (hd : p d = false) : c ≠ d := by
  rintro rfl
  rw [h] at hd
  cases hd

end Bytes

section Numbers

variable {R : Type} (L : Library R) {rest : Text}

lemma Digits.isdigit_peek (ds : Digits) (s : Text) : isdigit (peek (ds.bytes ++ s)) := by
  obtain ⟨bytes, ne, all⟩ := ds
  cases bytes with
  | nil => exact absurd rfl ne
  | cons d ds => exact all d (.head _)

lemma digits_text (ds : Digits) (h : isdigit (peek rest) = false) :
    digits (ds.bytes ++ rest) = some rest := by
  have hrest : rest.dropWhile isdigit = rest := by
    cases rest with
    | nil => rfl
    | cons c s => exact dropWhile_cons_of_neg (by simpa using h)
  rw [digits, if_pos (ds.isdigit_peek rest), dropWhile_append_of_pos ds.all, hrest]

lemma fraction_text (frac : Option Digits) (hdigit : isdigit (peek rest) = false)
    (hpoint : peek rest ≠ byte '.') :
    fraction (fracText frac ++ rest) = some (frac.isSome, rest) := by
  cases frac with
  | none => simp [fraction, fracText, hpoint]
  | some ds => simp [fraction, fracText, digits_text ds hdigit]

lemma sign_text (b : Option Bool) (ds : Digits) (s : Text) :
    sign (signText b ++ (ds.bytes ++ s)) = ds.bytes ++ s := by
  have hd := ds.isdigit_peek s
  cases b with
  | none =>
    change sign (ds.bytes ++ s) = ds.bytes ++ s
    rw [sign, if_neg]
    rintro (h | h) <;> exact ne_of_test hd (by decide) h
  | some b => cases b <;> simp [sign, signText]

section
variable (exp : Option Exponent) (hclose : closes (peek rest))
include hclose

lemma exponent_text : exponent (expText exp ++ rest) = some (exp.isSome, rest) := by
  cases exp with
  | none =>
    have he : peek rest ≠ byte 'e' := ne_of_test hclose (by decide)
    have hE : peek rest ≠ byte 'E' := ne_of_test hclose (by decide)
    simp [exponent, expText, he, hE]
  | some e =>
    obtain ⟨upper, sign, ds⟩ := e
    cases upper <;>
      simp [exponent, expText, sign_text, digits_text ds (isdigit_of_closes hclose)]

lemma isdigit_peek_expText : isdigit (peek (expText exp ++ rest)) = false := by
  cases exp with
  | none => exact isdigit_of_closes hclose
  | some e =>
    obtain ⟨upper, sign, ds⟩ := e
    cases upper <;> rfl

lemma peek_expText_ne : peek (expText exp ++ rest) ≠ byte '.' := by
  cases exp with
  | none => exact ne_of_test hclose (by decide)
  | some e =>
    obtain ⟨upper, sign, ds⟩ := e
    cases upper <;> simp [expText] <;> decide

end

lemma isdigit_peek_fracText (frac : Option Digits) {s : Text}
    (h : isdigit (peek s) = false) : isdigit (peek (fracText frac ++ s)) = false := by
  cases frac with
  | none => exact h
  | some ds => rfl

lemma Num.peek_text (x : Num) (s : Text) :
    peek (x.text ++ s) = byte '-' ∨ isdigit (peek (x.text ++ s)) := by
  obtain ⟨minus, int, frac, exp⟩ := x
  cases minus with
  | true => exact .inl rfl
  | false =>
    right
    simpa [Num.text] using int.isdigit_peek (fracText frac ++ (expText exp ++ s))

lemma unsigned_text (x : Num) (s : Text) :
    (if peek (x.text ++ s) = byte '-' then (x.text ++ s).tail else x.text ++ s) =
      x.int.bytes ++ (fracText x.frac ++ (expText x.exp ++ s)) := by
  obtain ⟨minus, int, frac, exp⟩ := x
  cases minus with
  | true => simp [Num.text]
  | false =>
    have hd := int.isdigit_peek (fracText frac ++ (expText exp ++ s))
    have hne := ne_of_test hd (show isdigit (byte '-') = false from rfl)
    simp [Num.text, hne]

lemma number_text (x : Num) (hclose : closes (peek rest)) :
    number L (x.text ++ rest) = (convert L x.integral x.text).map fun v => (v, rest) := by
  have hexp := isdigit_peek_expText x.exp hclose
  have htake : (x.text ++ rest).take ((x.text ++ rest).length - rest.length) = x.text := by
    simp
  have hintegral : (!x.frac.isSome && !x.exp.isSome) = x.integral := by
    cases hf : x.frac <;> cases he : x.exp <;> simp [Num.integral, hf, he]
  simp only [number, unsigned_text, digits_text x.int (isdigit_peek_fracText x.frac hexp),
    fraction_text x.frac hexp (peek_expText_ne x.exp hclose), exponent_text x.exp hclose, htake,
    hintegral, bind_eq_bind, bind_some]
  cases convert L x.integral x.text <;> rfl

end Numbers

section Words

variable {R : Type} (L : Library R)

lemma literal_text (w : Text) (v : Val R) (rest : Text) :
    literal w v (w ++ rest) = if kwDelim (peek rest) then some (v, rest) else none := by
  have hget : (w ++ rest).getD w.length 0 = peek rest := by
    cases rest with
    | nil => simp
    | cons c s => simp [getD_eq_getElem?_getD]
  simp only [literal, take_left, ne_eq, not_true, if_false, hget, drop_left]

end Words

section Dispatch

variable {R : Type} (L : Library R) {n : Nat} {s : Text}

lemma value_blank (b : Blank) (n : Nat) (s : Text) : value L n (b.1 ++ s) = value L n s := by
  cases n with
  | zero => rw [value, value]
  | succ n => simp only [value, space_blank]

section
variable (n : Nat)

lemma value_brace (s : Text) : value L (n + 1) (byte '\x7b' :: s) =
    (objectLoop L n s []).map fun r => (.dict r.1, r.2) := by
  rw [value]
  simp [space_cons (show isspace (byte '\x7b') = false from rfl)]

lemma value_bracket (s : Text) : value L (n + 1) (byte '[' :: s) =
    (arrayLoop L n s []).map fun r => (.array r.1, r.2) := by
  rw [value]
  simp +decide [space_cons (show isspace (byte '[') = false from rfl)]

lemma value_quote (h : peek s = byte '"') : value L (n + 1) s =
    (string L s).map fun r => (.string r.1, r.2) := by
  have hspace : isspace (peek s) = false := by rw [h]; rfl
  rw [value]
  simp +decide [space_eq hspace, h]

lemma value_word (w : Word) (s : Text) : value L (n + 1) (w.text ++ s) =
    orFail (if kwDelim (peek s) then some (w.val, s) else none) := by
  cases w with
  | null | jtrue | jfalse => exact congrArg orFail (literal_text _ _ s)

lemma value_number (h : peek s = byte '-' ∨ isdigit (peek s) = true) :
    value L (n + 1) s = orFail (number L s) := by
  have hne : ∀ d : UInt8, isdigit d = false → byte '-' ≠ d → peek s ≠ d := by
    intro d hdigit hminus
    rcases h with h | h
    · rwa [h]
    · exact ne_of_test h hdigit
  have hspace : isspace (peek s) = false := by
    rcases h with h | h
    · rw [h]
      rfl
    · exact isspace_of_isdigit h
  rw [value]
  simp only [space_eq hspace, hne (byte '\x7b') (by decide) (by decide),
    hne (byte '[') (by decide) (by decide), hne (byte '"') (by decide) (by decide),
    hne (byte 'n') (by decide) (by decide), hne (byte 't') (by decide) (by decide),
    hne (byte 'f') (by decide) (by decide), if_false, if_pos h]

lemma value_nul (h : peek s = 0) : value L (n + 1) s = .error .fail := by
  have hspace : isspace (peek s) = false := by rw [h]; rfl
  rw [value]
  simp only [space_eq hspace, h]
  rfl

lemma arrayLoop_end (s : Text) (items : List (Val R)) :
    arrayLoop L (n + 1) (byte ']' :: s) items = .ok (items, s) := by
  rw [arrayLoop]
  simp

lemma arrayLoop_nul (items : List (Val R)) (h : peek s = 0) :
    arrayLoop L (n + 1) s items = .error .fail := by
  rw [arrayLoop]
  simp +decide [h]

lemma objectLoop_end (s : Text) (entries : List (Text × Val R)) :
    objectLoop L (n + 1) (byte '\x7d' :: s) entries = .ok (entries, s) := by
  rw [objectLoop]
  simp

lemma objectLoop_nul (entries : List (Text × Val R)) (h : peek s = 0) :
    objectLoop L (n + 1) s entries = .error .fail := by
  rw [objectLoop]
  simp +decide [h]

end

end Dispatch

section Trees

variable {R : Type} {L : Library R} (Q : Literals L)

/-- What is read from a tree, where the character behind it delimits a word or not. -/
def Tree.reads (t : Tree Q.Lit) (d : Bool) : Option (Val R) :=
  bif t.plain d then t.denote L Q.means else none

def Items.reads (is : Items Q.Lit) : Option (List (Val R)) :=
  bif is.plain then is.denote L Q.means else none

def Members.reads (ms : Members Q.Lit) : Option (List (Text × Val R)) :=
  bif ms.plain then ms.denote L Q.means else none

lemma Items.reads_one (b : Blank) (t : Tree Q.Lit) (a : Blank) :
    (Items.one b t a).reads Q = (t.reads Q a.delimits).map fun v => [v] := by
  simp only [Items.reads, Tree.reads, Items.plain, Items.denote]
  cases t.plain a.delimits <;> rfl

lemma Items.reads_more (b : Blank) (t : Tree Q.Lit) (a : Blank) (is : Items Q.Lit) :
    (Items.more b t a is).reads Q =
      (t.reads Q a.delimits).bind fun v => (is.reads Q).map fun vs => v :: vs := by
  simp only [Items.reads, Tree.reads, Items.plain, Items.denote]
  cases t.plain a.delimits <;> cases is.plain <;> cases t.denote L Q.means <;> simp

lemma Members.reads_one (b : Blank) (k : Q.Lit) (c i : Blank) (t : Tree Q.Lit) (a : Blank) :
    (Members.one b k c i t a).reads Q =
      (Q.means k).bind fun key => (t.reads Q a.delimits).map fun v => [(key, v)] := by
  simp only [Members.reads, Tree.reads, Members.plain, Members.denote]
  cases t.plain a.delimits <;> cases Q.means k <;> simp

lemma Members.reads_more (b : Blank) (k : Q.Lit) (c i : Blank) (t : Tree Q.Lit) (a : Blank)
    (ms : Members Q.Lit) :
    (Members.more b k c i t a ms).reads Q = (Q.means k).bind fun key =>
      (t.reads Q a.delimits).bind fun v => (ms.reads Q).map fun es => (key, v) :: es := by
  simp only [Members.reads, Tree.reads, Members.plain, Members.denote]
  cases t.plain a.delimits <;> cases ms.plain <;> cases Q.means k <;>
    cases t.denote L Q.means <;> simp

/-- How a text begins that is no blank and no bracket that closes. -/
def opens (c : UInt8) : Bool := !isspace c && c ≠ byte ']' && c ≠ byte '\x7d'

lemma Tree.opens_text (t : Tree Q.Lit) (s : Text) : opens (peek (t.text Q.text ++ s)) := by
  cases t with
  | word w => cases w <;> rfl
  | num x =>
    rcases x.peek_text s with h | h
    · rw [Tree.text, h]
      rfl
    · rw [Tree.text]
      have hbracket := ne_of_test h (show isdigit (byte ']') = false from rfl)
      have hbrace := ne_of_test h (show isdigit (byte '\x7d') = false from rfl)
      simp [opens, isspace_of_isdigit h, hbracket, hbrace]
  | str l =>
    rw [Tree.text]
    have hne : Q.text l ≠ [] := by
      intro h
      rcases Q.begins l with hb | ⟨-, hb⟩
      · rw [h] at hb
        exact absurd hb (by decide)
      · exact hb h
    rw [peek_append hne]
    rcases Q.begins l with hb | ⟨hb, -⟩ <;> rw [hb] <;> rfl
  | emptyArray _ | array _ _ | emptyObject _ | object _ _ => rfl

lemma kwDelim_peek (a : Blank) {sep : UInt8} (rest : Text) (h : kwDelim sep) :
    kwDelim (peek (a.1 ++ sep :: rest)) = a.delimits := by
  obtain ⟨a, ha⟩ := a
  cases a with
  | nil => exact h
  | cons c a => rfl

lemma closes_peek (a : Blank) {sep : UInt8} (rest : Text) (h : closes sep) :
    closes (peek (a.1 ++ sep :: rest)) := by
  obtain ⟨a, ha⟩ := a
  cases a with
  | nil => exact h
  | cons c a =>
    have hc : isspace c := ha c (.head _)
    simp [closes, hc]

lemma peek_blank_ne (b : Blank) {s : Text} {c : UInt8} (hs : peek s ≠ c)
    (hc : isspace c = false) : peek (b.1 ++ s) ≠ c := by
  obtain ⟨b, hb⟩ := b
  cases b with
  | nil => exact hs
  | cons d b =>
    rintro rfl
    change isspace d = false at hc
    rw [hb d mem_cons_self] at hc
    cases hc

lemma space_opens {s : Text} (h : opens (peek s)) : space s = s := by
  apply space_eq
  cases hs : isspace (peek s) with
  | false => rfl
  | true => simp [opens, hs] at h

/-- One round of the loop of `array` over an item, what `value` makes of it being known. -/
lemma arrayLoop_item {n : Nat} (b : Blank) (t : Tree Q.Lit) (a : Blank) (sep : UInt8)
    (rest : Text) (acc : List (Val R)) (hsep : sep = byte ']' ∨ sep = byte ',') (hn : 0 < n)
    (hvalue : value L n (t.text Q.text ++ (a.1 ++ sep :: rest)) =
      orFail ((t.reads Q a.delimits).map fun v => (v, a.1 ++ sep :: rest))) :
    arrayLoop L (n + 1) (b.1 ++ (t.text Q.text ++ (a.1 ++ sep :: rest))) acc =
      match t.reads Q a.delimits with
      | none => .error .fail
      | some v =>
        if sep = byte ']' then arrayLoop L n (byte ']' :: rest) (acc ++ [v])
        else arrayLoop L n rest (acc ++ [v]) := by
  have hopens := t.opens_text Q (a.1 ++ sep :: rest)
  have hbracket := peek_blank_ne b (ne_of_test hopens (show opens (byte ']') = false from rfl)) rfl
  rw [← value_blank L b] at hvalue
  by_cases hnul : peek (b.1 ++ (t.text Q.text ++ (a.1 ++ sep :: rest))) = 0
  · obtain ⟨m, rfl⟩ : ∃ m, n = m + 1 := ⟨n - 1, by omega⟩
    rw [value_nul L m hnul] at hvalue
    rw [arrayLoop_nul L _ acc hnul]
    cases hr : t.reads Q a.delimits with
    | none => rfl
    | some v =>
      rw [hr] at hvalue
      cases hvalue
  · rw [arrayLoop, if_pos ⟨hnul, hbracket⟩, hvalue]
    cases t.reads Q a.delimits with
    | none => rfl
    | some v =>
      simp only [map_some, orFail, space_blank]
      rcases hsep with rfl | rfl <;> rw [space_cons rfl]
      · simp
      · simp +decide

/-- One round of the loop of `object_lol` over a member. -/
lemma objectLoop_member {n : Nat} (b : Blank) (k : Q.Lit) (c i : Blank) (t : Tree Q.Lit)
    (a : Blank) (sep : UInt8) (rest : Text) (acc : List (Text × Val R))
    (hsep : sep = byte '\x7d' ∨ sep = byte ',')
    (hvalue : value L n (t.text Q.text ++ (a.1 ++ sep :: rest)) =
      orFail ((t.reads Q a.delimits).map fun v => (v, a.1 ++ sep :: rest))) :
    objectLoop L (n + 1) (b.1 ++ (Q.text k ++ (c.1 ++ byte ':' :: (i.1 ++ (t.text Q.text ++
        (a.1 ++ sep :: rest)))))) acc =
      match (Q.means k).bind fun key => (t.reads Q a.delimits).map fun v => (key, v) with
      | none => .error .fail
      | some (key, v) =>
        if sep = byte '\x7d' then
          objectLoop L n (byte '\x7d' :: rest) (OrderedMap.put acc key v)
        else objectLoop L n rest (OrderedMap.put acc key v) := by
  generalize hs : c.1 ++ byte ':' :: (i.1 ++ (t.text Q.text ++ (a.1 ++ sep :: rest))) = s
  have hopens : opens (peek (Q.text k ++ s)) := (Tree.str k).opens_text Q s
  have hbrace := peek_blank_ne b
    (ne_of_test hopens (show opens (byte '\x7d') = false from rfl)) rfl
  have hkey := Q.reads k s
  by_cases hnul : peek (b.1 ++ (Q.text k ++ s)) = 0
  · have hne : peek (Q.text k ++ s) ≠ byte '"' := by
      intro h
      exact peek_blank_ne b (show peek (Q.text k ++ s) ≠ 0 by rw [h]; decide) rfl hnul
    rw [string, if_pos hne] at hkey
    rw [objectLoop_nul L _ acc hnul]
    cases hr : Q.means k with
    | none => rfl
    | some v =>
      rw [hr] at hkey
      cases hkey
  · rw [objectLoop, if_pos ⟨hnul, hbrace⟩, space_blank, space_opens hopens, hkey]
    cases Q.means k with
    | none => rfl
    | some key =>
      simp only [map_some, orFail, bind_some, ← hs, space_blank]
      rw [space_cons rfl]
      simp only [peek_cons, ne_eq, not_true, if_false, tail_cons]
      rw [value_blank, hvalue]
      cases t.reads Q a.delimits with
      | none => rfl
      | some v =>
        simp only [map_some, orFail, space_blank]
        rcases hsep with rfl | rfl <;> rw [space_cons rfl]
        · simp
        · simp +decide

lemma value_lit (l : Q.Lit) (n : Nat) (rest : Text) :
    value L (n + 1) (Q.text l ++ rest) =
      orFail ((Q.means l).map fun w => (.string w, rest)) := by
  have hreads := Q.reads l rest
  by_cases hquote : peek (Q.text l ++ rest) = byte '"'
  · rw [value_quote L n hquote, hreads]
    cases Q.means l <;> rfl
  rw [string, if_pos hquote] at hreads
  have hmeans : Q.means l = none := by
    cases hm : Q.means l with
    | none => rfl
    | some w =>
      rw [hm] at hreads
      cases hreads
  have hnul : peek (Q.text l ++ rest) = 0 := by
    rcases Q.begins l with hb | ⟨hb, hne⟩
    · rw [peek_append (by rintro h; rw [h] at hb; exact absurd hb (by decide))] at hquote
      exact absurd hb hquote
    · rw [peek_append hne, hb]
  rw [value_nul L n hnul, hmeans]
  rfl

lemma arrayLoop_blank (b : Blank) (n : Nat) (rest : Text) :
    arrayLoop L (n + 2) (b.1 ++ byte ']' :: rest) [] =
      if b.1.isEmpty then .ok ([], rest) else .error .fail := by
  obtain ⟨b, hb⟩ := b
  cases b with
  | nil => exact arrayLoop_end L _ _ _
  | cons c b =>
    have hspace : isspace c := hb c (.head _)
    have hnul : c ≠ 0 := by rintro rfl; cases hspace
    have hclose : c ≠ byte ']' := by rintro rfl; cases hspace
    have hvalue := value_blank L ⟨c :: b, hb⟩ (n + 1) (byte ']' :: rest)
    rw [arrayLoop, if_pos ⟨hnul, hclose⟩, hvalue]
    rfl

lemma objectLoop_blank (b : Blank) (n : Nat) (rest : Text) :
    objectLoop L (n + 1) (b.1 ++ byte '\x7d' :: rest) [] =
      if b.1.isEmpty then .ok ([], rest) else .error .fail := by
  obtain ⟨b, hb⟩ := b
  cases b with
  | nil => exact objectLoop_end L _ _ _
  | cons c b =>
    have hspace : isspace c := hb c (.head _)
    have hnul : c ≠ 0 := by rintro rfl; cases hspace
    have hclose : c ≠ byte '\x7d' := by rintro rfl; cases hspace
    have hskip := space_blank ⟨c :: b, hb⟩ (byte '\x7d' :: rest)
    rw [objectLoop, if_pos ⟨hnul, hclose⟩, hskip]
    rfl

/-- What is behind the last item of an array or object, and what the loop makes of it. -/
lemma loop_last {α : Type} (loop : Nat → Text → List α → Except Failure (List α × Text))
    {close : UInt8} (hcomma : byte ',' ≠ close) (hcloses : closes close)
    (hdelim : kwDelim close)
    (hend : ∀ n s acc, loop (n + 1) (close :: s) acc = .ok (acc, s)) (comma : Bool) (rest : Text) :
    ∃ sep s, commaText comma ++ close :: rest = sep :: s ∧ (sep = close ∨ sep = byte ',') ∧
      closes sep ∧ kwDelim sep ∧ ∀ (n : Nat) (acc : List α), 0 < n →
        (if sep = close then loop n (close :: s) acc else loop n s acc) = .ok (acc, rest) := by
  have hloop : ∀ (n : Nat) (acc : List α), 0 < n →
      loop n (close :: rest) acc = .ok (acc, rest) := by
    intro n acc hn
    obtain ⟨n, rfl⟩ := Nat.exists_eq_add_of_lt hn
    exact hend _ rest acc
  cases comma with
  | false => exact ⟨close, rest, rfl, .inl rfl, hcloses, hdelim, by simpa using hloop⟩
  | true => exact ⟨byte ',', close :: rest, rfl, .inr rfl, rfl, rfl, by simpa [hcomma] using hloop⟩

/-- A number ends where another character cannot belong to it. -/
def Tree.Ends {Lit : Type} : Tree Lit → Text → Prop
  | .num _, rest => closes (peek rest)
  | _, _ => True

lemma Tree.ends_of_closes {Lit : Type} {rest : Text} (t : Tree Lit)
    (h : closes (peek rest)) : t.Ends rest := by
  cases t with
  | num x => exact h
  | _ => trivial

mutual

lemma Tree.value_text (t : Tree Q.Lit) (n : Nat) (rest : Text) (hends : t.Ends rest)
    (hn : 2 * (t.text Q.text ++ rest).length < n) : value L n (t.text Q.text ++ rest) =
      orFail ((t.reads Q (kwDelim (peek rest))).map fun v => (v, rest)) := by
  obtain _ | n := n
  · omega
  match t with
  | .word w =>
    rw [Tree.text, value_word]
    simp only [Tree.reads, Tree.plain, Tree.denote]
    cases kwDelim (peek rest) <;> rfl
  | .num x =>
    rw [Tree.text, value_number L n (x.peek_text rest), number_text L x hends]
    rfl
  | .str l =>
    rw [Tree.text, value_lit]
    simp only [Tree.reads, Tree.plain, Tree.denote, cond_true, Option.map_map]
    rfl
  | .emptyArray b =>
    simp only [Tree.text, cons_append, append_assoc, nil_append, length_cons, value_bracket] at hn ⊢
    obtain ⟨n, rfl⟩ : ∃ m, n = m + 2 := ⟨n - 2, by omega⟩
    rw [arrayLoop_blank]
    simp only [Tree.reads, Tree.plain, Tree.denote]
    cases b.1.isEmpty <;> rfl
  | .array is comma =>
    have hloop := Items.arrayLoop_text is n comma rest []
    simp only [Tree.text, cons_append, append_assoc, nil_append, length_cons, value_bracket] at hn ⊢
    rw [hloop (by omega)]
    simp only [Tree.reads, Items.reads, Tree.plain, Tree.denote]
    cases is.plain <;> cases is.denote L Q.means <;> rfl
  | .emptyObject b =>
    simp only [Tree.text, cons_append, append_assoc, nil_append, length_cons, value_brace] at hn ⊢
    obtain _ | n := n
    · omega
    rw [objectLoop_blank]
    simp only [Tree.reads, Tree.plain, Tree.denote]
    cases b.1.isEmpty <;> rfl
  | .object ms comma =>
    have hloop := Members.objectLoop_text ms n comma rest []
    simp only [Tree.text, cons_append, append_assoc, nil_append, length_cons, value_brace] at hn ⊢
    rw [hloop (by omega)]
    simp only [Tree.reads, Members.reads, Tree.plain, Tree.denote]
    cases ms.plain <;> cases ms.denote L Q.means <;> rfl

lemma Items.arrayLoop_text (is : Items Q.Lit) (n : Nat) (comma : Bool) (rest : Text)
    (acc : List (Val R))
    (hn : 2 * (is.text Q.text ++ (commaText comma ++ byte ']' :: rest)).length + 1 < n) :
    arrayLoop L n (is.text Q.text ++ (commaText comma ++ byte ']' :: rest)) acc =
      orFail ((is.reads Q).map fun vs => (acc ++ vs, rest)) := by
  obtain _ | n := n
  · omega
  match is with
  | .one b t a =>
    simp only [Items.text, append_assoc] at hn ⊢
    obtain ⟨sep, s, hs, hsep, hcloses, hdelim, hlast⟩ :=
      loop_last (arrayLoop L) (by decide) rfl rfl (arrayLoop_end L) comma rest
    rw [hs] at hn ⊢
    have hclose := closes_peek a s hcloses
    have hvalue := t.value_text n _ (t.ends_of_closes hclose) (by
      simp only [length_append, length_cons] at hn ⊢; omega)
    rw [kwDelim_peek a s hdelim] at hvalue
    rw [arrayLoop_item Q b t a sep s acc hsep (by omega) hvalue, Items.reads_one]
    cases t.reads Q a.delimits with
    | none => rfl
    | some v => exact hlast n (acc ++ [v]) (by omega)
  | .more b t a is =>
    simp only [Items.text, append_assoc, cons_append] at hn ⊢
    have hclose := closes_peek a (is.text Q.text ++ (commaText comma ++ byte ']' :: rest))
      (show closes (byte ',') from rfl)
    have hvalue := t.value_text n _ (t.ends_of_closes hclose) (by
      simp only [length_append, length_cons] at hn ⊢; omega)
    rw [kwDelim_peek a _ rfl] at hvalue
    rw [arrayLoop_item Q b t a _ _ acc (.inr rfl) (by omega) hvalue, Items.reads_more]
    cases t.reads Q a.delimits with
    | none => rfl
    | some v =>
      have hloop := is.arrayLoop_text n comma rest (acc ++ [v]) (by
        simp only [length_append, length_cons] at hn ⊢; omega)
      simp only [show byte ',' ≠ byte ']' by decide, if_false, hloop]
      cases is.reads Q <;> simp

lemma Members.objectLoop_text (ms : Members Q.Lit) (n : Nat) (comma : Bool) (rest : Text)
    (acc : List (Text × Val R))
    (hn : 2 * (ms.text Q.text ++ (commaText comma ++ byte '\x7d' :: rest)).length + 1 < n) :
    objectLoop L n (ms.text Q.text ++ (commaText comma ++ byte '\x7d' :: rest)) acc =
      orFail ((ms.reads Q).map fun es =>
        (es.foldl (fun d e => OrderedMap.put d e.1 e.2) acc, rest)) := by
  obtain _ | n := n
  · omega
  match ms with
  | .one b k c i t a =>
    simp only [Members.text, append_assoc, cons_append] at hn ⊢
    obtain ⟨sep, s, hs, hsep, hcloses, hdelim, hlast⟩ :=
      loop_last (objectLoop L) (by decide) rfl rfl (objectLoop_end L) comma rest
    rw [hs] at hn ⊢
    have hclose := closes_peek a s hcloses
    have hvalue := t.value_text n _ (t.ends_of_closes hclose) (by
      simp only [length_append, length_cons] at hn ⊢; omega)
    rw [kwDelim_peek a s hdelim] at hvalue
    rw [objectLoop_member Q b k c i t a sep s acc hsep hvalue, Members.reads_one]
    cases Q.means k with
    | none => rfl
    | some key =>
      cases t.reads Q a.delimits with
      | none => rfl
      | some v =>
        exact hlast n (OrderedMap.put acc key v) (by
          simp only [length_append, length_cons] at hn; omega)
  | .more b k c i t a ms =>
    simp only [Members.text, append_assoc, cons_append] at hn ⊢
    have hclose := closes_peek a (ms.text Q.text ++ (commaText comma ++ byte '\x7d' :: rest))
      (show closes (byte ',') from rfl)
    have hvalue := t.value_text n _ (t.ends_of_closes hclose) (by
      simp only [length_append, length_cons] at hn ⊢; omega)
    rw [kwDelim_peek a _ rfl] at hvalue
    rw [objectLoop_member Q b k c i t a _ _ acc (.inr rfl) hvalue, Members.reads_more]
    cases Q.means k with
    | none => rfl
    | some key =>
      cases t.reads Q a.delimits with
      | none => rfl
      | some v =>
        have hloop := ms.objectLoop_text n comma rest (OrderedMap.put acc key v) (by
          simp only [length_append, length_cons] at hn ⊢; omega)
        simp only [bind_some, map_some, show byte ',' ≠ byte '\x7d' by decide, if_false, hloop]
        cases ms.reads Q <;> simp

end

end Trees

end TyLang.Json
