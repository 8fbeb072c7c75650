import TyLang.Json.TextOnly

/-!
The documents of RFC 8259 among the trees that `src/json.c` reads, and `json_parse` beside
them, on a text with any bytes behind it. It refuses some documents of the grammar, accepts some
texts outside of it, and reads behind texts that end in a number or a keyword.
-/
namespace TyLang.Json
open List

section Strict

def Blank.strict (b : Blank) : Bool := b.1.all fun c => [32, 9, 10, 13].contains c

def Digits.strict (ds : Digits) : Bool := ds.bytes = [byte '0'] || ds.bytes.head? ≠ some (byte '0')

def isxdigit (c : UInt8) : Bool :=
  isdigit c || (byte 'A' ≤ c && c ≤ byte 'F') || (byte 'a' ≤ c && c ≤ byte 'f')

def Hex4.strict (x : Hex4) : Bool := x.text.all isxdigit

def Piece.strict : Piece → Bool
  | .raw b _ => 32 ≤ b
  | .simple _ _ _ => true
  | .hex _ _ => false
  | .unit x _ => x.strict
  | .pair x y _ => x.strict && y.strict && x.code < 0xDC00 && 0xDC00 ≤ y.code && y.code < 0xE000
  | .skip _ _ _ => false

def strictLit (ps : List Piece) : Bool := ps.all Piece.strict

mutual

def Tree.strict : Tree (List Piece) → Bool
  | .word _ => true
  | .num x => x.int.strict
  | .str ps => strictLit ps
  | .emptyArray b => Blank.strict b
  | .array is comma => is.strict && !comma
  | .emptyObject b => Blank.strict b
  | .object ms comma => ms.strict && !comma

def Items.strict : Items (List Piece) → Bool
  | .one b t a => Blank.strict b && t.strict && Blank.strict a
  | .more b t a is => Blank.strict b && t.strict && Blank.strict a && is.strict

def Members.strict : Members (List Piece) → Bool
  | .one b k c i t a => Blank.strict b && strictLit k && Blank.strict c && Blank.strict i &&
      t.strict && Blank.strict a
  | .more b k c i t a ms => Blank.strict b && strictLit k && Blank.strict c && Blank.strict i &&
      t.strict && Blank.strict a && ms.strict

end

structure Document where
  before : Blank
  tree : Tree (List Piece)
  after : Blank

def Document.text (d : Document) : Text := d.before.1 ++ (d.tree.text litText ++ d.after.1)

def ValidUtf8 (s : Text) : Prop := ∃ cs : List Char, s = cs.flatMap String.utf8EncodeChar

/-- The document is one of the grammar, with a pair of escapes for each character outside of
the basic plane. -/
def Document.Strict (d : Document) : Prop :=
  d.before.strict ∧ d.tree.strict ∧ d.after.strict ∧ ValidUtf8 d.text

/-- The document has no blank between the brackets of an empty array or object, and behind
each word stands a space, a newline or no blank. -/
def Document.plain (d : Document) : Bool := d.tree.plain d.after.delimits

/-- The characters that the grammar gives a piece. -/
def Piece.denotes : Piece → Text
  | .raw b _ => [b]
  | .simple _ b _ => [b]
  | .hex _ _ => []
  | .unit x _ => String.utf8EncodeChar (Char.ofNat x.code)
  | .pair x y _ => String.utf8EncodeChar
      (Char.ofNat (0x10000 + (x.code - 0xD800) * 0x400 + (y.code - 0xDC00)))
  | .skip _ _ _ => []

def litDenotes (ps : List Piece) : Option Text := some (ps.flatMap Piece.denotes)

variable {R : Type} (L : Library R)

/-- The value that the document denotes, if its numbers are in range. -/
def Document.denotes (d : Document) : Option (Val R) := d.tree.denote L litDenotes

end Strict

section Meaning

variable {R : Type} (L : Library R)

lemma encodeChar_ofNat {n : Nat} (h : n.isValidChar) :
    L.encodeChar n = String.utf8EncodeChar (Char.ofNat n) := by
  have htoNat : (Char.ofNat n).toNat = n := by
    rw [Char.ofNat, dif_pos h]
    rfl
  rw [← L.encodeChar_eq, htoNat]

lemma xtable_lt (c : UInt8) : xtable c < 16 := by
  simp only [xtable, isdigit, Bool.and_eq_true, decide_eq_true_eq, UInt8.le_iff_toNat_le]
  have h57 : (57 : UInt8).toNat = 57 := rfl
  have hF : (byte 'F').toNat = 70 := rfl
  have hf : (byte 'f').toNat = 102 := rfl
  split
  · omega
  split
  · omega
  split
  · omega
  · omega

lemma Hex4.code_lt (x : Hex4) : x.code < 65536 := by
  have ha := xtable_lt x.a
  have hb := xtable_lt x.b
  have hc := xtable_lt x.c
  have hd := xtable_lt x.d
  rw [Hex4.code]
  omega

lemma combine_eq {hi lo : Nat} (h : 0xDC00 ≤ lo) :
    combine hi lo = 0x10000 + (hi - 0xD800) * 0x400 + (lo - 0xDC00) :=
  Nat.add_sub_assoc h _

lemma Piece.denotes_eq (p : Piece) (h : p.strict) : p.denotes = p.bytes L := by
  cases p with
  | raw b hb => rfl
  | simple c b hb => rfl
  | hex a b => cases h
  | unit x hx =>
    have hcode := x.code_lt
    refine (encodeChar_ofNat L ?_).symm
    simp only [isSurrogate, Bool.and_eq_false_iff, decide_eq_false_iff_not] at hx
    omega
  | pair x y hx =>
    simp only [Piece.strict, Bool.and_eq_true, decide_eq_true_eq] at h
    rw [Piece.denotes, Piece.bytes, combine_eq h.1.2]
    refine (encodeChar_ofNat L ?_).symm
    omega
  | skip c b hc => cases h

lemma litDenotes_eq (ps : List Piece) (h : strictLit ps) :
    litDenotes ps = litMeans L ps := by
  have hps : ∀ p ∈ ps, p.denotes = p.bytes L := fun p hp =>
    p.denotes_eq L (all_eq_true.1 h p hp)
  exact congrArg some (flatMap_congr hps)

mutual

lemma Tree.denote_eq (t : Tree (List Piece)) (h : t.strict) :
    t.denote L litDenotes = t.denote L (litMeans L) := by
  match t with
  | .word w => rfl
  | .num x => rfl
  | .str ps => rw [Tree.denote, Tree.denote, litDenotes_eq L ps h]
  | .emptyArray b => rfl
  | .array is comma =>
    simp only [Tree.strict, Bool.and_eq_true] at h
    rw [Tree.denote, Tree.denote, Items.denote_eq is h.1]
  | .emptyObject b => rfl
  | .object ms comma =>
    simp only [Tree.strict, Bool.and_eq_true] at h
    rw [Tree.denote, Tree.denote, Members.denote_eq ms h.1]

lemma Items.denote_eq (is : Items (List Piece)) (h : is.strict) :
    is.denote L litDenotes = is.denote L (litMeans L) := by
  match is with
  | .one b t a =>
    simp only [Items.strict, Bool.and_eq_true] at h
    rw [Items.denote, Items.denote, Tree.denote_eq t h.1.2]
  | .more b t a is =>
    simp only [Items.strict, Bool.and_eq_true] at h
    rw [Items.denote, Items.denote, Tree.denote_eq t h.1.1.2, Items.denote_eq is h.2]

lemma Members.denote_eq (ms : Members (List Piece)) (h : ms.strict) :
    ms.denote L litDenotes = ms.denote L (litMeans L) := by
  match ms with
  | .one b k c i t a =>
    simp only [Members.strict, Bool.and_eq_true] at h
    rw [Members.denote, Members.denote, litDenotes_eq L k h.1.1.1.1.2, Tree.denote_eq t h.1.2]
  | .more b k c i t a ms =>
    simp only [Members.strict, Bool.and_eq_true] at h
    rw [Members.denote, Members.denote, litDenotes_eq L k h.1.1.1.1.1.2,
      Tree.denote_eq t h.1.1.2, Members.denote_eq ms h.2]

end

end Meaning

section Parse

variable {R : Type} (L : Library R)

/-- What `json_parse` reads from a document, whatever is behind a `NUL` after it. -/
lemma parse_document (d : Document) (rest : Text) (hrest : peek rest = 0) :
    parse L (d.text ++ rest) = orFail (d.tree.reads (pieces L) d.after.delimits) := by
  have hcloses : closes (peek (d.after.1 ++ rest)) := by
    obtain ⟨-, -, ⟨a, ha⟩⟩ := d
    cases a with
    | nil =>
      change closes (peek rest)
      rw [hrest]
      rfl
    | cons c a =>
      change closes c
      rw [closes, ha c mem_cons_self]
      rfl
  have hdelim : kwDelim (peek (d.after.1 ++ rest)) = d.after.delimits := by
    obtain ⟨-, -, ⟨a, ha⟩⟩ := d
    cases a with
    | nil => exact congrArg kwDelim hrest
    | cons c a => rfl
  have htext : d.text ++ rest =
      d.before.1 ++ (d.tree.text (pieces L).text ++ (d.after.1 ++ rest)) := by
    rw [Document.text, append_assoc, append_assoc]
    rfl
  have hvalue := Tree.value_text (pieces L) d.tree (2 * (d.text ++ rest).length + 1) _
    (d.tree.ends_of_closes hcloses) (by
      simp only [htext, length_append]
      omega)
  rw [parse, htext, value_blank, ← htext, hvalue, hdelim]
  cases Tree.reads (pieces L) d.tree d.after.delimits with
  | none => rfl
  | some v =>
    have hspace : space rest = rest := space_eq (by rw [hrest]; rfl)
    simp only [Option.map_some, orFail, space_blank, hspace, hrest, ne_eq, not_true, if_false]

/-- What `json_parse` accepts is a document, or one with a `NUL` behind it. -/
lemma parse_sound {s : Text} {v : Val R} (h : parse L s = .ok v) :
    ∃ (d : Document) (rest : Text), s = d.text ++ rest ∧ peek rest = 0 ∧ d.plain ∧
      d.tree.denote L (litMeans L) = some v := by
  rw [parse] at h
  cases hv : value L (2 * s.length + 1) s with
  | error e =>
    rw [hv] at h
    cases h
  | ok q =>
    obtain ⟨w, r⟩ := q
    rw [hv] at h
    simp only at h
    split at h
    · cases h
    next hnul =>
      cases h
      obtain ⟨b, t, hs, hplain, hdenote⟩ := (readsTrees L _).value _ _ _ hv
      obtain ⟨a, ha⟩ := space_split r
      refine ⟨⟨b, t, a⟩, space r, ?_, not_not.1 hnul, ?_, hdenote⟩
      · rwa [Document.text, append_assoc, append_assoc, ← ha]
      have hdelim : kwDelim (peek r) = a.delimits := by
        rw [ha]
        obtain ⟨a, hblank⟩ := a
        cases a with
        | nil => exact congrArg kwDelim (not_not.1 hnul)
        | cons c a => rfl
      rwa [hdelim] at hplain

/-- The result is what the grammar demands for the text. -/
def Demanded (s : Text) (result : Except Failure (Val R)) : Prop :=
  (∀ d : Document, d.Strict → d.text = s → ∀ v, d.denotes L = some v → result = .ok v) ∧
  ((∀ d : Document, d.Strict → d.text ≠ s) → result = .error .fail)

/-- `json_parse` treats the text as the grammar demands, whatever is behind it in memory, and
does not read what is behind it. -/
def Conforms (s : Text) : Prop :=
  ∀ behind, (Memory.parse L (s ++ behind) s.length ⟨0, s.length⟩).high ≤ s.length ∧
    Demanded L s (Memory.parse L (s ++ behind) s.length ⟨0, s.length⟩).result

/-- The text is no document of the grammar that the source refuses, and if it is none of the
grammar it is no document that the source reads, nor one with a `NUL` behind it. -/
def Regular (s : Text) : Prop :=
  (∀ d : Document, d.Strict → d.text = s → (d.denotes L).isSome → d.plain) ∧
  ((∀ d : Document, d.Strict → d.text ≠ s) → ∀ d : Document,
    (s = d.text ∨ ∃ junk, s = d.text ++ 0 :: junk) → d.plain →
      d.tree.denote L (litMeans L) = none)

lemma Document.reads_eq (d : Document) :
    d.tree.reads (pieces L) d.after.delimits =
      bif d.plain then d.tree.denote L (litMeans L) else none := rfl

lemma parse_text (d : Document) :
    parse L d.text = orFail (d.tree.reads (pieces L) d.after.delimits) := by
  simpa using parse_document L d [] rfl

lemma demanded_parse_iff (s : Text) : Demanded L s (parse L s) ↔ Regular L s := by
  constructor
  · rintro ⟨haccept, hreject⟩
    refine ⟨?_, ?_⟩
    · rintro d hstrict rfl hsome
      obtain ⟨v, hv⟩ := Option.isSome_iff_exists.1 hsome
      have hparse := haccept d hstrict rfl v hv
      rw [parse_text, d.reads_eq] at hparse
      cases hplain : d.plain with
      | true => rfl
      | false =>
        rw [hplain] at hparse
        cases hparse
    · intro hnone d hs hplain
      have hparse : parse L s = orFail (d.tree.reads (pieces L) d.after.delimits) := by
        rcases hs with rfl | ⟨junk, rfl⟩
        · exact parse_text L d
        · exact parse_document L d (0 :: junk) rfl
      rw [hreject hnone, d.reads_eq, hplain] at hparse
      cases hd : d.tree.denote L (litMeans L) with
      | none => rfl
      | some v =>
        rw [hd] at hparse
        cases hparse
  · rintro ⟨hplain, hnone⟩
    refine ⟨?_, ?_⟩
    · rintro d hstrict rfl v hv
      have hp := hplain d hstrict rfl (by rw [hv]; rfl)
      rw [Document.denotes, Tree.denote_eq L d.tree hstrict.2.1] at hv
      rw [parse_text, d.reads_eq, hp, hv]
      rfl
    · intro hout
      cases hparse : parse L s with
      | ok v =>
        obtain ⟨d, rest, hs, hnul, hp, hv⟩ := parse_sound L hparse
        have hend : s = d.text ∨ ∃ junk, s = d.text ++ 0 :: junk := by
          cases rest with
          | nil => exact .inl (by rw [hs, append_nil])
          | cons c junk =>
            change c = 0 at hnul
            rw [hnul] at hs
            exact .inr ⟨junk, hs⟩
        rw [hnone hout d hend hp] at hv
        cases hv
      | error e =>
        cases e with
        | fail => rfl
        | fuel => exact absurd hparse (parse_ne_fuel L s)

def blankArray : Document :=
  ⟨⟨[], by simp⟩, .emptyArray ⟨[32], by simp [isspace]⟩, ⟨[], by simp⟩⟩

lemma blankArray_strict : blankArray.Strict := ⟨rfl, rfl, rfl, ['[', ' ', ']'], rfl⟩

end Parse

end TyLang.Json
