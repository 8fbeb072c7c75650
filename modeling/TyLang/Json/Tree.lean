import TyLang.Json.Parse

/-!
The texts that the functions of `src/json.c` read to their end, as trees that have every
blank and every comma of the text. A tree has no texts that are not read, apart from two
kinds that the source refuses: blanks between the brackets of an empty array or object, and
`null`, `true` or `false` before a blank that is no space and no newline. `value_text` says
what is read from the text of a tree.
-/
namespace TyLang.Json

section Lexemes

/-- Characters that `space` skips. -/
abbrev Blank := { b : Text // ∀ c ∈ b, isspace c = true }

structure Digits where
  bytes : Text
  ne : bytes ≠ []
  all : ∀ d ∈ bytes, isdigit d

structure Exponent where
  upper : Bool
  sign : Option Bool
  digits : Digits

structure Num where
  minus : Bool
  int : Digits
  frac : Option Digits
  exp : Option Exponent

def fracText : Option Digits → Text
  | none => []
  | some ds => byte '.' :: ds.bytes

def signText : Option Bool → Text
  | none => []
  | some true => [byte '-']
  | some false => [byte '+']

def expText : Option Exponent → Text
  | none => []
  | some e => (if e.upper then byte 'E' else byte 'e') :: (signText e.sign ++ e.digits.bytes)

def Num.text (x : Num) : Text :=
  (if x.minus then [byte '-'] else []) ++ (x.int.bytes ++ (fracText x.frac ++ expText x.exp))

def Num.integral (x : Num) : Bool := x.frac.isNone && x.exp.isNone

inductive Word where
  | null
  | jtrue
  | jfalse
  deriving DecidableEq

def Word.text : Word → Text
  | .null => word ['n', 'u', 'l', 'l']
  | .jtrue => word ['t', 'r', 'u', 'e']
  | .jfalse => word ['f', 'a', 'l', 's', 'e']

def Word.val {R : Type} : Word → Val R
  | .null => .nil
  | .jtrue => .boolean true
  | .jfalse => .boolean false

/-- A kind of string literals, each of which is read to its end whatever is behind it, or is
refused. The first byte may be `NUL`, for a literal whose quote was lost. -/
structure Literals {R : Type} (L : Library R) where
  Lit : Type
  text : Lit → Text
  means : Lit → Option Text
  begins : ∀ l, peek (text l) = byte '"' ∨ peek (text l) = 0 ∧ text l ≠ []
  reads : ∀ l rest, string L (text l ++ rest) = orFail ((means l).map fun w => (w, rest))

end Lexemes

section Trees

mutual

inductive Tree (Lit : Type) where
  | word (w : Word)
  | num (x : Num)
  | str (l : Lit)
  | emptyArray (inside : Blank)
  | array (items : Items Lit) (comma : Bool)
  | emptyObject (inside : Blank)
  | object (members : Members Lit) (comma : Bool)

inductive Items (Lit : Type) where
  | one (before : Blank) (t : Tree Lit) (after : Blank)
  | more (before : Blank) (t : Tree Lit) (after : Blank) (rest : Items Lit)

inductive Members (Lit : Type) where
  | one (before : Blank) (key : Lit) (colon : Blank) (inside : Blank) (t : Tree Lit)
      (after : Blank)
  | more (before : Blank) (key : Lit) (colon : Blank) (inside : Blank) (t : Tree Lit)
      (after : Blank) (rest : Members Lit)

end

def commaText (comma : Bool) : Text := if comma then [byte ','] else []

section Text

variable {Lit : Type} (text : Lit → Text)

mutual

def Tree.text : Tree Lit → Text
  | .word w => w.text
  | .num x => x.text
  | .str l => text l
  | .emptyArray b => byte '[' :: (b.1 ++ [byte ']'])
  | .array is comma => byte '[' :: (is.text ++ (commaText comma ++ [byte ']']))
  | .emptyObject b => byte '\x7b' :: (b.1 ++ [byte '\x7d'])
  | .object ms comma => byte '\x7b' :: (ms.text ++ (commaText comma ++ [byte '\x7d']))

def Items.text : Items Lit → Text
  | .one b t a => b.1 ++ (t.text ++ a.1)
  | .more b t a is => b.1 ++ (t.text ++ (a.1 ++ byte ',' :: is.text))

def Members.text : Members Lit → Text
  | .one b k c i t a => b.1 ++ (text k ++ (c.1 ++ byte ':' :: (i.1 ++ (t.text ++ a.1))))
  | .more b k c i t a ms =>
    b.1 ++ (text k ++ (c.1 ++ byte ':' :: (i.1 ++ (t.text ++ (a.1 ++ byte ',' :: ms.text)))))

end

end Text

/-- A word may stand before this blank. -/
def Blank.delimits (b : Blank) : Bool := kwDelim (b.1.headD 0)

mutual

/-- There is nothing that the source refuses without need, where the character behind the
tree delimits a word or not. -/
def Tree.plain {Lit : Type} : Tree Lit → Bool → Bool
  | .word _, d => d
  | .num _, _ => true
  | .str _, _ => true
  | .emptyArray b, _ => b.1.isEmpty
  | .array is _, _ => is.plain
  | .emptyObject b, _ => b.1.isEmpty
  | .object ms _, _ => ms.plain

def Items.plain {Lit : Type} : Items Lit → Bool
  | .one _ t a => t.plain (Blank.delimits a)
  | .more _ t a is => t.plain (Blank.delimits a) && is.plain

def Members.plain {Lit : Type} : Members Lit → Bool
  | .one _ _ _ _ t a => t.plain (Blank.delimits a)
  | .more _ _ _ _ t a ms => t.plain (Blank.delimits a) && ms.plain

end

section Denote

variable {R Lit : Type} (L : Library R) (means : Lit → Option Text)

/-- The entries of a dict for the members in their order. -/
def dictOf (entries : List (Text × Val R)) : List (Text × Val R) :=
  entries.foldl (fun d e => OrderedMap.put d e.1 e.2) []

mutual

/-- The value of a tree. There is none if a number is out of range. -/
def Tree.denote : Tree Lit → Option (Val R)
  | .word w => some w.val
  | .num x => convert L x.integral x.text
  | .str l => (means l).map .string
  | .emptyArray _ => some (.array [])
  | .array is _ => is.denote.map .array
  | .emptyObject _ => some (.dict [])
  | .object ms _ => ms.denote.map fun es => .dict (dictOf es)

def Items.denote : Items Lit → Option (List (Val R))
  | .one _ t _ => t.denote.map fun v => [v]
  | .more _ t _ is => t.denote.bind fun v => is.denote.map fun vs => v :: vs

def Members.denote : Members Lit → Option (List (Text × Val R))
  | .one _ k _ _ t _ => (means k).bind fun key => t.denote.map fun v => [(key, v)]
  | .more _ k _ _ t _ ms => (means k).bind fun key => t.denote.bind fun v =>
    ms.denote.map fun es => (key, v) :: es

end

end Denote

end Trees

end TyLang.Json
