import TyLang.Lib.OrderedMap

/-!
`json_parse` of `src/json.c` as a function of the text alone, as if a `NUL` stood behind it. The
source reads numbers and keywords through the pointer, so that it is this function only where it
does not come to the end of the text in one of them; `TyLang.Json.Memory` has the source's reads.
The functions that call each other take a number of calls that they may make; what
`parse` gives them is always enough.
-/
namespace TyLang.Json

section Values

abbrev Text := List UInt8

/-- The values that `json_parse` makes, where `R` has the real numbers. -/
inductive Val (R : Type) where
  | nil
  | boolean (b : Bool)
  | integer (z : Int)
  | real (x : R)
  | string (bytes : Text)
  | array (items : List (Val R))
  | dict (entries : List (Text × Val R))

/-- The functions of other libraries that are used. `utf8proc_encode_char` is correct on the
characters; what it does with other numbers is left open. -/
structure Library (R : Type) where
  /-- `strtod`, with nothing if it sets `errno`. -/
  strtod : Text → Option R
  encodeChar : Nat → Text
  encodeChar_eq : ∀ c : Char, encodeChar c.toNat = String.utf8EncodeChar c

/-- A library for which there is one real number. -/
def plainLibrary : Library Unit where
  strtod _ := some ()
  encodeChar n := String.utf8EncodeChar (Char.ofNat n)
  encodeChar_eq c := by rw [Char.ofNat_toNat]

inductive Failure where
  | fail
  | fuel
  deriving DecidableEq, Repr

end Values

section Bytes

def byte (c : Char) : UInt8 := UInt8.ofNat c.toNat

def word (cs : List Char) : Text := cs.map byte

def peek (s : Text) : UInt8 := s.headD 0

def isspace (c : UInt8) : Bool := c = 32 || (9 ≤ c && c ≤ 13)

def isdigit (c : UInt8) : Bool := 48 ≤ c && c ≤ 57

def space (s : Text) : Text := s.dropWhile isspace

/-- `KW_DELIM`; `strchr` finds the `NUL` at the end of its string, too. -/
def kwDelim (c : UInt8) : Bool := [32, 10, byte '}', byte ']', byte ',', 0].contains c

def xtable (c : UInt8) : Nat :=
  if isdigit c then c.toNat - 48
  else if byte 'A' ≤ c && c ≤ byte 'F' then c.toNat - 55
  else if byte 'a' ≤ c && c ≤ byte 'f' then c.toNat - 87
  else 0

def next8x (s : Text) : UInt8 × Text :=
  (UInt8.ofNat (16 * xtable (peek s) + xtable (peek s.tail)), s.tail.tail)

def next16x (s : Text) : Nat × Text :=
  (4096 * xtable (peek s) + 256 * xtable (peek s.tail) + 16 * xtable (peek s.tail.tail) +
    xtable (peek s.tail.tail.tail), s.tail.tail.tail.tail)

end Bytes

section Scalars

variable {R : Type} (L : Library R)

/-- Digits up to the first other character, of which there has to be one. -/
def digits (s : Text) : Option Text :=
  if isdigit (peek s) then some (s.dropWhile isdigit) else none

/-- The rest behind the fraction, and whether there is one. -/
def fraction (s : Text) : Option (Bool × Text) :=
  if peek s = byte '.' then (digits s.tail).map fun s => (true, s) else some (false, s)

def sign (s : Text) : Text := if peek s = byte '-' ∨ peek s = byte '+' then s.tail else s

def exponent (s : Text) : Option (Bool × Text) :=
  if peek s = byte 'e' ∨ peek s = byte 'E' then (digits (sign s.tail)).map fun s => (true, s)
  else some (false, s)

def decimal (ds : Text) : Nat := ds.foldl (fun n d => 10 * n + (d.toNat - 48)) 0

/-- `strtoimax`, with nothing if it sets `errno`. -/
def strtoimax (num : Text) : Option Int :=
  let z : Int := if peek num = byte '-' then -(decimal num.tail : Int) else decimal num
  if -2 ^ 63 ≤ z ∧ z < 2 ^ 63 then some z else none

/-- The number that is read from the characters of it. -/
def convert (integral : Bool) (num : Text) : Option (Val R) :=
  if integral then (strtoimax num).map .integer else (L.strtod num).map .real

/-- `number`, where the text goes on behind the number or ends in a `NUL`. -/
def number (s : Text) : Option (Val R × Text) := do
  let s₁ ← digits (if peek s = byte '-' then s.tail else s)
  let (frac, s₂) ← fraction s₁
  let (exp, s₃) ← exponent s₂
  let v ← convert L (!frac && !exp) (s.take (s.length - s₃.length))
  return (v, s₃)

/-- What `null`, `jtrue` and `jfalse` share, where the text goes on behind the keyword or ends in
a `NUL`. -/
def literal (w : Text) (v : Val R) (s : Text) : Option (Val R × Text) :=
  if s.take w.length ≠ w then none
  else if kwDelim (s.getD w.length 0) then some (v, s.drop w.length)
  else none

def null : Text → Option (Val R × Text) := literal (word ['n', 'u', 'l', 'l']) .nil

def jtrue : Text → Option (Val R × Text) := literal (word ['t', 'r', 'u', 'e']) (.boolean true)

def jfalse : Text → Option (Val R × Text) :=
  literal (word ['f', 'a', 'l', 's', 'e']) (.boolean false)

end Scalars

section Strings

variable {R : Type} (L : Library R)

/-- The escapes for one character. -/
def simpleEscape (c : UInt8) : Option UInt8 :=
  if c = byte 't' then some 9
  else if c = byte 'f' then some 12
  else if c = byte 'n' then some 10
  else if c = byte 'r' then some 13
  else if c = byte 'b' then some 8
  else if c = byte '"' then some (byte '"')
  else if c = byte '/' then some (byte '/')
  else if c = byte '\\' then some (byte '\\')
  else none

/-- `(cp & 0xF800) == 0xD800` -/
def isSurrogate (cp : Nat) : Bool := 0xD800 ≤ cp && cp ≤ 0xDFFF

/-- The code point of two surrogates; the second one may be any number. -/
def combine (hi lo : Nat) : Nat := 0x10000 + (hi - 0xD800) * 1024 + lo - 0xDC00

/-- The characters behind `\u`. -/
def unicodeEscape (s : Text) : Option (Text × Text) :=
  let (cp, s) := next16x s
  if isSurrogate cp then
    if peek s ≠ byte '\\' ∨ peek s.tail ≠ byte 'u' then none
    else
      let (lo, s) := next16x s.tail.tail
      some (L.encodeChar (combine cp lo), s)
  else some (L.encodeChar cp, s)

/-- The bytes for an escape, with its second character. One that is not known stands for the
character behind it. -/
def escape (c : UInt8) (s : Text) : Option (Text × Text) :=
  match simpleEscape c with
  | some b => some ([b], s)
  | none =>
    if c = byte 'x' then some ([(next8x s).1], (next8x s).2)
    else if c = byte 'u' then unicodeEscape L s
    else some ([peek s], s.tail)

/-- One round of the loop of `string`. -/
def piece (s : Text) : Option (Text × Text) :=
  if peek s = byte '\\' then escape L (peek s.tail) s.tail.tail else some ([peek s], s.tail)

/-- The loop of `string`, and the test behind it. -/
def stringLoop : Nat → Text → Text → Except Failure (Text × Text)
  | 0, _, _ => .error .fuel
  | n + 1, s, str =>
    if peek s ≠ 0 ∧ peek s ≠ byte '"' then
      match piece L s with
      | none => .error .fail
      | some (bytes, s) => stringLoop n s (str ++ bytes)
    else if peek s = byte '"' then .ok (str, s.tail)
    else .error .fail

def string (s : Text) : Except Failure (Text × Text) :=
  if peek s ≠ byte '"' then .error .fail else stringLoop L (s.tail.length + 1) s.tail []

end Strings

section Structures

variable {R : Type} (L : Library R)

def orFail {α : Type} : Option α → Except Failure α
  | some a => .ok a
  | none => .error .fail

mutual

def value : Nat → Text → Except Failure (Val R × Text)
  | 0, _ => .error .fuel
  | n + 1, s₀ =>
    let s := space s₀
    if peek s = byte '\x7b' then (objectLoop n s.tail []).map fun r => (.dict r.1, r.2)
    else if peek s = byte '[' then (arrayLoop n s.tail []).map fun r => (.array r.1, r.2)
    else if peek s = byte '"' then (string L s).map fun r => (.string r.1, r.2)
    else if peek s = byte 'n' then orFail (null s)
    else if peek s = byte 't' then orFail (jtrue s)
    else if peek s = byte 'f' then orFail (jfalse s)
    else if peek s = byte '-' ∨ isdigit (peek s) then orFail (number L s)
    else .error .fail

/-- The loop of `array`, and the test behind it. -/
def arrayLoop : Nat → Text → List (Val R) → Except Failure (List (Val R) × Text)
  | 0, _, _ => .error .fuel
  | n + 1, s, items =>
    if peek s ≠ 0 ∧ peek s ≠ byte ']' then
      match value n s with
      | .error e => .error e
      | .ok (v, s₁) =>
        let s := space s₁
        if peek s = byte ']' then arrayLoop n s (items ++ [v])
        else if peek s = byte ',' then arrayLoop n s.tail (items ++ [v])
        else .error .fail
    else if peek s = byte ']' then .ok (items, s.tail)
    else .error .fail

/-- The loop of `object_lol`, and the test behind it. -/
def objectLoop : Nat → Text → List (Text × Val R) → Except Failure (List (Text × Val R) × Text)
  | 0, _, _ => .error .fuel
  | n + 1, s, entries =>
    if peek s ≠ 0 ∧ peek s ≠ byte '\x7d' then
      match string L (space s) with
      | .error e => .error e
      | .ok (key, s₁) =>
        let s := space s₁
        if peek s ≠ byte ':' then .error .fail
        else
          match value n s.tail with
          | .error e => .error e
          | .ok (v, s₂) =>
            let s := space s₂
            let entries := OrderedMap.put entries key v
            if peek s = byte '\x7d' then objectLoop n s entries
            else if peek s = byte ',' then objectLoop n s.tail entries
            else .error .fail
    else if peek s = byte '\x7d' then .ok (entries, s.tail)
    else .error .fail

end

/-- The body of `json_parse`, with an error for each way to its error path. -/
def parse (s : Text) : Except Failure (Val R) :=
  match value L (2 * s.length + 1) s with
  | .error e => .error e
  | .ok (v, rest) => if peek (space rest) ≠ 0 then .error .fail else .ok v

/-- `json_parse`, which returns `nil` for a text that it rejects. -/
def jsonParse (s : Text) : Val R :=
  match parse L s with
  | .error _ => .nil
  | .ok v => v

end Structures

end TyLang.Json
