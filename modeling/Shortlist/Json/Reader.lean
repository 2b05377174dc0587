import Shortlist.Json.Error
import Shortlist.Value.Basic

/-!
# Reading JSON

A JSON text is read from the left. A trouble is noted with the characters that are left where it
was met; their number gives the place. Beside standard JSON the words `NaN`, `Infinity` and
`-Infinity` are numbers. A number with a fraction or an exponent is a double, any other an integer.
Of entries with the same name the last gives the value, at the place of the first. Brackets inside
each other are read up to a bound, and a text that goes beyond it is a fault.
-/

namespace Shortlist.Json

/-- A trouble, with the number of characters left where it was met. -/
inductive Trouble
  | invalid (cause : Cause) (left : Nat)
  | fault (f : Fault)

/-- Reads something off the front of characters. -/
abbrev Read (α : Type) := Except Trouble (α × List Char)

def refuse {α : Type} (cause : Cause) (left : List Char) : Read α :=
  .error (.invalid cause left.length)

/-- The blank characters of JSON. -/
def isBlank (c : Char) : Bool := c == ' ' || c == '\t' || c == '\n' || c == '\r'

def skipBlank (cs : List Char) : List Char := cs.dropWhile isBlank

/-- The character that a letter behind a backslash stands for. -/
def unescape? : Char → Option Char
  | '"' => some '"'
  | '\\' => some '\\'
  | '/' => some '/'
  | 'b' => some '\x08'
  | 'f' => some '\x0c'
  | 'n' => some '\n'
  | 'r' => some '\r'
  | 't' => some '\t'
  | _ => none

def hexValue? (c : Char) : Option Nat :=
  if c.isDigit then some (c.toNat - 48)
  else if 'a' ≤ c && c ≤ 'f' then some (c.toNat - 87)
  else if 'A' ≤ c && c ≤ 'F' then some (c.toNat - 55)
  else none

/-- The number of four hexadecimal digits at the front. -/
def code? : List Char → Option Nat
  | a :: b :: c :: d :: _ => do
    return ((← hexValue? a) * 16 + (← hexValue? b)) * 256 + (← hexValue? c) * 16 + (← hexValue? d)
  | _ => none

/-- Whether a code is the first half of a pair. -/
def isHighHalf (code : Nat) : Bool := 0xd800 ≤ code && code ≤ 0xdbff

/-- Whether a code is the second half of a pair. -/
def isLowHalf (code : Nat) : Bool := 0xdc00 ≤ code && code ≤ 0xdfff

/-- The character of a code; half of a pair on its own becomes the replacement character. -/
def charOf (code : Nat) : Char :=
  if isHighHalf code || isLowHalf code then '\ufffd' else Char.ofNat code

/-- The characters of codes; two halves in a row are one character. -/
def joinHalves : List Nat → List Char
  | [] => []
  | [code] => [charOf code]
  | high :: low :: rest =>
    if isHighHalf high && isLowHalf low then
      Char.ofNat (0x10000 + (high - 0xd800) * 0x400 + (low - 0xdc00)) :: joinHalves rest
    else charOf high :: joinHalves (low :: rest)

/-- One more code in front of those that are read. -/
def consCode (code : Nat) : Read (List Nat) → Read (List Nat) :=
  Except.map fun (codes, rest) => (code :: codes, rest)

/-- The codes up to the closing quote, the first `skip` characters aside. A string that is not
closed is refused where it opened. -/
def codes (opening : List Char) : (skip : Nat) → List Char → Read (List Nat)
  | _, [] => refuse .unterminatedString opening
  | skip + 1, _ :: rest => codes opening skip rest
  | 0, c :: rest =>
    if c = '"' then .ok ([], rest)
    else if c = '\\' then
      match rest with
      | [] => refuse .unterminatedString opening
      | letter :: more =>
        if letter = 'u' then
          match code? more with
          | some code =>
            if (more.drop 4).isEmpty then refuse .invalidCodeEscape rest
            else consCode code (codes opening 5 rest)
          | none => refuse .invalidCodeEscape rest
        else
          match unescape? letter with
          | some meant => consCode meant.toNat (codes opening 1 rest)
          | none => refuse .invalidEscape (c :: rest)
    else if c.toNat < 32 then refuse .controlCharacter (c :: rest)
    else consCode c.toNat (codes opening 0 rest)

def string (opening : List Char) : Read String :=
  (codes opening 0 opening.tail).map fun (codes, rest) =>
    (String.ofList (joinHalves codes), rest)

/-- The digits of a whole number at the front: a zero, or digits that do not start with one. -/
def wholeDigits : List Char → List Char
  | '0' :: _ => ['0']
  | cs => cs.takeWhile Char.isDigit

/-- The digits behind a point at the front. -/
def fractionDigits : List Char → List Char
  | '.' :: rest => rest.takeWhile Char.isDigit
  | _ => []

/-- The exponent at the front and the number of its characters: a letter, perhaps a sign, and
digits. -/
def exponent? : List Char → Option (Int × Nat)
  | c :: rest =>
    if c = 'e' ∨ c = 'E' then
      let (negative, unsigned) := Numeral.splitSign rest
      let digits := unsigned.takeWhile Char.isDigit
      if digits.isEmpty then none
      else
        let value : Int := Numeral.value digits
        some (if negative then -value else value,
          1 + (rest.length - unsigned.length) + digits.length)
    else none
  | [] => none

def number (cs : List Char) : Read Number :=
  let negative := cs.head? = some '-'
  let unsigned := if negative then cs.tail else cs
  let whole := wholeDigits unsigned
  let afterWhole := unsigned.drop whole.length
  let fraction := fractionDigits afterWhole
  let afterFraction :=
    if fraction.isEmpty then afterWhole else afterWhole.drop (fraction.length + 1)
  if whole.isEmpty then refuse .expectedValue cs
  else
    match exponent? afterFraction with
    | some (e, width) =>
      .ok (.double (Decimal.toBinary64 negative
        ⟨Numeral.value (whole ++ fraction), e - fraction.length⟩), afterFraction.drop width)
    | none =>
      if !fraction.isEmpty then
        .ok (.double (Decimal.toBinary64 negative
          ⟨Numeral.value (whole ++ fraction), -(fraction.length : Int)⟩), afterFraction)
      else if Numeral.maxDigits < whole.length then .error (.fault .tooManyDigits)
      else
        let value : Int := Numeral.value whole
        .ok (.int (if negative then -value else value), afterFraction)

def words : List (String × Value) :=
  [("null", .null), ("true", .boolean true), ("false", .boolean false), ("NaN", .double .nan),
   ("Infinity", .double (.infinite false)), ("-Infinity", .double (.infinite true))]

def scalar (cs : List Char) : Read Value :=
  match words.find? fun word => word.1.toList.isPrefixOf cs with
  | some (word, v) => .ok (v, cs.drop word.length)
  | none => (number cs).map fun (n, rest) => (.number n, rest)

/-- The most brackets inside each other. This stands for the recursion limit of the interpreter that
reads a file; how much of the limit is left for brackets depends on the caller. Only reading is
bounded: a nested value is put in words at any depth. -/
def maxNesting : Nat := 990

mutual

/-- The value at the front, with room for a number of brackets inside each other. -/
def value (room : Nat) : (fuel : Nat) → List Char → Except Trouble (Value × List Char)
  | 0, cs => refuse .expectedValue cs
  | fuel + 1, cs =>
    match cs with
    | '"' :: _ => (string cs).map fun (s, rest) => (.text s, rest)
    | '[' :: rest =>
      match room with
      | 0 => .error (.fault .nestedTooDeeply)
      | room + 1 =>
        match skipBlank rest with
        | ']' :: rest => .ok (.list [], rest)
        | rest => (items room fuel rest).map fun (found, rest) => (.list found, rest)
    | '\x7b' :: rest =>
      match room with
      | 0 => .error (.fault .nestedTooDeeply)
      | room + 1 =>
        match skipBlank rest with
        | '\x7d' :: rest => .ok (.object [], rest)
        | rest =>
          (members room fuel rest).map fun (found, rest) =>
            (.object (Entries.ofList found), rest)
    | cs => scalar cs

def items (room : Nat) : (fuel : Nat) → List Char → Except Trouble (List Value × List Char)
  | 0, cs => refuse .expectedValue cs
  | fuel + 1, cs => do
    let (item, rest) ← value room fuel cs
    match skipBlank rest with
    | ']' :: rest => return ([item], rest)
    | ',' :: rest =>
      let (others, rest) ← items room fuel (skipBlank rest)
      return (item :: others, rest)
    | rest => refuse .expectedComma rest

def members (room : Nat) : (fuel : Nat) → List Char →
    Except Trouble (List (String × Value) × List Char)
  | 0, cs => refuse .expectedName cs
  | fuel + 1, cs =>
    match cs with
    | '"' :: _ => do
      let (name, rest) ← string cs
      match skipBlank rest with
      | ':' :: rest =>
        let (found, rest) ← value room fuel (skipBlank rest)
        match skipBlank rest with
        | '\x7d' :: rest => return ([(name, found)], rest)
        | ',' :: rest =>
          let (others, rest) ← members room fuel (skipBlank rest)
          return ((name, found) :: others, rest)
        | rest => refuse .expectedComma rest
      | rest => refuse .expectedColon rest
    | cs => refuse .expectedName cs

end

/-- The value of a whole text. A value and a bracket before it each take one step, so two steps for
a character are enough. -/
def document (cs : List Char) : Except Trouble Value := do
  if cs.head? = some '\ufeff' then throw (.invalid .byteOrderMark cs.length)
  let (found, rest) ← value maxNesting (2 * cs.length + 2) (skipBlank cs)
  match skipBlank rest with
  | [] => return found
  | rest => throw (.invalid .extraData rest.length)

def read (text : String) : Except ReadError Value :=
  let cs := text.toList
  (document cs).mapError fun
    | .invalid cause left => .invalid ⟨cause, cs.length - left⟩
    | .fault f => .fault f

end Shortlist.Json
