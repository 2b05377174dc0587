import Shortlist.Fault
import Shortlist.Number.Decimal
import Shortlist.Text.Blank
import Shortlist.Text.Digit

/-!
# Numerals

A numeral may stand between blank characters, may use the decimal digits of any script, and may
have single underscores between its digits. An integer has at most 4300 digits; a decimal is
rounded once to the nearest double.
-/

namespace Shortlist.Numeral

/-- The most digits an integer is read or written with. -/
def maxDigits : Nat := 4300

/-- The characters that may surround a numeral: the blank ones but for the four ASCII separators. -/
def isPadding (c : Char) : Bool :=
  Text.isBlank c && !(28 ≤ c.toNat && c.toNat ≤ 31)

def asciiDigit (n : Nat) : Char := Char.ofNat (48 + n)

/-- A character of a numeral in ASCII; none of the rest belongs to one. -/
def toAscii (c : Char) : Char :=
  match Text.decimalDigit? c with
  | some n => asciiDigit n
  | none => if c.toNat < 128 then c else '?'

/-- The characters without underscores, each of which has to stand between two digits. -/
def dropUnderscores : (afterDigit : Bool) → List Char → Option (List Char)
  | _, [] => some []
  | afterDigit, '_' :: rest =>
    match rest with
    | c :: _ => if afterDigit && c.isDigit then dropUnderscores false rest else none
    | [] => none
  | _, c :: rest => (dropUnderscores c.isDigit rest).map (c :: ·)

/-- The characters of a numeral in plain ASCII, without padding and underscores. -/
def plain (s : String) : Option (List Char) :=
  dropUnderscores false ((Text.trimList isPadding s.toList).map toAscii)

/-- A sign, or none, and what follows it. -/
def splitSign : List Char → Bool × List Char
  | '-' :: rest => (true, rest)
  | '+' :: rest => (false, rest)
  | rest => (false, rest)

def value (digits : List Char) : Nat :=
  digits.foldl (fun n c => 10 * n + (c.toNat - 48)) 0

def integer? (s : String) : Option Int := do
  let (negative, digits) := splitSign (← plain s)
  if digits.isEmpty || !digits.all Char.isDigit || maxDigits < digits.length then none
  else some (if negative then -(value digits : Int) else value digits)

/-- The exponent that stands after the digits of a decimal; nothing is the exponent zero. -/
def exponent? : List Char → Option Int
  | [] => some 0
  | c :: rest =>
    if c = 'e' ∨ c = 'E' then
      let (negative, digits) := splitSign rest
      if digits.isEmpty || !digits.all Char.isDigit then none
      else some (if negative then -(value digits : Int) else value digits)
    else none

/-- The digits before and behind the point of a decimal, and what follows them. -/
def splitPoint (cs : List Char) : List Char × List Char × List Char :=
  let whole := cs.takeWhile Char.isDigit
  match cs.dropWhile Char.isDigit with
  | '.' :: rest => (whole, rest.takeWhile Char.isDigit, rest.dropWhile Char.isDigit)
  | rest => (whole, [], rest)

/-- The decimal that plain characters without a sign spell. -/
def decimal? (cs : List Char) : Option Decimal := do
  let (whole, fraction, rest) := splitPoint cs
  if whole.isEmpty && fraction.isEmpty then none
  else
    let exponent ← exponent? rest
    some ⟨value (whole ++ fraction), exponent - fraction.length⟩

/-- The double that a text spells, one of the words for infinity and NaN included. -/
def double? (s : String) : Option Binary64 := do
  let (negative, cs) := splitSign (← plain s)
  match String.ofList (cs.map Char.toLower) with
  | "inf" => some (.infinite negative)
  | "infinity" => some (.infinite negative)
  | "nan" => some .nan
  | _ => (decimal? cs).map (Decimal.toBinary64 negative)

end Shortlist.Numeral
