import Shortlist.Number.Decimal

/-!
# Written doubles

The forms in which a double is shown. A form decides where positional notation ends, whether a
whole number keeps a decimal point, and how many digits are kept; the digits themselves come from
the decimal grid.
-/

namespace Shortlist

/-- How the digits of a decimal are set. -/
structure Layout where
  /-- The first exponent that is written behind an `e`. -/
  positionalBelow : Int
  /-- Whether a whole number in positional notation ends in `.0`. -/
  pointZero : Bool
deriving DecidableEq, Repr

namespace Layout

/-- The shortest form: positional below `10 ^ 16`, always with a point. -/
def shortest : Layout := ⟨16, true⟩

/-- The form with `count` significant digits: positional below `10 ^ count`, without a superfluous
point. -/
def general (count : Nat) : Layout := ⟨count, false⟩

/-- The digits of a number without the zeros at its end. -/
def significantDigits (n : Nat) : List Char :=
  ((Nat.toDigits 10 n).reverse.dropWhile (· == '0')).reverse

/-- An exponent of at least two digits behind its sign. -/
def exponentText (e : Int) : List Char :=
  let digits := Nat.toDigits 10 e.natAbs
  (if e < 0 then '-' else '+') :: (if digits.length < 2 then '0' :: digits else digits)

/-- Digits `d₀ d₁ …` that stand for `d₀.d₁… · 10 ^ e`, set by the layout. Exponents below `-4` are
written behind an `e`. -/
def set (layout : Layout) (digits : List Char) (e : Int) : List Char :=
  if e < -4 ∨ layout.positionalBelow ≤ e then
    match digits with
    | [] => []
    | [first] => first :: 'e' :: exponentText e
    | first :: rest => first :: '.' :: rest ++ 'e' :: exponentText e
  else if e < 0 then
    '0' :: '.' :: List.replicate (e.natAbs - 1) '0' ++ digits
  else
    let whole := e.toNat + 1
    let front := digits.take whole ++ List.replicate (whole - digits.length) '0'
    match digits.drop whole with
    | [] => if layout.pointZero then front ++ ['.', '0'] else front
    | rest => front ++ '.' :: rest

/-- A decimal set by the layout; zero has the exponent zero. -/
def write (layout : Layout) (x : Decimal) : List Char :=
  if x.digits = 0 then layout.set ['0'] 0
  else
    layout.set (significantDigits x.digits) (x.exponent + (Decimal.digitCount x.digits : Int) - 1)

end Layout

namespace Binary64

def signText (negative : Bool) : List Char := if negative then ['-'] else []

/-- A double whose finite magnitudes are written by `magnitude`. -/
def writeWith (magnitude : Nat → List Char) : Binary64 → String
  | .nan => "nan"
  | .infinite negative => String.ofList (signText negative ++ ['i', 'n', 'f'])
  | .finite negative units _ => String.ofList (signText negative ++ magnitude units)

/-- The shortest text that reads back as the double. -/
def written : Binary64 → String :=
  writeWith fun units =>
    Layout.shortest.write (if units = 0 then ⟨0, 0⟩ else Decimal.shortest units)

/-- At most `count` significant digits, without zeros at the end. -/
def general (count : Nat) : Binary64 → String :=
  writeWith fun units =>
    (Layout.general count).write
      (if units = 0 then ⟨0, 0⟩ else Decimal.significant units one count)

/-- Exactly `places` decimals. -/
def fixedMagnitude (places units : Nat) : List Char :=
  let digits := Nat.toDigits 10 (Decimal.scaled units one places)
  let padded := List.replicate (places + 1 - digits.length) '0' ++ digits
  let whole := padded.take (padded.length - places)
  if places = 0 then whole else whole ++ '.' :: padded.drop (padded.length - places)

/-- A share of one as a percentage with `places` decimals. The product with one hundred is a
double, so the decimals are those of that double. -/
def percent (places : Nat) (x : Binary64) : String :=
  writeWith (fixedMagnitude places) (mul x (ofInt 100)) ++ "%"

end Binary64

end Shortlist
