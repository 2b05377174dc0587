import Shortlist.Number.Binary64

/-!
# Decimal digits of a quotient

A positive quotient of two natural numbers is written with a given number of significant digits, or
with a given number of decimals, by one rounding on the decimal grid. The shortest decimal of a
double is the first that reads back as that double, over grids of one, two, … seventeen digits;
only the two neighbours of the value on a grid can be nearest to it, and of two that read back the
nearer is taken.
-/

namespace Shortlist

/-- `digits · 10 ^ exponent`. -/
structure Decimal where
  digits : Nat
  exponent : Int
deriving DecidableEq, Repr

namespace Decimal

/-- How many decimal digits a natural number has; zero has one. -/
def digitCount (n : Nat) : Nat := (Nat.toDigits 10 n).length

/-- The `e` with `10 ^ e ≤ p / d < 10 ^ (e + 1)`, for a positive quotient. -/
def magnitude (p d : Nat) : Int :=
  if d ≤ p then (digitCount (p / d) : Int) - 1 else -(digitCount ((d - 1) / p) : Int)

/-- A quotient multiplied by a power of ten, as a quotient. -/
def shift (p d : Nat) (places : Int) : Nat × Nat :=
  if places < 0 then (p, d * Nat.pow 10 places.natAbs) else (p * Nat.pow 10 places.natAbs, d)

/-- The integer nearest to `p / d · 10 ^ places`. -/
def scaled (p d : Nat) (places : Int) : Nat :=
  let (q, e) := shift p d places
  Nearest.divide q e

/-- A positive quotient rounded to `count` significant digits. -/
def significant (p d count : Nat) : Decimal :=
  let places := (count : Int) - 1 - magnitude p d
  ⟨scaled p d places, -places⟩

/-- The neighbour of `p / d` on the integers that is not the nearest one. -/
def otherNeighbour (p d : Nat) : Nat :=
  if Nearest.divide p d = p / d then p / d + 1 else p / d

/-- The double nearest to a decimal. A decimal far outside the range is not computed: above
`10 ^ 400` it is infinite, below `10 ^ (-400)` it is zero. A number below `2 ^ (b + 1)` has at most
`b / 3 + 1` digits. -/
def toBinary64 (negative : Bool) (x : Decimal) : Binary64 :=
  if x.digits = 0 then .round negative 0 1
  else if 400 < x.exponent then .infinite negative
  else if x.exponent + (x.digits.log2 / 3 + 1) < -400 then .round negative 0 1
  else
    let (p, d) := shift x.digits 1 x.exponent
    .round negative (p * Binary64.one) d

/-- The decimals on the grid of `count` significant digits beside a number of units, the nearer
first. -/
def candidates (units count : Nat) : List Decimal :=
  let places := (count : Int) - 1 - magnitude units Binary64.one
  let (p, d) := shift units Binary64.one places
  [⟨Nearest.divide p d, -places⟩, ⟨otherNeighbour p d, -places⟩]

def readsAs (units : Nat) (x : Decimal) : Bool :=
  match x.toBinary64 false with
  | .finite false n _ => n = units
  | _ => false

/-- The first decimal that reads back as a positive number of units, from grids of `count`
significant digits on, on at most `more` further grids. -/
def shortestFrom (units : Nat) : (more count : Nat) → Decimal
  | 0, count => significant units Binary64.one count
  | more + 1, count =>
    match (candidates units count).find? (readsAs units) with
    | some x => x
    | none => shortestFrom units more (count + 1)

/-- The shortest decimal that reads back as a positive number of units. -/
def shortest (units : Nat) : Decimal := shortestFrom units 16 1

end Decimal

end Shortlist
