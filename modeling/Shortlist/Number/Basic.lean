import Shortlist.Number.Written
import Shortlist.Number.Numeral

/-!
# Numbers

A number is an integer of any size or a double. Two numbers are compared exactly, whatever their
kinds: both have a position on one line whose unit is the smallest positive double. Arithmetic on
integers stays in the integers where it can; as soon as a double takes part, or a quotient or a
remainder is asked for, the result is a double.
-/

namespace Shortlist

inductive Number
  | int (i : Int)
  | double (x : Binary64)
deriving DecidableEq

namespace Number

/-- A place on the line of numbers, with the two infinities at its ends. -/
inductive Position
  | bottom
  | units (n : Int)
  | top
deriving DecidableEq, Repr

def Position.before : Position → Position → Bool
  | .bottom, .bottom => false
  | .bottom, _ => true
  | .units m, .units n => m < n
  | .units _, .top => true
  | _, _ => false

/-- The place of a number; NaN has none. -/
def position : Number → Option Position
  | .int i => some (.units (i * Binary64.one))
  | .double .nan => none
  | .double (.infinite true) => some .bottom
  | .double (.infinite false) => some .top
  | .double (.finite negative units _) => some (.units (Binary64.signed negative units))

/-- Whether two numbers have the same place. -/
def equal (a b : Number) : Bool :=
  match a.position, b.position with
  | some p, some q => p = q
  | _, _ => false

def less (a b : Number) : Bool :=
  match a.position, b.position with
  | some p, some q => p.before q
  | _, _ => false

def atMost (a b : Number) : Bool := a.less b || a.equal b

/-- What arithmetic on numbers cannot do. -/
inductive ArithmeticFault
  /-- An integer has no finite double near it. -/
  | integerTooLarge
  /-- A quotient of integers has no finite double near it. -/
  | quotientTooLarge
  /-- The remainder of an infinite dividend. -/
  | outsideDomain
deriving DecidableEq, Repr

def ArithmeticFault.message : ArithmeticFault → String
  | .integerTooLarge => "int too large to convert to float"
  | .quotientTooLarge => "integer division result too large for a float"
  | .outsideDomain => "math domain error"

/-- The double nearest to a number; an integer beyond the range has none. -/
def toDouble : Number → Except ArithmeticFault Binary64
  | .double x => .ok x
  | .int i =>
    match Binary64.ofInt i with
    | .finite negative units fits => .ok (.finite negative units fits)
    | _ => .error .integerTooLarge

/-- An operation that is exact on integers and otherwise on doubles. -/
def combine (onInts : Int → Int → Int) (onDoubles : Binary64 → Binary64 → Binary64) :
    Number → Number → Except ArithmeticFault Number
  | .int a, .int b => .ok (.int (onInts a b))
  | a, b => do return .double (onDoubles (← a.toDouble) (← b.toDouble))

def add : Number → Number → Except ArithmeticFault Number := combine (· + ·) Binary64.add

def sub : Number → Number → Except ArithmeticFault Number := combine (· - ·) Binary64.sub

def mul : Number → Number → Except ArithmeticFault Number := combine (· * ·) Binary64.mul

/-- The quotient as a double. That of two integers is rounded once, however large they are. -/
def div : Number → Number → Except ArithmeticFault Number
  | .int a, .int b =>
    match Binary64.ofQuotient a b with
    | .finite negative units fits => .ok (.double (.finite negative units fits))
    | _ => .error .quotientTooLarge
  | a, b => do return .double (Binary64.div (← a.toDouble) (← b.toDouble))

/-- The remainder of the truncated quotient, as a double, of the doubles nearest to both. -/
def rem (a b : Number) : Except ArithmeticFault Number := do
  match ← a.toDouble, ← b.toDouble with
  | .infinite _, .nan => return .double .nan
  | .infinite _, _ => throw .outsideDomain
  | x, y => return .double (Binary64.rem x y)

def neg : Number → Number
  | .int i => .int (-i)
  | .double x => .double x.neg

def isFinite : Number → Bool
  | .int _ => true
  | .double x => x.isFinite

def isZero (a : Number) : Bool := a.equal (.int 0)

/-- The decimal text of an integer, or the shortest text of a double. -/
def written : Number → String
  | .int i => toString i
  | .double x => x.written

/-- Whether an integer has few enough digits to be written; a double always is. -/
def isWritable : Number → Bool
  | .int i => i.natAbs < Nat.pow 10 Numeral.maxDigits
  | .double _ => true

theorem exists_finite_of_toDouble {i : Int} {x : Binary64} (h : (Number.int i).toDouble = .ok x) :
    ∃ negative units fits, x = .finite negative units fits ∧
      Binary64.ofInt i = .finite negative units fits := by
  rw [toDouble] at h
  split at h
  · rename_i negative units fits hfinite
    cases h
    exact ⟨negative, units, fits, rfl, hfinite⟩
  · cases h

theorem isWritable_of_toDouble {i : Int} {x : Binary64} (h : (Number.int i).toDouble = .ok x) :
    (Number.int i).isWritable = true := by
  obtain ⟨negative, units, fits, -, hfinite⟩ := exists_finite_of_toDouble h
  have hlt := Binary64.natAbs_lt_of_ofInt hfinite
  have hdigits : Nat.pow 2 1025 ≤ Nat.pow 10 Numeral.maxDigits := by decide +kernel
  rw [isWritable, decide_eq_true_iff]
  exact Nat.lt_of_lt_of_le hlt hdigits

end Number

end Shortlist
