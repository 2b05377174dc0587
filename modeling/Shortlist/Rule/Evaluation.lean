import Shortlist.Rule.Basic

/-!
# The value of an expression

An expression is evaluated against the values of variables. Operands are not converted: a
connective takes booleans, arithmetic takes numbers, and only two numbers or two texts have an
order. Arithmetic never yields infinity or NaN. Whatever does not fit is a failure, which the
judgement of the rule turns into false.
-/

namespace Shortlist.Rule

/-- Values of variables, in order of assignment; null stands for no value. -/
abbrev Assignment := Entries Value

/-- The value of a variable, unless it is missing or null. -/
def Assignment.value? (assignment : Assignment) (name : String) : Option Value :=
  match Entries.get? assignment name with
  | some .null => none
  | other => other

/-- Why an expression has no value. -/
inductive Failure
  | unknownName (name : String)
  | unassigned (name : String)
  | notABoolean (operator : String) (operand : Value)
  | notANumber (operator : String) (operand : Value)
  | notComparable (left right : Value) (operator : String)
  | divisionByZero (operator : String)
  | arithmetic (operator : String) (fault : Number.ArithmeticFault)
  | notFinite (operator : String)

def Failure.message : Failure → String
  | .unknownName name => "unknown identifier '" ++ name ++ "'"
  | .unassigned name => "variable '" ++ name ++ "' has no value"
  | .notABoolean operator operand =>
    "'" ++ operator ++ "' expects a boolean, got " ++ operand.written
  | .notANumber operator operand =>
    "'" ++ operator ++ "' expects a number, got " ++ operand.written
  | .notComparable left right operator =>
    "cannot order " ++ left.written ++ " and " ++ right.written ++ " with '" ++ operator ++ "'"
  | .divisionByZero operator => "division by zero in '" ++ operator ++ "'"
  | .arithmetic operator fault =>
    "arithmetic fault in '" ++ operator ++ "': " ++ fault.message
  | .notFinite operator => "non-finite result from '" ++ operator ++ "'"

/-- Whether the values that a failure names can be written. -/
def Failure.isWritable : Failure → Bool
  | .notABoolean _ operand => operand.isWritable
  | .notANumber _ operand => operand.isWritable
  | .notComparable left right _ => left.isWritable && right.isWritable
  | _ => true

/-- Why an evaluation stops: a failure of the rule, or a fault. -/
inductive Stop
  | failed (failure : Failure)
  | fault (f : Fault)

/-- The result of a part of an evaluation. -/
abbrev Evaluated := Except Stop

/-- Stops with a failure. It is put into words at once, so a value in it that cannot be written
makes it a fault. -/
def fail {α : Type} (failure : Failure) : Evaluated α :=
  .error (if failure.isWritable then .failed failure else .fault .tooManyDigits)

def requireBoolean (operator : String) : Value → Evaluated Bool
  | .boolean b => .ok b
  | v => fail (.notABoolean operator v)

def requireNumber (operator : String) : Value → Evaluated Number
  | .number n => .ok n
  | v => fail (.notANumber operator v)

/-- Whether two values are equal for a rule: of the same kind, and the same. A list or an object is
equal to itself, even if it holds a NaN, which is not: so it matters whether the two values are
`one` and the same. -/
def equalValues (one : Bool) : Value → Value → Bool
  | .number m, .number n => m.equal n
  | .text s, .text t => s == t
  | .boolean a, .boolean b => a == b
  | .null, .null => true
  | .list xs, .list ys => one || Value.same (.list xs) (.list ys)
  | .object xs, .object ys => one || Value.same (.object xs) (.object ys)
  | _, _ => false

def Comparison.ofNumbers : Comparison → Number → Number → Bool
  | .less, a, b => a.less b
  | .atMost, a, b => a.atMost b
  | .greater, a, b => b.less a
  | .atLeast, a, b => b.atMost a

def Comparison.ofTexts : Comparison → String → String → Bool
  | .less, s, t => s < t
  | .atMost, s, t => !decide (t < s)
  | .greater, s, t => t < s
  | .atLeast, s, t => !decide (s < t)

def compareValues (c : Comparison) : Value → Value → Evaluated Bool
  | .number a, .number b => .ok (c.ofNumbers a b)
  | .text s, .text t => .ok (c.ofTexts s t)
  | a, b => fail (.notComparable a b c.spelling)

def Arithmetic.ofNumbers : Arithmetic → Number → Number → Except Number.ArithmeticFault Number
  | .plus => Number.add
  | .minus => Number.sub
  | .times => Number.mul
  | .over => Number.div
  | .remainder => Number.rem

def Arithmetic.divides : Arithmetic → Bool
  | .over => true
  | .remainder => true
  | _ => false

def calculateNumbers (a : Arithmetic) (m n : Number) : Evaluated Value :=
  if a.divides && n.isZero then fail (.divisionByZero a.spelling)
  else
    match a.ofNumbers m n with
    | .error fault => fail (.arithmetic a.spelling fault)
    | .ok result =>
      if result.isFinite then .ok (.number result) else fail (.notFinite a.spelling)

/-- An operation on two values. The sum of two texts is one after the other. -/
def calculate (a : Arithmetic) (left right : Value) : Evaluated Value :=
  match a, left, right with
  | .plus, .text s, .text t => .ok (.text (s ++ t))
  | a, left, right => do
    let m ← requireNumber a.spelling left
    let n ← requireNumber a.spelling right
    calculateNumbers a m n

/-- A binary operator applied to two values, which may be one and the same. -/
def BinaryOp.apply (op : BinaryOp) (one : Bool) (left right : Value) : Evaluated Value :=
  match op with
  | .equal => .ok (.boolean (equalValues one left right))
  | .unequal => .ok (.boolean (!equalValues one left right))
  | .order c => (compareValues c left right).map .boolean
  | .arithmetic a => calculate a left right

def UnaryOp.apply (op : UnaryOp) (operand : Value) : Evaluated Value :=
  match op with
  | .negation => (requireBoolean op.spelling operand).map fun b => .boolean !b
  | .minus => (requireNumber op.spelling operand).map fun n => .number n.neg
  | .plus => (requireNumber op.spelling operand).map .number

/-- The truth value that a left operand decides for a connective, whatever the right one. -/
def Connective.decides : Connective → Bool → Bool
  | .both, left => !left
  | .either, left => left

/-- The value of an expression. Two operands that are the same expression have one value: only a
name can stand for a list or an object, so it is the same variable then. -/
def Expr.value (assignment : Assignment) (declared : List String) : Expr → Evaluated Value
  | .literal l => .ok l.value
  | .name s =>
    if declared.contains s then
      match assignment.value? s with
      | some v => .ok v
      | none => fail (.unassigned s)
    else fail (.unknownName s)
  | .unary op operand => do
    op.apply (← operand.value assignment declared)
  | .binary op left right => do
    let l ← left.value assignment declared
    let r ← right.value assignment declared
    op.apply (left = right) l r
  | .connect op left right => do
    let l ← requireBoolean op.spelling (← left.value assignment declared)
    if op.decides l then return .boolean l
    else
      let r ← requireBoolean op.spelling (← right.value assignment declared)
      return .boolean r

end Shortlist.Rule
