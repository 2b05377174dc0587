import Shortlist.Rule.Token

/-!
# Expressions

The tree of a rule. The operators keep apart what they do with their operands: a connective looks
at its right operand only when it has to, a binary operator always looks at both.
-/

namespace Shortlist.Rule

/-- The operators that join two truth values. -/
inductive Connective
  | both
  | either
deriving DecidableEq, Repr

inductive UnaryOp
  | negation
  | minus
  | plus
deriving DecidableEq, Repr

inductive Comparison
  | less
  | atMost
  | greater
  | atLeast
deriving DecidableEq, Repr

inductive Arithmetic
  | plus
  | minus
  | times
  | over
  | remainder
deriving DecidableEq, Repr

/-- The operators that need both operands. -/
inductive BinaryOp
  | equal
  | unequal
  | order (c : Comparison)
  | arithmetic (a : Arithmetic)
deriving DecidableEq, Repr

def Connective.spelling : Connective → String
  | .both => "&&"
  | .either => "||"

def UnaryOp.spelling : UnaryOp → String
  | .negation => "!"
  | .minus => "-"
  | .plus => "+"

def Comparison.spelling : Comparison → String
  | .less => "<"
  | .atMost => "<="
  | .greater => ">"
  | .atLeast => ">="

def Arithmetic.spelling : Arithmetic → String
  | .plus => "+"
  | .minus => "-"
  | .times => "*"
  | .over => "/"
  | .remainder => "%"

def BinaryOp.spelling : BinaryOp → String
  | .equal => "=="
  | .unequal => "!="
  | .order c => c.spelling
  | .arithmetic a => a.spelling

inductive Literal
  | number (n : Number)
  | text (s : String)
  | boolean (b : Bool)
deriving DecidableEq

def Literal.value : Literal → Value
  | .number n => .number n
  | .text s => .text s
  | .boolean b => .boolean b

inductive Expr
  | literal (l : Literal)
  | name (s : String)
  | unary (op : UnaryOp) (operand : Expr)
  | binary (op : BinaryOp) (left right : Expr)
  | connect (op : Connective) (left right : Expr)
deriving DecidableEq

end Shortlist.Rule
