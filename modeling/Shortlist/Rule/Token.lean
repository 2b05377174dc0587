import Shortlist.Value.Written

/-!
# Tokens of the rule language

A rule is a text over a fixed set of operators, names, numbers, quoted texts and the two booleans.
The words `and`, `or` and `not` are other spellings of operators, and the two words of booleans are
no names either.
-/

namespace Shortlist.Rule

inductive Operator
  | strictEqual
  | strictUnequal
  | equal
  | unequal
  | atMost
  | atLeast
  | both
  | either
  | less
  | greater
  | negation
  | plus
  | minus
  | times
  | over
  | remainder
deriving DecidableEq, Repr

namespace Operator

def spelling : Operator → String
  | .strictEqual => "==="
  | .strictUnequal => "!=="
  | .equal => "=="
  | .unequal => "!="
  | .atMost => "<="
  | .atLeast => ">="
  | .both => "&&"
  | .either => "||"
  | .less => "<"
  | .greater => ">"
  | .negation => "!"
  | .plus => "+"
  | .minus => "-"
  | .times => "*"
  | .over => "/"
  | .remainder => "%"

/-- All operators, those with a longer spelling first, so that the first one that a text starts
with is the longest. -/
def all : List Operator :=
  [.strictEqual, .strictUnequal, .equal, .unequal, .atMost, .atLeast, .both, .either, .less,
   .greater, .negation, .plus, .minus, .times, .over, .remainder]

theorem mem_all (op : Operator) : op ∈ all := by cases op <;> decide

end Operator

inductive Token
  | number (n : Number)
  | text (s : String)
  | boolean (b : Bool)
  | name (s : String)
  | operator (op : Operator)
  | leftParen
  | rightParen
  | finish
deriving DecidableEq

/-- A token as a value: a number, text or boolean is itself, the others are their spelling, and the
end of the text is null. -/
def Token.value : Token → Value
  | .number n => .number n
  | .text s => .text s
  | .boolean b => .boolean b
  | .name s => .text s
  | .operator op => .text op.spelling
  | .leftParen => .text "("
  | .rightParen => .text ")"
  | .finish => .null

/-- A token and the place of its first character. -/
structure Located where
  token : Token
  position : Nat
deriving DecidableEq

/-- The words that are spellings of other tokens. -/
def reserved : Entries Token :=
  [("and", .operator .both), ("or", .operator .either), ("not", .operator .negation),
   ("true", .boolean true), ("false", .boolean false)]

def isReserved (word : String) : Bool := reserved.has word

def Token.ofWord (word : String) : Token := (reserved.get? word).getD (.name word)

end Shortlist.Rule
