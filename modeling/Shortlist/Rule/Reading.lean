import Shortlist.Rule.Token

/-!
# What is wrong with the text of a rule

A rule that cannot be read is reported with its text and, where there is one, the place of the
trouble. A numeral that cannot be read at all is a fault and no such report.
-/

namespace Shortlist.Rule

/-- Why a text is no rule. -/
inductive Malformation
  /-- The rule is no text. -/
  | notText
  | malformedNumber (literal : String)
  | unterminatedText
  | unexpectedCharacter (c : Char)
  | tooManyTokens
  | empty
  | unexpectedToken (token : Token)
  | tooDeep
  | missingParen
  | unexpectedEnd
deriving DecidableEq

/-- The most tokens of a rule, the end included. -/
def maxTokens : Nat := 512

/-- How deep parentheses and operators before an operand may nest. -/
def maxDepth : Nat := 32

def Malformation.message : Malformation → String
  | .notText => "expression must be text"
  | .malformedNumber literal => "malformed number '" ++ literal ++ "'"
  | .unterminatedText => "unterminated string literal"
  | .unexpectedCharacter c => "unexpected character " ++ Text.quoted (String.singleton c)
  | .tooManyTokens => "expression is longer than " ++ toString maxTokens ++ " tokens"
  | .empty => "empty expression"
  | .unexpectedToken token => "unexpected token " ++ token.value.written
  | .tooDeep => "expression is nested deeper than " ++ toString maxDepth ++ " levels"
  | .missingParen => "expected ')'"
  | .unexpectedEnd => "unexpected end of expression"

/-- A malformation, the place where it was met, if it has one, and the text it was met in. -/
structure SyntaxError where
  cause : Malformation
  position : Option Nat
  text : String
deriving DecidableEq

def SyntaxError.message (e : SyntaxError) : String :=
  let place := match e.position with
    | some position => " at position " ++ toString position
    | none => ""
  e.cause.message ++ place ++ " in expression: " ++ Text.quoted e.text

/-- Why a rule is not read: its text is malformed, or a fault stops the reading. -/
inductive ReadError
  | malformed (e : SyntaxError)
  | fault (f : Fault)
deriving DecidableEq

/-- A trouble inside a text: a malformation at a place, or a fault. -/
inductive Trouble
  | malformed (cause : Malformation) (position : Option Nat)
  | fault (f : Fault)
deriving DecidableEq

def Trouble.inText (text : String) : Trouble → ReadError
  | .malformed cause position => .malformed ⟨cause, position, text⟩
  | .fault f => .fault f

end Shortlist.Rule
