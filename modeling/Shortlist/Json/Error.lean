import Shortlist.Fault

/-!
# What is wrong with a JSON text

An error names what was expected or met and the place: line and column, counted from one, and the
number of characters before.
-/

namespace Shortlist.Json

inductive Cause
  | expectedValue
  | expectedName
  | expectedColon
  | expectedComma
  | unterminatedString
  | controlCharacter
  | invalidEscape
  | invalidCodeEscape
  | extraData
  | byteOrderMark
deriving DecidableEq, Repr

def Cause.message : Cause → String
  | .expectedValue => "Expecting value"
  | .expectedName => "Expecting property name enclosed in double quotes"
  | .expectedColon => "Expecting ':' delimiter"
  | .expectedComma => "Expecting ',' delimiter"
  | .unterminatedString => "Unterminated string starting at"
  | .controlCharacter => "Invalid control character at"
  | .invalidEscape => "Invalid \\escape"
  | .invalidCodeEscape => "Invalid \\uXXXX escape"
  | .extraData => "Extra data"
  | .byteOrderMark => "Unexpected UTF-8 BOM (decode using utf-8-sig)"

/-- A cause and the number of characters before it. -/
structure Error where
  cause : Cause
  position : Nat
deriving DecidableEq, Repr

def lineOf (before : List Char) : Nat := before.count '\n' + 1

def columnOf (before : List Char) : Nat := (before.reverse.takeWhile (· != '\n')).length + 1

def Error.message (e : Error) (text : List Char) : String :=
  let before := text.take e.position
  e.cause.message ++ ": line " ++ toString (lineOf before) ++ " column " ++
    toString (columnOf before) ++ " (char " ++ toString e.position ++ ")"

/-- Why a text is not read: it is no JSON, or a fault stops the reading. -/
inductive ReadError
  | invalid (e : Error)
  | fault (f : Fault)
deriving DecidableEq, Repr

end Shortlist.Json
