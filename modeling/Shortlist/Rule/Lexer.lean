import Shortlist.Rule.Reading
import Shortlist.Text.Letter

/-!
# Reading tokens

At each place of a text that is not blank the first character decides what kind of token starts
there; the token takes as many characters as its kind allows. The tokens of a text cover all of it
but blank characters, and the end of the text is the last token.
-/

namespace Shortlist.Rule.Lexer

open Shortlist.Text

def isNumeric (c : Char) : Bool := isDigit c || c == '.'

/-- Whether a numeral starts with a character, given the characters behind it. -/
def startsNumeral (c : Char) (rest : List Char) : Bool :=
  isDigit c || (c == '.' && (rest.head?.map isDigit).getD false)

/-- The value of a numeral: a double if it holds a point, otherwise an integer. -/
def numeralValue (literal : List Char) : Except Fault Number :=
  if literal.contains '.' then
    match Numeral.double? (String.ofList literal) with
    | some x => .ok (.double x)
    | none => .error .ornamentalDigit
  else if !literal.all fun c => (decimalDigit? c).isSome then .error .ornamentalDigit
  else
    match Numeral.integer? (String.ofList literal) with
    | some i => .ok (.int i)
    | none => .error .tooManyDigits

/-- The token of a numeral and the number of its characters. The numeral has at most one point and
no word character behind it. -/
def scanNumeral (position : Nat) (cs : List Char) : Except Trouble (Token × Nat) :=
  let literal := cs.takeWhile isNumeric
  if 1 < literal.count '.' then
    .error (.malformed (.malformedNumber (String.ofList literal)) position)
  else
    match cs.dropWhile isNumeric with
    | next :: _ =>
      if startsWord next then
        .error (.malformed (.malformedNumber (String.ofList (literal ++ [next]))) position)
      else (numeralValue literal).map (.number ·, literal.length) |>.mapError .fault
    | [] => (numeralValue literal).map (.number ·, literal.length) |>.mapError .fault

/-- The character that a backslash and a character stand for. -/
def unescape (c : Char) : Char :=
  if c = 'n' then '\n' else if c = 't' then '\t' else c

/-- The characters up to the closing quote and how many were read, the quote included; none if the
quote is missing. -/
def scanQuoted (quote : Char) : List Char → Option (List Char × Nat)
  | [] => none
  | c :: rest =>
    if c = '\\' then
      match rest with
      | [] => none
      | escaped :: rest =>
        (scanQuoted quote rest).map fun (content, width) => (unescape escaped :: content, width + 2)
    else if c = quote then some ([], 1)
    else (scanQuoted quote rest).map fun (content, width) => (c :: content, width + 1)

def scanOperator (cs : List Char) : Option Operator :=
  Operator.all.find? fun op => op.spelling.toList.isPrefixOf cs

/-- The token that starts with a character that is not blank, and the number of its characters. -/
def scan (position : Nat) (c : Char) (rest : List Char) : Except Trouble (Token × Nat) :=
  if startsNumeral c rest then scanNumeral position (c :: rest)
  else if startsWord c then
    let word := (c :: rest).takeWhile continuesWord
    .ok (Token.ofWord (String.ofList word), word.length)
  else if c = singleQuote || c = doubleQuote then
    match scanQuoted c rest with
    | some (content, width) => .ok (.text (String.ofList content), width + 1)
    | none => .error (.malformed .unterminatedText position)
  else if c = '(' then .ok (.leftParen, 1)
  else if c = ')' then .ok (.rightParen, 1)
  else
    match scanOperator (c :: rest) with
    | some op => .ok (.operator op, op.spelling.length)
    | none => .error (.malformed (.unexpectedCharacter c) position)

/-- The tokens of the characters from a place on, the first `skip` of which belong to the token
before. -/
def tokensFrom : (position skip : Nat) → List Char → Except Trouble (List Located)
  | position, _, [] => .ok [⟨.finish, position⟩]
  | position, skip + 1, _ :: rest => tokensFrom (position + 1) skip rest
  | position, 0, c :: rest =>
    if isBlank c then tokensFrom (position + 1) 0 rest
    else do
      let (token, width) ← scan position c rest
      return ⟨token, position⟩ :: (← tokensFrom (position + 1) (width - 1) rest)

end Lexer

/-- The tokens of a text, the last of which is its end. -/
def tokens (text : String) : Except ReadError (List Located) :=
  (Lexer.tokensFrom 0 0 text.toList).mapError (Trouble.inText text)

/-- The names among tokens, each once, in order of first use. -/
def namesOf (ts : List Located) : List String :=
  (ts.filterMap fun t => match t.token with
    | .name s => some s
    | _ => none).eraseDups

/-- The names that a text uses, each once, in order of first use. -/
def identifiers (text : String) : Except ReadError (List String) := (tokens text).map namesOf

end Shortlist.Rule
