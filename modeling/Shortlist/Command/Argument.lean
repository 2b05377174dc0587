import Shortlist.Text.Digit

/-!
# Arguments of a command line

Every argument is a word, an option, or the separator behind which all arguments are words. Which
options there are depends on the command, so an argument is read against a list of flags. The name
of a flag may be shortened as long as only one flag starts that way. An argument that starts with a
dash and is no known option is still a word if it looks like a negative number or has a space in it.
-/

namespace Shortlist.Command

inductive Flag
  | help
  | verbose
  | set
deriving DecidableEq, Repr

namespace Flag

def name : Flag → String
  | help => "--help"
  | verbose => "--verbose"
  | set => "--set"

def letter? : Flag → Option Char
  | help => some 'h'
  | verbose => some 'v'
  | set => none

def ofLetter? (known : List Flag) (c : Char) : Option Flag :=
  known.find? (·.letter? == some c)

end Flag

inductive Role
  | word
  | separator
  /-- Letters behind one dash, the first of which is that of a known option. -/
  | letters (letters : List Char)
  /-- An option by its name, perhaps with a value behind an equals sign. -/
  | named (flag : Flag) (attached : Option String)
  | unknown
deriving DecidableEq, Repr

structure Argument where
  text : String
  role : Role
deriving DecidableEq, Repr

/-- Why a command line is not carried out: it asks for help, or it is not understood. -/
inductive Stop
  | help
  | misuse
deriving DecidableEq, Repr

def separatorText : String := "--"

/-- Whether a character is a decimal digit of any script. -/
def isDecimal (c : Char) : Bool := (Text.decimalDigit? c).isSome

/-- Characters without a line feed at their end. -/
def dropFinalNewline (cs : List Char) : List Char :=
  if cs.getLast? = some '\n' then cs.dropLast else cs

/-- Whether characters behind a dash are digits, perhaps with a point before the last of them. -/
def isUnsignedNumber (cs : List Char) : Bool :=
  match cs.dropWhile isDecimal with
  | [] => !cs.isEmpty
  | '.' :: rest => !rest.isEmpty && rest.all isDecimal
  | _ => false

/-- What an argument is that starts with a dash and is no known option. -/
def roleOfUnknown (cs : List Char) : Role :=
  if isUnsignedNumber (dropFinalNewline cs.tail) || cs.contains ' ' then .word else .unknown

/-- The known flag that a name stands for: the one that has it, or else the only one that starts
with it. -/
def flagNamed? (known : List Flag) (name : String) : Except Stop (Option Flag) :=
  match known.find? (·.name == name) with
  | some flag => .ok (some flag)
  | none =>
    match known.filter fun flag => name.toList.isPrefixOf flag.name.toList with
    | [] => .ok none
    | [flag] => .ok (some flag)
    | _ => .error .misuse

def roleOfLong (known : List Flag) (cs : List Char) : Except Stop Role := do
  match ← flagNamed? known (String.ofList (cs.takeWhile (· != '='))) with
  | some flag => return .named flag ((cs.dropWhile (· != '=')).tail? |>.map String.ofList)
  | none => return roleOfUnknown cs

/-- The letters of an argument that starts with the letter of an option. An equals sign behind it
is dropped if there is anything behind the sign. -/
def lettersOf (first : Char) : List Char → List Char
  | '=' :: c :: rest => first :: c :: rest
  | rest => first :: rest

def roleOf (known : List Flag) (cs : List Char) : Except Stop Role :=
  match cs with
  | '-' :: '-' :: _ => roleOfLong known cs
  | '-' :: c :: rest =>
    .ok (if (Flag.ofLetter? known c).isSome then .letters (lettersOf c rest)
      else roleOfUnknown cs)
  | _ => .ok .word

def readArguments (known : List Flag) : List String → Except Stop (List Argument)
  | [] => .ok []
  | text :: rest =>
    if text = separatorText then
      .ok (⟨text, .separator⟩ :: rest.map fun word => ⟨word, .word⟩)
    else do
      let role ← roleOf known text.toList
      return ⟨text, role⟩ :: (← readArguments known rest)

end Shortlist.Command
