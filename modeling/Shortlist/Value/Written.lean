import Shortlist.Text.Quoted
import Shortlist.Value.Basic

/-!
# Written values

How a value is shown in a message: texts in quotes, lists in square brackets, objects in braces.
An integer with too many digits is not written at all, so a message about a value that holds one is
a fault.
-/

namespace Shortlist.Value

mutual

def written : Value → String
  | .null => "None"
  | .boolean true => "True"
  | .boolean false => "False"
  | .number n => n.written
  | .text s => Text.quoted s
  | .list items => "[" ++ writtenItems items ++ "]"
  | .object entries => "\x7b" ++ writtenEntries entries ++ "\x7d"

def writtenItems : List Value → String
  | [] => ""
  | [item] => written item
  | item :: rest => written item ++ ", " ++ writtenItems rest

def writtenEntries : List (String × Value) → String
  | [] => ""
  | [(name, value)] => Text.quoted name ++ ": " ++ written value
  | (name, value) :: rest =>
    Text.quoted name ++ ": " ++ written value ++ ", " ++ writtenEntries rest

end

mutual

/-- Whether every integer in the value has few enough digits to be written. -/
def isWritable : Value → Bool
  | .number n => n.isWritable
  | .list items => areWritable items
  | .object entries => entriesWritable entries
  | _ => true

def areWritable : List Value → Bool
  | [] => true
  | item :: rest => isWritable item && areWritable rest

def entriesWritable : List (String × Value) → Bool
  | [] => true
  | (_, value) :: rest => isWritable value && entriesWritable rest

end

def written? (v : Value) : Except Fault String :=
  if v.isWritable then .ok v.written else .error .tooManyDigits

/-- The value as running text: a text stands without its quotes. -/
def plain? : Value → Except Fault String
  | .text s => .ok s
  | v => v.written?

end Shortlist.Value
