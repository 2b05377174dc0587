import Shortlist.Entries
import Shortlist.Number.Basic

/-!
# Values

A configuration document is a value, and so is whatever a form hands in for a variable: null, a
boolean, a number, a text, a list or an object with ordered entries.

Two values are the same when they are equal as data: numbers by their place on the line, objects
whatever the order of their entries. A boolean is then the same as the number one or zero; where
booleans and numbers have to stay apart, `Value.strictlySame` is used.
-/

namespace Shortlist

/-- A value of a document or a form. -/
inductive Value
  | null
  | boolean (b : Bool)
  | number (n : Number)
  | text (s : String)
  | list (items : List Value)
  | object (entries : List (String × Value))
deriving Inhabited

namespace Value

abbrev int (i : Int) : Value := .number (.int i)

abbrev double (x : Binary64) : Value := .number (.double x)

/-- A boolean or a number as a number. -/
def asNumber? : Value → Option Number
  | .boolean b => some (.int (if b then 1 else 0))
  | .number n => some n
  | _ => none

mutual

/-- Whether two values are equal as data. -/
def same : Value → Value → Bool
  | .null, other => match other with
    | .null => true
    | _ => false
  | .boolean b, other => match other.asNumber? with
    | some n => Number.equal (.int (if b then 1 else 0)) n
    | none => false
  | .number m, other => match other.asNumber? with
    | some n => m.equal n
    | none => false
  | .text s, other => match other with
    | .text t => s == t
    | _ => false
  | .list xs, other => match other with
    | .list ys => sameItems xs ys
    | _ => false
  | .object xs, other => match other with
    | .object ys => xs.length == ys.length && sameEntries xs ys
    | _ => false

def sameItems : List Value → List Value → Bool
  | [], ys => ys.isEmpty
  | x :: xs, ys => match ys with
    | [] => false
    | y :: ys => same x y && sameItems xs ys

/-- Whether each entry of the first list is the same under its name in the second. -/
def sameEntries : List (String × Value) → Entries Value → Bool
  | [], _ => true
  | (name, value) :: rest, ys =>
    (match ys.get? name with
      | some other => same value other
      | none => false) && sameEntries rest ys

end

def isBoolean : Value → Bool
  | .boolean _ => true
  | _ => false

/-- Whether two values are equal, with booleans equal to booleans only. -/
def strictlySame (a b : Value) : Bool :=
  if a.isBoolean || b.isBoolean then a.isBoolean && b.isBoolean && a.same b else a.same b

def text? : Value → Option String
  | .text s => some s
  | _ => none

def list? : Value → Option (List Value)
  | .list items => some items
  | _ => none

def object? : Value → Option (Entries Value)
  | .object entries => some entries
  | _ => none

/-- Whether a value can be a member of a set: a list or an object cannot. -/
def isKey : Value → Bool
  | .list _ => false
  | .object _ => false
  | _ => true

/-- Whether a value counts as given: null, false, zero and what is empty do not. -/
def isTruthy : Value → Bool
  | .null => false
  | .boolean b => b
  | .number n => !n.isZero
  | .text s => !s.isEmpty
  | .list items => !items.isEmpty
  | .object entries => !entries.isEmpty

end Value

end Shortlist
