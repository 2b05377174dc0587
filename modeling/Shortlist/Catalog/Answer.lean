import Shortlist.Catalog.Variable

/-!
# Answers

An answer is the raw value that a form hands in for a variable. It is accepted as a value of the
variable's type or rejected with a reason; a text may spell a boolean or a number, and an empty
answer is no answer.
-/

namespace Shortlist

/-- Why an answer is rejected. -/
inductive Objection
  | noValue
  | notBoolean
  | notNumber
  | tooLarge
  | notFinite
  | notInDomain (domain : List String)
  | unknownVariable
deriving DecidableEq, Repr

structure Rejection where
  name : String
  answer : Value
  objection : Objection

namespace Rejection

def reason (r : Rejection) : String :=
  match r.objection with
  | .noValue => r.name ++ " requires a value"
  | .notBoolean => r.name ++ " must be true or false, got " ++ r.answer.written
  | .notNumber => r.name ++ " must be a valid number, got " ++ r.answer.written
  | .tooLarge => r.name ++ " is too large"
  | .notFinite => r.name ++ " must be a finite number"
  | .notInDomain domain =>
    r.name ++ " must be one of: " ++ ", ".intercalate domain ++
      " (got " ++ r.answer.written ++ ")"
  | .unknownVariable => "unknown variable " ++ inQuotes r.name

def message (r : Rejection) : String := "[" ++ r.name ++ "] " ++ r.reason

def isWritable (r : Rejection) : Bool :=
  match r.objection with
  | .notBoolean | .notNumber | .notInDomain _ => r.answer.isWritable
  | _ => true

end Rejection

/-- Why an answer is not accepted: it is rejected, or a fault stops the request. -/
inductive AnswerError
  | rejected (r : Rejection)
  | fault (f : Fault)

/-- A rejection is put into words at once, so one that cannot be is a fault. -/
def AnswerError.ofRejection (r : Rejection) : AnswerError :=
  if r.isWritable then .rejected r else .fault .tooManyDigits

/-- Whether an answer means that there is no value: null or a text of blank characters. -/
def Value.isEmptyAnswer : Value → Bool
  | .null => true
  | .text s => Text.isBlankText s
  | _ => false

namespace Variable

def reject {α : Type} (v : Variable) (raw : Value) (objection : Objection) :
    Except AnswerError α :=
  .error (.ofRejection ⟨v.name, raw, objection⟩)

def mismatch (v : Variable) : Objection :=
  match v.type with
  | .boolean => .notBoolean
  | .number => .notNumber
  | .choice => .notInDomain v.domain

def boolean? : Value → Option Bool
  | .boolean b => some b
  | .text s =>
    let word := (Text.trim s).map Char.toLower
    if word = "true" then some true
    else if word = "false" then some false
    else none
  | _ => none

/-- The number that an answer stands for. A text is read as an integer if it can be. -/
def number? : Value → Option Number
  | .number n => some n
  | .text s =>
    match Numeral.integer? (Text.trim s) with
    | some i => some (.int i)
    | none => (Numeral.double? (Text.trim s)).map .double
  | _ => none

/-- The number that an answer stands for, if it has a finite double near it. -/
def acceptNumber (v : Variable) (raw : Value) : Except AnswerError Value :=
  match number? raw with
  | none => v.reject raw v.mismatch
  | some (.int i) =>
    match (Number.int i).toDouble with
    | .ok _ => .ok (.int i)
    | .error _ => v.reject raw .tooLarge
  | some (.double x) => if x.isFinite then .ok (.double x) else v.reject raw .notFinite

/-- The member of the domain that a text or the text of a number is. -/
def acceptChoice (v : Variable) (raw : Value) : Except AnswerError Value :=
  match raw with
  | .text _ | .number _ => do
    let word ← raw.plain?.mapError .fault
    if v.domain.contains word then return .text word else v.reject raw v.mismatch
  | _ => v.reject raw v.mismatch

def accept (v : Variable) (raw : Value) : Except AnswerError Value :=
  if raw.isEmptyAnswer then v.reject raw .noValue
  else
    match v.type with
    | .boolean =>
      match boolean? raw with
      | some b => .ok (.boolean b)
      | none => v.reject raw v.mismatch
    | .number => v.acceptNumber raw
    | .choice => v.acceptChoice raw

def isAcceptable (v : Variable) (raw : Value) : Except Fault Bool :=
  match v.accept raw with
  | .ok _ => .ok true
  | .error (.rejected _) => .ok false
  | .error (.fault f) => .error f

def describeMismatch (v : Variable) (raw : Value) : Except Fault String :=
  let r : Rejection := ⟨v.name, raw, if raw.isEmptyAnswer then .noValue else v.mismatch⟩
  if r.isWritable then .ok r.reason else .error .tooManyDigits

end Variable

namespace Registry

def require (registry : Registry) (name : String) : Except AnswerError Variable :=
  match registry.get? name with
  | some v => .ok v
  | none => .error (.rejected ⟨name, .null, .unknownVariable⟩)

def accept (registry : Registry) (name : String) (raw : Value) : Except AnswerError Value := do
  (← registry.require name).accept raw

end Registry

end Shortlist
