import Shortlist.Rule.Evaluation

/-!
# Judging rules

A rule is undecided as long as a declared variable that it names has no value, even where its value
would not matter. Otherwise it is true or false. A text that is no rule, a failing evaluation and a
value that is no boolean all make it false, with a complaint.
-/

namespace Shortlist.Rule

/-- The outcome of judging a rule on an assignment that may be partial. -/
inductive Truth
  | holds
  | fails
  | undecided
deriving DecidableEq, Repr

def Truth.ofBool (b : Bool) : Truth := if b then .holds else .fails

def Truth.text : Truth → String
  | .holds => "definite_true"
  | .fails => "definite_false"
  | .undecided => "indeterminate"

/-- Why a rule counts as false without having been found so. -/
inductive Complaint
  | unreadable (e : SyntaxError)
  | failed (failure : Failure)
  | notBoolean (v : Value)

/-- The judgement of a rule. -/
inductive Verdict
  | decided (b : Bool)
  | undecided
  | rejected (complaint : Complaint)

/-- The outcome of a judgement: what is rejected is false. -/
def Verdict.truth : Verdict → Truth
  | .decided b => .ofBool b
  | .undecided => .undecided
  | .rejected _ => .fails

/-- The wording of the complaint of a judgement, if it has one. -/
def Verdict.warnings (rule : Value) : Verdict → Except Fault (List String)
  | .rejected complaint => do
    let text := "Rule " ++ (← rule.written?)
    match complaint with
    | .unreadable e =>
      return [text ++ " could not be parsed, treating as false: " ++ e.message]
    | .failed failure =>
      return [text ++ " failed to evaluate, treating as false: " ++ failure.message]
    | .notBoolean v =>
      return [text ++ " produced non-boolean " ++ (← v.written?) ++ ", treating as false"]
  | _ => .ok []

/-- The judgement of the value of an expression. -/
def Verdict.ofValue : Value → Verdict
  | .boolean b => .decided b
  | v => .rejected (.notBoolean v)

def judge (rule : Rule) (assignment : Assignment) (declared : List String) :
    Except Fault Verdict :=
  if (rule.dependencies declared).any fun name => (assignment.value? name).isNone then
    .ok .undecided
  else
    match rule.tree.value assignment declared with
    | .ok v => .ok (.ofValue v)
    | .error (.failed failure) => .ok (.rejected (.failed failure))
    | .error (.fault f) => .error f

/-- Judges what a reading yields: a malformed text is rejected. -/
def judgeReading (reading : Except ReadError Rule) (assignment : Assignment)
    (declared : List String) : Except Fault Verdict :=
  match reading with
  | .ok rule => rule.judge assignment declared
  | .error (.malformed e) => .ok (.rejected (.unreadable e))
  | .error (.fault f) => .error f

def judgeText (text : String) (assignment : Assignment) (declared : List String) :
    Except Fault Verdict :=
  judgeReading (read text) assignment declared

def truthOf (text : String) (assignment : Assignment) (declared : List String) :
    Except Fault Truth :=
  (judgeText text assignment declared).map Verdict.truth

/-- The declared variables that the text of a rule refers to; a text that is no rule refers to
none. -/
def fieldsOf (text : String) (declared : List String) : List String :=
  match read text with
  | .ok rule => rule.dependencies declared
  | .error _ => []

end Shortlist.Rule
