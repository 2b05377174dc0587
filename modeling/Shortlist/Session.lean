import Shortlist.Decision.Evaluation

/-!
# Sessions

A session holds the answers given so far over a catalog, together with what follows from them.
Every change is evaluated before it is adopted, so a change that is rejected, or whose evaluation
is a fault, leaves the session as it was.
-/

namespace Shortlist

open Rule (Assignment)

structure Session where
  catalog : Catalog
  assignment : Assignment
  evaluation : Evaluation
  /-- Whether any change has been adopted. -/
  changed : Bool

namespace Session

def start (catalog : Catalog) : Except Fault Session := do
  return ⟨catalog, [], ← catalog.evaluate [], false⟩

/-- Where the session stands: before the first change it is merely loaded. -/
def state (session : Session) : State :=
  if session.changed then session.evaluation.state else .loaded

/-- Adopts an assignment together with its evaluation. -/
def adopt (session : Session) (assignment : Assignment) : Except AnswerError Session := do
  let evaluation ← (session.catalog.evaluate assignment).mapError .fault
  return { session with assignment, evaluation, changed := true }

def unset (session : Session) (name : String) : Except AnswerError Session := do
  let _ ← session.catalog.registry.require name
  session.adopt (Entries.erase session.assignment name)

/-- Gives an answer for a variable. An empty answer drops its value. -/
def set (session : Session) (name : String) (raw : Value) : Except AnswerError Session :=
  if raw.isEmptyAnswer then session.unset name
  else do
    let value ← session.catalog.registry.accept name raw
    session.adopt (Entries.insert session.assignment name value)

/-- Answers sorted into values to store and variables to clear, both in order. -/
structure Staged where
  stored : Entries Value
  cleared : List String

def stage (registry : Registry) (staged : Staged) (answer : String × Value) :
    Except AnswerError Staged :=
  if answer.2.isEmptyAnswer then do
    let _ ← registry.require answer.1
    return { staged with cleared := staged.cleared ++ [answer.1] }
  else do
    let value ← registry.accept answer.1 answer.2
    return { staged with stored := staged.stored.insert answer.1 value }

/-- An assignment with variables cleared and then values stored. -/
def applyStaged (assignment : Assignment) (staged : Staged) : Assignment :=
  Entries.insertAll (staged.cleared.foldl Entries.erase assignment) staged.stored

/-- Gives several answers at once. All are accepted before any is stored. -/
def setAll (session : Session) (answers : Entries Value) : Except AnswerError Session := do
  let staged ← answers.foldlM (stage session.catalog.registry) ⟨[], []⟩
  session.adopt (applyStaged session.assignment staged)

def reset (session : Session) : Except AnswerError Session := session.adopt []

def reasonsAgainst (session : Session) (output : String) : Except Fault (List String) :=
  session.catalog.reasonsAgainst output session.assignment

end Session

end Shortlist
