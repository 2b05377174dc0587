import Shortlist.Decision.Ranking

/-!
# What an assignment decides

From a catalog and an assignment follow the feasible outputs, the relevant and mandatory fields,
the pending ones and, unless some are pending, the ranking.
-/

namespace Shortlist

open Rule (Assignment)

inductive State
  | loaded
  | awaitingInput
  | ranked
  | noFeasible
deriving DecidableEq, Repr

def State.word : State → String
  | .loaded => "loaded"
  | .awaitingInput => "awaiting_mandatory_input"
  | .ranked => "ranked"
  | .noFeasible => "no_feasible_outputs"

/-- Everything that follows from an assignment. -/
structure Evaluation where
  state : State
  assignment : Assignment
  feasible : List Output
  relevant : List String
  mandatory : List String
  pending : List String
  ranking : List Ranked

namespace Evaluation

def recommended? (e : Evaluation) : Option Ranked := e.ranking.head?

end Evaluation

/-- Evaluates an assignment. Nothing is ranked while a field is pending, or when no output is
feasible. -/
def Catalog.evaluate (catalog : Catalog) (assignment : Assignment) :
    Except Fault Evaluation := do
  let feasible ← catalog.feasible assignment
  let mandatory := catalog.mandatory
  let relevant := catalog.relevant feasible assignment
  let pending := catalog.pending mandatory relevant assignment
  if !pending.isEmpty then
    return ⟨.awaitingInput, assignment, feasible, relevant, mandatory, pending, []⟩
  else if feasible.isEmpty then
    return ⟨.noFeasible, assignment, feasible, relevant, mandatory, pending, []⟩
  else
    let ranking ← catalog.rank feasible assignment
    return ⟨.ranked, assignment, feasible, relevant, mandatory, pending, ranking⟩

end Shortlist
