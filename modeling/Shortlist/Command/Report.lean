import Shortlist.Decision.Evaluation

/-!
# Reports

What the commands print, line by line.
-/

namespace Shortlist.Command

def padRight (width : Nat) (s : String) : String :=
  s ++ String.ofList (List.replicate (width - s.length) ' ')

def padLeft (width : Nat) (s : String) : String :=
  String.ofList (List.replicate (width - s.length) ' ') ++ s

def bullet (s : String) : String := "  • " ++ s

def badge : State → String
  | .loaded => "[LOADED]"
  | .awaitingInput => "[PENDING]"
  | .ranked => "[RANKED]"
  | .noFeasible => "[NO MATCH]"

def enumerate (names : List String) : String :=
  if names.isEmpty then "none" else ", ".intercalate names

def pendingLine (pending : List String) : String :=
  "Mandatory fields pending: " ++ ", ".intercalate pending

/-- A line of the ranking. The first one is marked. -/
def rankingLine (position : Nat) (r : Ranked) : String :=
  (if position = 1 then "*" else " ") ++ padLeft 2 (toString position) ++ ". " ++
    padRight 20 r.name ++ " " ++ padLeft 7 (r.probability.percent 1) ++
    "  (score " ++ r.score.general 6 ++ ")  " ++ r.description

def assignmentLines (assignment : Rule.Assignment) : Except Fault (List String) :=
  if assignment.isEmpty then .ok []
  else do
    let lines ← assignment.mapM fun (name, value) => do
      return "  " ++ name ++ " = " ++ (← value.written?)
    return "ASSIGNMENT:" :: lines ++ [""]

def recommendationLines (e : Evaluation) : List String :=
  if !e.pending.isEmpty then
    [pendingLine e.pending, "Complete them to obtain recommendations."]
  else if e.feasible.isEmpty then ["No solution matches the current values."]
  else
    "RANKING:" :: (e.ranking.zipIdx 1).map fun (r, position) => rankingLine position r

def evaluationLines (e : Evaluation) (state : State) : Except Fault (List String) := do
  let assigned ← assignmentLines e.assignment
  return [badge state ++ " " ++ state.word, ""] ++ assigned ++
    ["FEASIBLE OUTPUTS: " ++ enumerate (e.feasible.map (·.name)),
     "RELEVANT FIELDS:  " ++ enumerate e.relevant,
     "MANDATORY FIELDS: " ++ enumerate e.mandatory,
     ""] ++ recommendationLines e

def catalogLines (catalog : Catalog) : List String :=
  ["Configuration is valid.",
   "  Variables: " ++ toString catalog.registry.toList.length,
   "  Outputs:   " ++ toString catalog.outputs.length,
   "  Bundles:   " ++ toString catalog.bundles.length]

def unknownOutputLines (catalog : Catalog) (output : String) : List String :=
  ["Output not found: " ++ output, "", "Available outputs:"] ++
    catalog.outputs.map fun o => "  " ++ o.name ++ " — " ++ o.description

/-- The report on a declared output: why it is ruled out, what it still needs, or what its score is
made of. -/
def outputLines (output : String) (reasons : List String) (e : Evaluation) : List String :=
  if !reasons.isEmpty then (output ++ " is ruled out:") :: reasons.map bullet
  else if !e.pending.isEmpty then
    [output ++ " is still possible.", pendingLine e.pending]
  else
    match e.ranking.find? (·.name == output) with
    | some r => [r.explanation]
    | none => []

end Shortlist.Command
