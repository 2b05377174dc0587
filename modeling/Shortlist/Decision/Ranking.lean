import Shortlist.Decision.Relevance
import Shortlist.Decision.Softmax

/-!
# Ranking outputs

Every output starts with a score of one, and each of its soft rules that holds adds its weight. The
contributions are summed exactly and rounded once. The share of a score among the outputs that are
ranked is the probability of the output; outputs are ranked by probability, and equal ones keep
their order.
-/

namespace Shortlist

open Rule (Assignment Truth)

/-- The score before any soft rule holds. -/
def baseScore : Binary64 := Binary64.ofInt 1

structure Contribution where
  condition : String
  weight : Binary64
  truth : Truth
  subject : Option String

namespace Contribution

def isApplied (c : Contribution) : Bool := c.truth = .holds

/-- The points that the soft rule adds: its weight while it holds. -/
def points (c : Contribution) : Binary64 := if c.isApplied then c.weight else .zero

/-- Why the soft rule adds what it adds. -/
def reason (c : Contribution) : String :=
  match c.truth with
  | .holds =>
    let sign := if (Number.int 0).atMost (.double c.points) then "+" else ""
    c.condition ++ " holds (" ++ sign ++ c.points.general 6 ++ ")"
  | .undecided => c.condition ++ " cannot be decided yet (+0)"
  | .fails => c.condition ++ " does not hold (+0)"

end Contribution

namespace SoftRule

/-- The weight as a double. A missing weight is zero, a boolean counts as a number, and a text has
to spell one. -/
def points (rule : SoftRule) : Except Fault Binary64 :=
  match rule.weight with
  | .null => .ok .zero
  | .text s =>
    match Numeral.double? s with
    | some x => .ok x
    | none => .error .notANumeral
  | weight =>
    match weight.asNumber? with
    | some n => n.toDouble.mapError fun _ => .beyondDouble
    | none => .error .notANumber

def contribution (rule : SoftRule) (assignment : Assignment) (declared : List String) :
    Except Fault Contribution := do
  let weight ← rule.points
  let truth ← Rule.truthOf rule.condition assignment declared
  return ⟨rule.condition, weight, truth, rule.subject⟩

end SoftRule

structure Scored where
  name : String
  description : String
  score : Binary64
  contributions : List Contribution

structure Ranked extends Scored where
  probability : Binary64

namespace Catalog

/-- What the soft rules of an output add; an output without a bundle has none. -/
def contributions (catalog : Catalog) (output : String) (assignment : Assignment) :
    Except Fault (List Contribution) :=
  match catalog.bundleFor? output with
  | some bundle => bundle.softRules.mapM (·.contribution assignment catalog.declared)
  | none => .ok []

/-- The base score and the exact sum of contributions. -/
def scoreOf (contributions : List Contribution) : Binary64 :=
  baseScore.add (Binary64.sum (contributions.map (·.points)))

def score (catalog : Catalog) (assignment : Assignment) (output : Output) :
    Except Fault Scored := do
  let contributions ← catalog.contributions output.name assignment
  return ⟨output.name, output.description, scoreOf contributions, contributions⟩

/-- Whether one result may stand before another: its probability is not smaller. -/
def ranksBefore (a b : Ranked) : Bool :=
  !(Number.double a.probability).less (.double b.probability)

def rank (catalog : Catalog) (outputs : List Output) (assignment : Assignment) :
    Except Fault (List Ranked) := do
  let scored ← outputs.mapM (catalog.score assignment)
  let shares ← Softmax.shares (scored.map fun s => .double s.score)
  return ((scored.zip shares).map fun (s, p) => (⟨s, p⟩ : Ranked)).mergeSort ranksBefore

end Catalog

namespace Ranked

def probabilityText (r : Ranked) : String := r.probability.general 12

def applied (r : Ranked) : List Contribution := r.contributions.filter (·.isApplied)

/-- Where the score and the probability of a result come from, in full. -/
def explanation (r : Ranked) : String :=
  let head := r.name ++ ": probability " ++ r.probability.percent 1 ++
    " (score " ++ r.score.general 6 ++ ")"
  let description := if r.description = "" then [] else ["  " ++ r.description]
  let breakdown := ["", "Score breakdown:", "- base score (+" ++ baseScore.general 6 ++ ")"]
  let reasons := if r.contributions.isEmpty then ["- no soft rules defined"]
    else r.contributions.map ("- " ++ ·.reason)
  "\n".intercalate (head :: description ++ breakdown ++ reasons)

/-- The first of the contributions with the most points. -/
def strongest? : List Contribution → Option Contribution
  | [] => none
  | first :: rest => some (rest.foldl (fun best c =>
      if (Number.double best.points).less (.double c.points) then c else best) first)

/-- The probability of a result and its strongest reason in one line. -/
def summary (r : Ranked) : String :=
  let reason := match strongest? r.applied with
    | some c => c.reason
    | none => "base score only"
  r.name ++ " (" ++ r.probability.percent 0 ++ ") - " ++ reason

end Ranked

end Shortlist
