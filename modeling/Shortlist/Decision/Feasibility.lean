import Shortlist.Catalog.Basic
import Shortlist.Text.Order

/-!
# Feasible outputs

An output stays feasible until the assignment rules it out: an assigned variable fails a mandatory
condition, an inclusion rule is false, or an exclusion rule is true. A variable without a value
rules nothing out. An output without a bundle is never feasible.
-/

namespace Shortlist

open Rule (Assignment Truth)

/-- The elements that a test which may be a fault accepts, in order. -/
def selectM {α : Type} (test : α → Except Fault Bool) : List α → Except Fault (List α)
  | [] => .ok []
  | a :: rest => do
    let accepted ← test a
    let others ← selectM test rest
    return if accepted then a :: others else others

namespace Bundle

/-- The assigned variables that fail their mandatory condition. -/
def violated (bundle : Bundle) (assignment : Assignment) : List String :=
  (bundle.conditions.filter fun condition =>
    match assignment.value? condition.1 with
    | some actual => !condition.2.isMetBy actual
    | none => false).map (·.1)

def isSatisfied (bundle : Bundle) (assignment : Assignment) : Bool :=
  (bundle.violated assignment).isEmpty

def hasOutcome (assignment : Assignment) (declared : List String) (outcome : Truth)
    (text : String) : Except Fault Bool := do
  return (← Rule.truthOf text assignment declared) = outcome

def failed (bundle : Bundle) (assignment : Assignment) (declared : List String) :
    Except Fault (List String) :=
  selectM (hasOutcome assignment declared .fails) bundle.inclusions

def triggered (bundle : Bundle) (assignment : Assignment) (declared : List String) :
    Except Fault (List String) :=
  selectM (hasOutcome assignment declared .holds) bundle.exclusions

/-- Whether nothing rules the output out. The rules are judged in order, and only until one of them
rules the output out. -/
def isFeasible (bundle : Bundle) (assignment : Assignment) (declared : List String) :
    Except Fault Bool := do
  if !bundle.isSatisfied assignment then return false
  if ← bundle.inclusions.anyM (hasOutcome assignment declared .fails) then return false
  return !(← bundle.exclusions.anyM (hasOutcome assignment declared .holds))

end Bundle

namespace Catalog

def isFeasible (catalog : Catalog) (assignment : Assignment) (output : Output) :
    Except Fault Bool :=
  match catalog.bundleFor? output.name with
  | some bundle => bundle.isFeasible assignment catalog.declared
  | none => .ok false

def feasibleAmong (catalog : Catalog) (assignment : Assignment) (outputs : List Output) :
    Except Fault (List Output) :=
  selectM (catalog.isFeasible assignment) outputs

def feasible (catalog : Catalog) (assignment : Assignment) : Except Fault (List Output) :=
  catalog.feasibleAmong assignment catalog.outputs

def violationReason (name : String) (actual : Value) (expected : Expected) :
    Except Fault String := do
  let start := name ++ " = " ++ (← actual.written?)
  match expected with
  | .oneOf members =>
    let texts ← members.mapM Value.plain?
    return start ++ " is not one of: " ++ ", ".intercalate (Text.sorted texts)
  | .exactly v => return start ++ " but " ++ (← v.written?) ++ " is required"

def bundleReasons (catalog : Catalog) (bundle : Bundle) (assignment : Assignment) :
    Except Fault (List String) := do
  let violations ← (bundle.violated assignment).mapM fun name =>
    match bundle.conditions.get? name with
    | some expected => violationReason name ((assignment.value? name).getD .null) expected
    | none => .ok name
  let failed ← bundle.failed assignment catalog.declared
  let triggered ← bundle.triggered assignment catalog.declared
  return violations ++ failed.map ("inclusion rule is false: " ++ ·) ++
    triggered.map ("exclusion rule is true: " ++ ·)

/-- Every reason why an output is ruled out; none if it is feasible. -/
def reasonsAgainst (catalog : Catalog) (output : String) (assignment : Assignment) :
    Except Fault (List String) :=
  match catalog.bundleFor? output with
  | some bundle => catalog.bundleReasons bundle assignment
  | none => .ok [output ++ " has no rule bundle"]

end Catalog

end Shortlist
