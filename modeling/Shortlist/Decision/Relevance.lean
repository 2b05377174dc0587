import Shortlist.Catalog.Answer
import Shortlist.Decision.Feasibility

/-!
# Relevant and mandatory fields

A field is mandatory if a hard rule of any output refers to it, whatever the assignment. It is
relevant if it has a value or if any rule of a feasible output refers to it. The mandatory fields
that are relevant and have no value yet are pending: there is no ranking before they are filled in.
Sets of fields are lists of distinct names in order.
-/

namespace Shortlist

open Rule (Assignment)

namespace Bundle

/-- The variables that the hard rules of a bundle refer to. -/
def hardFields (bundle : Bundle) (declared : List String) : List String :=
  bundle.conditions.names ++ bundle.hardTexts.flatMap (Rule.fieldsOf · declared)

/-- The variables that a soft rule refers to or is about. -/
def softFields (declared : List String) (rule : SoftRule) : List String :=
  (rule.subject.toList.filter (· ≠ "")) ++ Rule.fieldsOf rule.condition declared

/-- The variables that any rule of a bundle refers to. -/
def fields (bundle : Bundle) (declared : List String) : List String :=
  bundle.hardFields declared ++ bundle.softRules.flatMap (softFields declared)

end Bundle

namespace Catalog

/-- The fields that a hard rule of any output refers to. -/
def mandatory (catalog : Catalog) : List String :=
  Text.sortedSet (catalog.bundles.flatMap (·.hardFields catalog.declared))

def assigned (assignment : Assignment) : List String :=
  (assignment.filter fun entry => match entry.2 with
    | .null => false
    | _ => true).map (·.1)

/-- The fields that have a value or that a rule of one of the outputs refers to. -/
def relevant (catalog : Catalog) (feasible : List Output) (assignment : Assignment) :
    List String :=
  Text.sortedSet (assigned assignment ++ feasible.flatMap fun output =>
    match catalog.bundleFor? output.name with
    | some bundle => bundle.fields catalog.declared
    | none => [])

/-- Whether a field has no value, or one that means none. -/
def isOpen (assignment : Assignment) (name : String) : Bool :=
  (((assignment : Entries Value).get? name).getD .null).isEmptyAnswer

/-- The mandatory fields that are relevant and open, in order of declaration. -/
def pending (catalog : Catalog) (mandatory relevant : List String) (assignment : Assignment) :
    List String :=
  catalog.declared.filter fun name =>
    mandatory.contains name && relevant.contains name && isOpen assignment name

end Catalog

end Shortlist
