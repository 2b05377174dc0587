import Shortlist.Catalog.Variable

/-!
# Bundles of rules

A bundle holds the rules of one output. Its mandatory conditions demand a value, or one of several,
of a variable; its inclusion rules have to hold, its exclusion rules must not; its soft rules have
a weight and only change the score.
-/

namespace Shortlist

/-- What a mandatory condition demands: a value, or one of the members of a set. -/
inductive Expected
  | exactly (v : Value)
  | oneOf (members : List Value)

namespace Expected

/-- The members of a set in order of first occurrence. Members that are the same are one, booleans
and numbers included. -/
def distinct (members : List Value) : List Value :=
  members.foldl (fun kept v => if kept.any (·.same v) then kept else kept ++ [v]) []

def ofMembers (members : List Value) : Except Fault Expected :=
  if members.all Value.isKey then .ok (.oneOf (distinct members)) else .error .notAKey

/-- A list demands one of its members, any other value demands itself. -/
def ofValue : Value → Except Fault Expected
  | .list members => ofMembers members
  | v => .ok (.exactly v)

/-- Whether a value meets the demand. A boolean never meets the demand for a number. -/
def isMetBy (expected : Expected) (actual : Value) : Bool :=
  match expected with
  | .exactly v => v.strictlySame actual
  | .oneOf members => members.any (·.strictlySame actual)

end Expected

/-- A condition that adds its weight to the score while it holds. The weight stands as the document
gives it, with null for none. -/
structure SoftRule where
  condition : String
  weight : Value
  subject : Option String

structure Bundle where
  output : String
  conditions : Entries Expected
  inclusions : List String
  exclusions : List String
  softRules : List SoftRule

namespace Bundle

def hardTexts (bundle : Bundle) : List String := bundle.inclusions ++ bundle.exclusions

def allTexts (bundle : Bundle) : List String :=
  bundle.hardTexts ++ bundle.softRules.map (·.condition)

end Bundle

end Shortlist
