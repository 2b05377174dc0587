import Shortlist.Catalog.Problem

/-!
# Variables and outputs

A variable is a field of the form: it has a name and one of three types, and a variable of the
type of choices has a domain of texts to choose from. An output is a candidate that may be
recommended.
-/

namespace Shortlist

inductive VariableType
  | boolean
  | number
  | choice
deriving DecidableEq, Repr

namespace VariableType

def word : VariableType → String
  | .boolean => "boolean"
  | .number => "number"
  | .choice => "enum"

def ofWord? (word : String) : Option VariableType :=
  [boolean, number, choice].find? (·.word == word)

end VariableType

structure Variable where
  name : String
  type : VariableType
  domain : List String
  name_ne : name ≠ ""
  domain_ne : type = .choice → domain ≠ []
deriving DecidableEq

def Variable.declare (name : String) (type : VariableType) (domain : List String) :
    Except Problem Variable :=
  if hn : name = "" then .error (.ofDocument .variableWithoutName)
  else if hd : type = .choice → domain ≠ [] then .ok ⟨name, type, domain, hn, hd⟩
  else .error (.ofDocument (.choiceWithoutDomain name))

/-- A candidate that may be recommended. -/
structure Output where
  name : String
  description : String
  name_ne : name ≠ ""
deriving DecidableEq

def Output.declare (name description : String) : Except Problem Output :=
  if h : name = "" then .error (.ofDocument .outputWithoutName) else .ok ⟨name, description, h⟩

/-- The names that stand in a list after a first occurrence, once for each time. -/
def repeatedNames (names : List String) : List String := go [] names
where
  /-- The repeated names of a list behind names that were seen. -/
  go (seen : List String) : List String → List String
    | [] => []
    | name :: rest =>
      if seen.contains name then name :: go seen rest else go (name :: seen) rest

/-- The declared variables in order, with distinct names. -/
structure Registry where
  toList : List Variable
  distinct : (toList.map (·.name)).Nodup
deriving DecidableEq

namespace Registry

def ofList (list : List Variable) : Except ConfigurationError Registry :=
  if h : (list.map (·.name)).Nodup then .ok ⟨list, h⟩
  else
    .error (.refused ((repeatedNames (list.map (·.name))).map fun name =>
      .ofDocument (.duplicateVariable name)))

def names (registry : Registry) : List String := registry.toList.map (·.name)

def get? (registry : Registry) (name : String) : Option Variable :=
  registry.toList.find? (·.name == name)

def has (registry : Registry) (name : String) : Bool := registry.names.contains name

def text (registry : Registry) : String :=
  "VariableRegistry(" ++ Text.quotedList registry.names ++ ")"

end Registry

end Shortlist
