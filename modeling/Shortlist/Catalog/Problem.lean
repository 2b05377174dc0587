import Shortlist.Rule.Truth

/-!
# Problems of a configuration

A problem is a defect at a place. All problems of a configuration are reported together, so they
are collected as data and put into words at the end; a defect that quotes a value that cannot be
written is a fault there.
-/

namespace Shortlist

inductive RuleList
  | inclusion
  | exclusion
deriving DecidableEq, Repr

def RuleList.key : RuleList → String
  | .inclusion => "inclusion_rules"
  | .exclusion => "exclusion_rules"

inductive Place
  | document
  | variableAt (index : Nat)
  | outputAt (index : Nat)
  | bundle (output : String)
  | rule (output : String) (list : RuleList) (index : Nat)
  | softRule (output : String) (index : Nat)
  | named (text : String)
deriving DecidableEq, Repr

/-- What stands in front of the defects of a bundle. -/
def Place.bundleText (output : String) : String := "rules '" ++ output ++ "'"

def Place.indexed (list : String) (index : Nat) : String :=
  list ++ "[" ++ toString index ++ "]"

/-- The wording of a place; the document as a whole has none. -/
def Place.text? : Place → Option String
  | .document => none
  | .variableAt index => some ("variable " ++ toString index)
  | .outputAt index => some ("output " ++ toString index)
  | .bundle name => some (bundleText name)
  | .rule name list index => some (bundleText name ++ " " ++ indexed list.key index)
  | .softRule name index => some (bundleText name ++ " " ++ indexed "soft_rules" index)
  | .named text => some text

inductive Defect
  | configurationNotObject
  | unsupportedVersion (version : Value)
  | fileNotFound (path : String)
  | invalidJson (path : String) (message : String)
  | variablesNotList
  | outputsNotList
  | rulesNotObject
  | notObject
  | missingName
  | notIdentifier (name : String)
  | duplicateName (name : String)
  | invalidType (type : Value)
  | emptyDomain
  | domainNotText
  | domainRepeats
  | descriptionNotText
  | outputNotDeclared
  | declaredTwice
  | bundleNotObject
  | unknownKey (key : String)
  | conditionsNotObject
  | conditionOnUnknown (name : String)
  | conditionWithoutValues (name : String)
  | condition (name : String) (reason : Defect)
  | expectedBoolean (value : Value)
  | expectedNumber (value : Value)
  | notInDomain (value : Value)
  | rulesNotList (list : RuleList)
  | softRulesNotList
  | emptyExpression
  | unreadableExpression (e : Rule.SyntaxError)
  | unknownVariable (name : String)
  | unknownSubject (subject : Value)
  | unknownSoftSubject (name : String)
  | softRule (condition : String) (reason : Defect)
  | weightNotNumber (weight : Value)
  | weightNotFinite
  | weightOutOfRange
  | variableWithoutName
  | choiceWithoutDomain (name : String)
  | outputWithoutName
  | duplicateVariable (name : String)
  | duplicateOutput (name : String)

def inQuotes (s : String) : String := "'" ++ s ++ "'"

def Defect.text : Defect → Except Fault String
  | .configurationNotObject => .ok "configuration must be an object"
  | .unsupportedVersion version => do
    return "unsupported schema_version " ++ (← version.written?)
  | .fileNotFound path => .ok ("configuration file not found: " ++ path)
  | .invalidJson path message => .ok (path ++ ": invalid JSON (" ++ message ++ ")")
  | .variablesNotList => .ok "variables must be a non-empty list"
  | .outputsNotList => .ok "outputs must be a non-empty list"
  | .rulesNotObject => .ok "rules must be an object keyed by output name"
  | .notObject => .ok "must be an object"
  | .missingName => .ok "missing name"
  | .notIdentifier name => .ok (inQuotes name ++ " is not a valid identifier")
  | .duplicateName name => .ok ("duplicate name " ++ inQuotes name)
  | .invalidType type => do return "invalid type " ++ (← type.written?)
  | .emptyDomain => .ok "enum type requires a non-empty domain"
  | .domainNotText => .ok "domain values must be text"
  | .domainRepeats => .ok "domain contains duplicates"
  | .descriptionNotText => .ok "description must be text"
  | .outputNotDeclared => .ok "output not declared"
  | .declaredTwice => .ok "declared twice"
  | .bundleNotObject => .ok "bundle must be an object"
  | .unknownKey key => .ok ("unknown key " ++ inQuotes key)
  | .conditionsNotObject => .ok "mandatory_conditions must be an object"
  | .conditionOnUnknown name =>
    .ok ("unknown variable " ++ inQuotes name ++ " in mandatory_conditions")
  | .conditionWithoutValues name =>
    .ok ("mandatory condition on " ++ inQuotes name ++ " allows no values")
  | .condition name reason => do
    return "mandatory condition on " ++ inQuotes name ++ ": " ++ (← reason.text)
  | .expectedBoolean value => do return "expected a boolean, got " ++ (← value.written?)
  | .expectedNumber value => do return "expected a number, got " ++ (← value.written?)
  | .notInDomain value => do return (← value.written?) ++ " is not in the domain"
  | .rulesNotList list => .ok (list.key ++ " must be a list")
  | .softRulesNotList => .ok "soft_rules must be a list"
  | .emptyExpression => .ok "expression must be non-empty text"
  | .unreadableExpression e => .ok e.message
  | .unknownVariable name => .ok ("unknown variable " ++ inQuotes name)
  | .unknownSubject subject => do
    return "unknown variable " ++ inQuotes (← subject.plain?)
  | .unknownSoftSubject name => .ok ("unknown soft rule variable " ++ inQuotes name)
  | .softRule text reason => do
    return "soft rule " ++ Text.quoted text ++ ": " ++ (← reason.text)
  | .weightNotNumber weight => do return "weight must be a number, got " ++ (← weight.written?)
  | .weightNotFinite => .ok "weight must be a finite number"
  | .weightOutOfRange => .ok "weight must be between -1e+06 and 1e+06"
  | .variableWithoutName => .ok "variable name is required"
  | .choiceWithoutDomain name =>
    .ok ("variable " ++ inQuotes name ++ " is enumerated but declares no domain")
  | .outputWithoutName => .ok "output name is required"
  | .duplicateVariable name => .ok ("duplicate variable name " ++ inQuotes name)
  | .duplicateOutput name => .ok ("duplicate output name " ++ inQuotes name)

structure Problem where
  place : Place
  defect : Defect

namespace Problem

def ofDocument (defect : Defect) : Problem := ⟨.document, defect⟩

def text (problem : Problem) : Except Fault String := do
  let defect ← problem.defect.text
  match problem.place.text? with
  | some place => return place ++ ": " ++ defect
  | none => return defect

def texts (problems : List Problem) : Except Fault (List String) := problems.mapM text

/-- The report on the texts of problems: a single one speaks for itself. -/
def report : List String → String
  | [text] => text
  | texts => toString texts.length ++ " configuration problems: " ++ "; ".intercalate texts

end Problem

/-- Why there is no catalog: the configuration has problems, or a fault stops the loading. -/
inductive ConfigurationError
  | refused (problems : List Problem)
  | fault (f : Fault)

/-- Refuses a configuration for one problem of the document as a whole. -/
def ConfigurationError.ofDefect (defect : Defect) : ConfigurationError :=
  .refused [.ofDocument defect]

end Shortlist
