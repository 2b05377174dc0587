import Shortlist.Catalog.Basic
import Shortlist.Text.Identifier
import Shortlist.Text.Order

/-!
# Checking a configuration document

A document is an object with the sections `variables`, `outputs` and `rules`. The first two are
checked first, and the rules only once those are sound, since they are read against them. Every
problem is reported, in the order of the document.
-/

namespace Shortlist.Document

/-- The value under a key, null if there is none. -/
def field (entries : Entries Value) (key : String) : Value := (entries.get? key).getD .null

/-- The items of a list in order, each with its index. -/
def indexed {α : Type} (items : List α) : List (Nat × α) := (List.range items.length).zip items

/-- The text of a name, unless it is missing or empty. -/
def name? (entries : Entries Value) : Option String :=
  match field entries "name" with
  | .text s => if s = "" then none else some s
  | _ => none

def domainDefect? : Value → Option Defect
  | .list [] => some .emptyDomain
  | .list items =>
    match items.mapM Value.text? with
    | none => some .domainNotText
    | some texts => if texts.Nodup then none else some .domainRepeats
  | _ => some .emptyDomain

def typeDefect? (entries : Entries Value) : Option Defect :=
  let type := field entries "type"
  match type.text?.bind VariableType.ofWord? with
  | none => some (.invalidType type)
  | some .choice => domainDefect? (field entries "domain")
  | some _ => none

def variableNameDefect? (seen : List String) : Option String → Option Defect
  | none => some .missingName
  | some name =>
    if !Text.isIdentifier name || Rule.isReserved name then some (.notIdentifier name)
    else if seen.contains name then some (.duplicateName name)
    else none

/-- The problems of declared variables from an index on, given the names before. -/
def variableProblemsFrom (index : Nat) (seen : List String) : List Value → List Problem
  | [] => []
  | .object entries :: rest =>
    let place := Place.variableAt index
    let name := name? entries
    let nameDefect := variableNameDefect? seen name
    let seen := if nameDefect.isNone then name.toList ++ seen else seen
    (nameDefect.toList ++ (typeDefect? entries).toList).map (⟨place, ·⟩) ++
      variableProblemsFrom (index + 1) seen rest
  | _ :: rest =>
    ⟨.variableAt index, .notObject⟩ :: variableProblemsFrom (index + 1) seen rest

def variableProblems : Value → List Problem
  | .list [] => [.ofDocument .variablesNotList]
  | .list items => variableProblemsFrom 0 [] items
  | _ => [.ofDocument .variablesNotList]

def outputNameDefect? (seen : List String) : Option String → Option Defect
  | none => some .missingName
  | some name => if seen.contains name then some (.duplicateName name) else none

def description (entries : Entries Value) : Value :=
  (entries.get? "description").getD (.text "")

def descriptionDefect? (entries : Entries Value) : Option Defect :=
  match description entries with
  | .text _ => none
  | _ => some .descriptionNotText

def outputProblemsFrom (index : Nat) (seen : List String) : List Value → List Problem
  | [] => []
  | .object entries :: rest =>
    let place := Place.outputAt index
    let name := name? entries
    let nameDefect := outputNameDefect? seen name
    let seen := if nameDefect.isNone then name.toList ++ seen else seen
    (nameDefect.toList ++ (descriptionDefect? entries).toList).map (⟨place, ·⟩) ++
      outputProblemsFrom (index + 1) seen rest
  | _ :: rest =>
    ⟨.outputAt index, .notObject⟩ :: outputProblemsFrom (index + 1) seen rest

def outputProblems : Value → List Problem
  | .list [] => [.ofDocument .outputsNotList]
  | .list items => outputProblemsFrom 0 [] items
  | _ => [.ofDocument .outputsNotList]

def bundleKeys : List String :=
  ["mandatory_conditions", "inclusion_rules", "exclusion_rules", "soft_rules"]

def softRuleKeys : List String := ["condition", "weight", "variable"]

def unknownKeyProblems (known : List String) (place : Place) (entries : Entries Value) :
    List Problem :=
  (Text.sorted (entries.names.filter (!known.contains ·))).map (⟨place, .unknownKey ·⟩)

/-- What is wrong with a value that a mandatory condition demands of a variable. -/
def expectedDefect? (v : Variable) (value : Value) : Option Defect :=
  match v.type with
  | .boolean => if value.isBoolean then none else some (.expectedBoolean value)
  | .number =>
    match value with
    | .number n => if n.isFinite then none else some (.expectedNumber value)
    | _ => some (.expectedNumber value)
  | .choice =>
    match value with
    | .text s => if v.domain.contains s then none else some (.notInDomain value)
    | _ => some (.notInDomain value)

/-- The values that a mandatory condition allows: the items of a list, or the value itself. -/
def allowedValues : Value → List Value
  | .list items => items
  | v => [v]

def conditionProblems (registered : Entries Variable) (place : Place) (name : String)
    (expected : Value) : List Problem :=
  match registered.get? name with
  | none => [⟨place, .conditionOnUnknown name⟩]
  | some v =>
    let values := allowedValues expected
    (if values.isEmpty then [⟨place, .conditionWithoutValues name⟩] else []) ++
      (values.filterMap (expectedDefect? v)).map fun reason => ⟨place, .condition name reason⟩

def conditionsProblems (registered : Entries Variable) (place : Place) : Value → List Problem
  | .object entries =>
    entries.flatMap fun entry => conditionProblems registered place entry.1 entry.2
  | _ => [⟨place, .conditionsNotObject⟩]

def ruleListProblems (declared : List String) (output : String) (list : RuleList) :
    Value → Except Fault (List Problem)
  | .list items => do
    let problems ← (indexed items).mapM fun (index, item) =>
      expressionProblems item declared (.rule output list index)
    return problems.flatten
  | _ => .ok [⟨.bundle output, .rulesNotList list⟩]

def subjectProblems (declared : List String) (place : Place) : Value → List Problem
  | .null => []
  | .text name =>
    if declared.contains name then [] else [⟨place, .unknownSubject (.text name)⟩]
  | v => [⟨place, .unknownSubject v⟩]

def softRuleProblems (declared : List String) (place : Place) :
    Value → Except Fault (List Problem)
  | .object entries => do
    let condition ← expressionProblems (field entries "condition") declared place
    let weight := (weightDefect? (field entries "weight")).toList.map (⟨place, ·⟩)
    return unknownKeyProblems softRuleKeys place entries ++ condition ++ weight ++
      subjectProblems declared place (field entries "variable")
  | _ => .ok [⟨place, .notObject⟩]

def softRulesProblems (declared : List String) (output : String) :
    Value → Except Fault (List Problem)
  | .list items => do
    let problems ← (indexed items).mapM fun (index, item) =>
      softRuleProblems declared (.softRule output index) item
    return problems.flatten
  | _ => .ok [⟨.bundle output, .softRulesNotList⟩]

def ruleList (entries : Entries Value) (list : RuleList) : Value :=
  (entries.get? list.key).getD (.list [])

def softRuleList (entries : Entries Value) : Value :=
  (entries.get? "soft_rules").getD (.list [])

def conditions (entries : Entries Value) : Value :=
  (entries.get? "mandatory_conditions").getD (.object [])

def bundleProblems (registered : Entries Variable) (output : String) :
    Value → Except Fault (List Problem)
  | .object entries => do
    let place := Place.bundle output
    let declared := registered.names
    let inclusion ← ruleListProblems declared output .inclusion (ruleList entries .inclusion)
    let exclusion ← ruleListProblems declared output .exclusion (ruleList entries .exclusion)
    let soft ← softRulesProblems declared output (softRuleList entries)
    return unknownKeyProblems bundleKeys place entries ++
      conditionsProblems registered place (conditions entries) ++
      inclusion ++ exclusion ++ soft
  | _ => .ok [⟨.bundle output, .bundleNotObject⟩]

def ruleProblems (registered : Entries Variable) (outputs : List String) :
    Value → Except Fault (List Problem)
  | .object entries => do
    let problems ← entries.mapM fun (output, bundle) => do
      let own ← bundleProblems registered output bundle
      return (if outputs.contains output then []
        else [Problem.mk (.bundle output) .outputNotDeclared]) ++ own
    return problems.flatten
  | _ => .ok [.ofDocument .rulesNotObject]

/-- The section of rules, empty if there is none. -/
def rulesSection (document : Entries Value) : Value :=
  (document.get? "rules").getD (.object [])

def textsOf : Value → List String
  | .list items => items.filterMap Value.text?
  | _ => []

def declaredVariable (entries : Entries Value) : Except Problem Variable :=
  match (field entries "type").text?.bind VariableType.ofWord? with
  | some type =>
    Variable.declare ((name? entries).getD "") type
      (if type = .choice then textsOf (field entries "domain") else [])
  | none => .error (.ofDocument (.invalidType (field entries "type")))

def declaredOutput (entries : Entries Value) : Except Problem Output :=
  Output.declare ((name? entries).getD "") (((description entries).text?).getD "")

def objectsOf : Value → List (Entries Value)
  | .list items => items.filterMap Value.object?
  | _ => []

def readVariables (document : Entries Value) : Except Problem (List Variable) :=
  (objectsOf (field document "variables")).mapM declaredVariable

def readOutputs (document : Entries Value) : Except Problem (List Output) :=
  (objectsOf (field document "outputs")).mapM declaredOutput

def problems (document : Entries Value) : Except Fault (List Problem) :=
  match variableProblems (field document "variables") ++
      outputProblems (field document "outputs") with
  | [] =>
    match readVariables document, readOutputs document with
    | .ok registered, .ok outputs =>
      ruleProblems (Entries.ofList (registered.map fun v => (v.name, v)))
        (outputs.map (·.name)) (rulesSection document)
    | .error problem, _ => .ok [problem]
    | _, .error problem => .ok [problem]
  | found => .ok found

end Shortlist.Document
