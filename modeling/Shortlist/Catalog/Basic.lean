import Shortlist.Catalog.Bundle

/-!
# Catalogs

A catalog is a configuration that has been found sound: the declared variables, the outputs in
order, and a bundle of rules for some of them. Soundness is part of the type, so every catalog has
distinct outputs, bundles of declared outputs only, and rules that can be read and name declared
variables only.
-/

namespace Shortlist

def maxWeight : Int := 1000000

/-- What is wrong with a weight. A missing weight is fine. -/
def weightDefect? : Value → Option Defect
  | .null => none
  | .number n =>
    if !n.isFinite then some .weightNotFinite
    else if (Number.int maxWeight).less n || n.less (.int (-maxWeight)) then
      some .weightOutOfRange
    else none
  | weight => some (.weightNotNumber weight)

/-- The problems of a value that stands where a rule is expected: it has to be a text that can be
read and names declared variables only. -/
def expressionProblems (v : Value) (declared : List String) (place : Place) :
    Except Fault (List Problem) :=
  match v with
  | .text text =>
    if Text.isBlankText text then .ok [⟨place, .emptyExpression⟩]
    else
      match Rule.read text with
      | .ok rule =>
        .ok ((rule.names.filter (!declared.contains ·)).map (⟨place, .unknownVariable ·⟩))
      | .error (.malformed e) => .ok [⟨place, .unreadableExpression e⟩]
      | .error (.fault f) => .error f
  | _ => .ok [⟨place, .emptyExpression⟩]

namespace Bundle

def softRuleProblems (registry : Registry) (place : Place) (rule : SoftRule) : List Problem :=
  (match rule.subject with
    | some name => if registry.has name then [] else [⟨place, .unknownSoftSubject name⟩]
    | none => []) ++
  (match weightDefect? rule.weight with
    | some defect => [⟨place, .softRule rule.condition defect⟩]
    | none => [])

def problems (registry : Registry) (bundle : Bundle) : Except Fault (List Problem) := do
  let place := Place.bundle bundle.output
  let conditions := (bundle.conditions.names.filter (!registry.has ·)).map fun name =>
    Problem.mk place (.conditionOnUnknown name)
  let texts ← bundle.allTexts.mapM fun text =>
    expressionProblems (.text text) registry.names place
  return conditions ++ texts.flatten ++
    bundle.softRules.flatMap (softRuleProblems registry place)

end Bundle

namespace Catalog

def bundleProblems (registry : Registry) (outputs : List String) :
    (seen : List String) → List Bundle → Except Fault (List Problem)
  | _, [] => .ok []
  | seen, bundle :: rest => do
    let place := Place.bundle bundle.output
    let undeclared :=
      if outputs.contains bundle.output then [] else [Problem.mk place .outputNotDeclared]
    let twice := if seen.contains bundle.output then [Problem.mk place .declaredTwice] else []
    let own ← bundle.problems registry
    let others ← bundleProblems registry outputs (bundle.output :: seen) rest
    return undeclared ++ twice ++ own ++ others

def problems (registry : Registry) (outputs : List Output) (bundles : List Bundle) :
    Except Fault (List Problem) := do
  let names := outputs.map (·.name)
  let repeated := (repeatedNames names).map fun name =>
    Problem.ofDocument (.duplicateOutput name)
  return repeated ++ (← bundleProblems registry names [] bundles)

end Catalog

/-- A sound configuration. -/
structure Catalog where
  registry : Registry
  outputs : List Output
  bundles : List Bundle
  sound : Catalog.problems registry outputs bundles = .ok []

namespace Catalog

/-- The catalog of a configuration without problems. -/
def build (registry : Registry) (outputs : List Output) (bundles : List Bundle) :
    Except ConfigurationError Catalog :=
  match h : problems registry outputs bundles with
  | .ok [] => .ok ⟨registry, outputs, bundles, h⟩
  | .ok (problem :: rest) => .error (.refused (problem :: rest))
  | .error f => .error (.fault f)

def declared (catalog : Catalog) : List String := catalog.registry.names

def bundleFor? (catalog : Catalog) (output : String) : Option Bundle :=
  catalog.bundles.find? (·.output == output)

def output? (catalog : Catalog) (name : String) : Option Output :=
  catalog.outputs.find? (·.name == name)

def text (catalog : Catalog) : String :=
  "RuleCatalog(variables=" ++ toString catalog.registry.toList.length ++
    ", outputs=" ++ toString catalog.outputs.length ++
    ", bundles=" ++ toString catalog.bundles.length ++ ")"

/-- What is worth saying about a catalog that has been loaded: outputs without rules. -/
def warnings (catalog : Catalog) : List String :=
  let missing := (catalog.outputs.map (·.name)).filter fun name =>
    (catalog.bundleFor? name).isNone
  if missing.isEmpty then []
  else ["Outputs without rules can never be feasible: " ++ Text.quotedList missing]

end Catalog

end Shortlist
