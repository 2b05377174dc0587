import Shortlist.Catalog.Legacy

/-!
# Loading a catalog

A document is brought to the current version and checked; if it has no problems, its sections are
read as variables, outputs and bundles, and these are checked once more as a catalog.
-/

namespace Shortlist

namespace Document

/-- The entries of an object; any other value is a fault. -/
def entries : Value → Except Fault (Entries Value)
  | .object found => .ok found
  | _ => .error .notAnObject

/-- The document in the current version. -/
def current (document : Entries Value) : Except ConfigurationError (Entries Value) := do
  let stated ← version document
  return if stated.isZero then migrate document else document

def softRule (entries : Entries Value) : SoftRule :=
  { condition := ((field entries "condition").text?).getD ""
    weight := field entries "weight"
    subject := (field entries "variable").text? }

def expectations : Value → Except Fault (Entries Expected)
  | .object found => found.mapM fun (name, value) => do return (name, ← Expected.ofValue value)
  | _ => .ok []

def bundle (output : String) (v : Value) : Except Fault Bundle := do
  let found := (v.object?).getD []
  return {
    output := output
    conditions := ← expectations (conditions found)
    inclusions := textsOf (ruleList found .inclusion)
    exclusions := textsOf (ruleList found .exclusion)
    softRules := (objectsOf (softRuleList found)).map softRule }

def readBundles (document : Entries Value) : Except Fault (List Bundle) :=
  (((rulesSection document).object?).getD []).mapM fun (output, v) => bundle output v

end Document

namespace Catalog

def refuseOne {α : Type} : Except Problem α → Except ConfigurationError α
  | .ok a => .ok a
  | .error problem => .error (.refused [problem])

def ofCurrent (document : Entries Value) : Except ConfigurationError Catalog := do
  match ← (Document.problems document).mapError .fault with
  | [] =>
    let registry ← Registry.ofList (← refuseOne (Document.readVariables document))
    let outputs ← refuseOne (Document.readOutputs document)
    let bundles ← (Document.readBundles document).mapError .fault
    build registry outputs bundles
  | problems => throw (.refused problems)

def load : Value → Except ConfigurationError Catalog
  | .object document => do ofCurrent (← Document.current document)
  | _ => .error (.ofDefect .configurationNotObject)

/-- Whether the section of variables of a document in three parts is of version 0: its first entry
has a key of that version. -/
def looksLegacy : Value → Bool
  | .list (.object entries :: _) => Entries.has entries "nombre"
  | _ => false

def joinSections (first second third : Value) : Value :=
  if looksLegacy first then
    .object [("entradas", first), ("salidas", second), ("reglas", third)]
  else
    .object [("schema_version", .int Document.currentVersion), ("variables", first),
      ("outputs", second), ("rules", third)]

end Catalog

end Shortlist
