import Shortlist.Catalog.Document

/-!
# Documents of the first version

Documents of version 0 have the sections `entradas`, `salidas` and `reglas`, with Spanish keys
inside. They are brought to version 1 before they are checked: the known keys are renamed, what
has another shape is carried over as it is, so that the check reports it.
-/

namespace Shortlist.Document

def currentVersion : Int := 1

def isSupportedVersion (n : Number) : Bool := n.equal (.int 0) || n.equal (.int currentVersion)

/-- The version of a document that states none, if it has the section of version 0 or not. -/
def impliedVersion (hasLegacySection : Bool) : Number :=
  .int (if hasLegacySection then 0 else currentVersion)

/-- The version of a document: the one that it states, or the one that its keys show. -/
def version (document : Entries Value) : Except ConfigurationError Number :=
  match document.get? "schema_version" with
  | some (.number n) =>
    if isSupportedVersion n then .ok n else .error (.ofDefect (.unsupportedVersion (.number n)))
  | some v => .error (.ofDefect (.unsupportedVersion v))
  | none => .ok (impliedVersion (document.has "entradas"))

/-- Whether characters occur in a row in others. -/
def occursIn (part : List Char) : List Char → Bool
  | [] => part.isEmpty
  | c :: cs => part.isPrefixOf (c :: cs) || occursIn part cs

/-- Whether a list or a text mentions a word; no other value can. -/
def mentions? (word : String) : Value → Option Bool
  | .list items => some (items.any fun item => item.text? == some word)
  | .text s => some (occursIn word.toList s.toList)
  | _ => none

/-- The version of a value in the place of a document. A list or a text may mention the section of
version 0, but it cannot state a version. -/
def versionOfValue : Value → Except ConfigurationError Number
  | .object document => version document
  | v =>
    match mentions? "schema_version" v, mentions? "entradas" v with
    | some false, some legacy => .ok (impliedVersion legacy)
    | _, _ => .error (.fault .withoutKeys)

def legacyTypes : Entries String :=
  [("booleano", "boolean"), ("numero", "number"), ("texto", "enum")]

def legacyBundleKeys : Entries String :=
  [("condiciones_obligatorias", "mandatory_conditions"), ("reglas_inclusion", "inclusion_rules"),
   ("reglas_exclusion", "exclusion_rules"), ("reglas_blandas", "soft_rules")]

def legacySoftRuleKeys : Entries String :=
  [("condicion", "condition"), ("apoyo", "weight"), ("variable", "variable")]

/-- A word in its new spelling; a word without one is kept. -/
def renamed (table : Entries String) (word : String) : String := (table.get? word).getD word

/-- Entries with their keys in the new spelling. Of two keys that become the same, the later one
gives the value. -/
def renameKeys (table : Entries String) (entries : Entries Value) : Entries Value :=
  .ofList (entries.map fun entry => (renamed table entry.1, entry.2))

/-- A value changed if it is an object, otherwise kept. -/
def onObject (f : Entries Value → Entries Value) : Value → Value
  | .object entries => .object (f entries)
  | v => v

/-- A value whose items are changed if it is a list, otherwise kept. -/
def onItems (f : Value → Value) : Value → Value
  | .list items => .list (items.map f)
  | v => v

/-- A declared variable. Only its name, type and choices are carried over. -/
def migrateVariable (entries : Entries Value) : Entries Value :=
  let type := match field entries "tipo" with
    | .text word => .text (renamed legacyTypes word)
    | v => v
  let choices := field entries "opciones"
  [("name", field entries "nombre"), ("type", type)] ++
    (if choices.isTruthy then [("domain", choices)] else [])

/-- A declared output. Only its name and description are carried over. -/
def migrateOutput (entries : Entries Value) : Entries Value :=
  [("name", field entries "nombre"),
   ("description", (entries.get? "descripcion").getD (.text ""))]

def migrateBundle (entries : Entries Value) : Entries Value :=
  let bundle := renameKeys legacyBundleKeys entries
  match bundle.get? "soft_rules" with
  | some (.list items) =>
    bundle.insert "soft_rules" (.list (items.map (onObject (renameKeys legacySoftRuleKeys))))
  | _ => bundle

/-- A document of version 0 as one of the current version. -/
def migrate (document : Entries Value) : Entries Value :=
  [("schema_version", .int currentVersion),
   ("variables", onItems (onObject migrateVariable) (field document "entradas")),
   ("outputs", onItems (onObject migrateOutput) (field document "salidas")),
   ("rules", onObject (Entries.mapValues fun _ => onObject migrateBundle)
     ((document.get? "reglas").getD (.object [])))]

end Shortlist.Document
