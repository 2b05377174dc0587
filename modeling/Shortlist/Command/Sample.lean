import Shortlist.Value.Basic

/-!
# The sample configuration

The configuration that is used where none is named.
-/

namespace Shortlist.Command

def variableEntry (name type : String) (domain : List String) : Value :=
  .object ([("name", .text name), ("type", .text type)] ++
    if domain.isEmpty then [] else [("domain", .list (domain.map .text))])

def outputEntry (name description : String) : Value :=
  .object [("name", .text name), ("description", .text description)]

def residentialBundle : Value :=
  .object [("inclusion_rules", .list [.text "tipo == \"Residencial\""]),
    ("soft_rules", .list [.object [("condition", .text "potencia > 5"),
      ("weight", .double (Binary64.ofInt 1))]])]

def industrialBundle : Value :=
  .object [("inclusion_rules", .list [.text "tipo == \"Industrial\""])]

def sample : Value :=
  .object [
    ("schema_version", .int 1),
    ("variables", .list [variableEntry "tipo" "enum" ["Residencial", "Industrial"],
      variableEntry "potencia" "number" []]),
    ("outputs", .list [outputEntry "A" "Residential connection",
      outputEntry "B" "Industrial connection"]),
    ("rules", .object [("A", residentialBundle), ("B", industrialBundle)])]

end Shortlist.Command
