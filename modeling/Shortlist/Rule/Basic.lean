import Shortlist.Rule.Parser

/-!
# Rules

A rule is a text together with its tree and the names it uses. A document may hand in any value
where a rule is expected; only a text can be read as one.
-/

namespace Shortlist

structure Rule where
  text : String
  tree : Rule.Expr
  names : List String
deriving DecidableEq

namespace Rule

def read (text : String) : Except ReadError Rule := do
  let tree ← parse text
  return ⟨text, tree, ← identifiers text⟩

def textOf : Value → Except ReadError String
  | .text s => .ok s
  | v => do
    let text ← v.written?.mapError .fault
    .error (.malformed ⟨.notText, none, text⟩)

/-- Reads a value as a rule. Rules are looked up by their text, so a value that cannot be a key
cannot be a rule either. -/
def ofValue (v : Value) : Except ReadError Rule :=
  if v.isKey then textOf v >>= read else .error (.fault .notAKey)

/-- The declared variables that a rule refers to, in order of first use. -/
def dependencies (rule : Rule) (declared : List String) : List String :=
  rule.names.filter declared.contains

end Rule

end Shortlist
