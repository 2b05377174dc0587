/-!
# Paths

A path is read into its parts. Empty parts and single dots say nothing and are dropped; a part of
two dots stays, since the folder before it may not exist. Two slashes at the start are kept apart
from one, and any other number of them counts as one.
-/

namespace Shortlist

/-- A path: the slashes at its start and its parts. -/
structure Path where
  root : String
  parts : List String
deriving DecidableEq, Repr

namespace Path

/-- The parts of characters between slashes, behind the characters of a part that has begun, in
reverse order. -/
def splitAtSlashes (part : List Char) : List Char → List String
  | [] => [String.ofList part.reverse]
  | c :: rest =>
    if c = '/' then String.ofList part.reverse :: splitAtSlashes [] rest
    else splitAtSlashes (c :: part) rest

/-- Whether a part leads anywhere. -/
def isTelling (part : String) : Bool := part != "" && part != "."

/-- The root that a number of slashes at the start stands for. -/
def rootOf : Nat → String
  | 0 => ""
  | 2 => "//"
  | _ => "/"

def ofText (text : String) : Path :=
  let slashes := (text.toList.takeWhile (· == '/')).length
  ⟨rootOf slashes, (splitAtSlashes [] text.toList).filter isTelling⟩

def text (path : Path) : String :=
  if path.root = "" ∧ path.parts = [] then "."
  else path.root ++ "/".intercalate path.parts

end Path

end Shortlist
