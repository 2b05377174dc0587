import Shortlist.Entries
import Shortlist.Text.Blank
import Shortlist.Text.Quoted

/-!
# Answers on a command line

An answer on a command line is a pair: the name of a variable and the text that is given for it,
with an equals sign between them. Further equals signs belong to the text.
-/

namespace Shortlist.Command

structure PairError where
  pair : String
deriving DecidableEq, Repr

def PairError.message (e : PairError) : String := "expected name=value, got " ++ Text.quoted e.pair

/-- The name and the text of a pair, both without the blank characters around them. -/
def readPair (pair : String) : Except PairError (String × String) :=
  let name := Text.trim (String.ofList (pair.toList.takeWhile (· != '=')))
  match pair.toList.dropWhile (· != '=') with
  | _ :: text =>
    if name = "" then .error ⟨pair⟩ else .ok (name, Text.trim (String.ofList text))
  | [] => .error ⟨pair⟩

/-- Reads pairs into texts by name. The last pair of a name wins, at the place of the first. -/
def readPairs (pairs : List String) : Except PairError (Entries String) := do
  return Entries.ofList (← pairs.mapM readPair)

end Shortlist.Command
