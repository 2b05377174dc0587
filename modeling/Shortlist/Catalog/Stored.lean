import Shortlist.Catalog.Loading
import Shortlist.Files.Folder
import Shortlist.Json.Reader

/-!
# Catalogs stored in files

A catalog is stored as one JSON text, or as three, one for each section. The files are read one
after the other, and the first that cannot be read ends the loading.
-/

namespace Shortlist.Catalog

/-- Characters with every end of a line written as a line feed. -/
def normalizeNewlines : List Char → List Char
  | '\r' :: '\n' :: rest => '\n' :: normalizeNewlines rest
  | c :: rest => (if c = '\r' then '\n' else c) :: normalizeNewlines rest
  | [] => []

def textOfBytes (bytes : ByteArray) : Except Fault String :=
  match String.fromUTF8? bytes with
  | some text => .ok (String.ofList (normalizeNewlines text.toList))
  | none => .error .notUtf8

def valueOfText (path : Path) (text : String) : Except ConfigurationError Value :=
  (Json.read text).mapError fun
    | .invalid e => .ofDefect (.invalidJson path.text (e.message text.toList))
    | .fault f => .fault f

def readStored (files : Files) (path : Path) : Except ConfigurationError Value := do
  match ← (files path).mapError .fault with
  | some bytes => valueOfText path (← (textOfBytes bytes).mapError .fault)
  | none => throw (.ofDefect (.fileNotFound path.text))

def loadFile (files : Files) (path : String) : Except ConfigurationError Catalog := do
  load (← readStored files (.ofText path))

def loadFiles (files : Files) (first second third : String) :
    Except ConfigurationError Catalog := do
  let first ← readStored files (.ofText first)
  let second ← readStored files (.ofText second)
  let third ← readStored files (.ofText third)
  load (joinSections first second third)

end Shortlist.Catalog
