import Shortlist.Fault
import Shortlist.Files.Path

/-!
# Folders

A folder holds files below it. A path is followed part by part from there; it leads to a file, to
nothing, or to a fault. Nothing is known of the folders above, but that they exist.
-/

namespace Shortlist

/-- The files below a folder, each with the parts of its path. -/
abbrev Folder := List (List String × ByteArray)

/-- Finds the bytes of a file; none if there is no file at the path. -/
abbrev Files := Path → Except Fault (Option ByteArray)

namespace Folder

/-- Where a path leads. -/
inductive Location
  | file (bytes : ByteArray)
  | folder (parts : List String)
  | outside

def maxPartBytes : Nat := 255

def pathBytesLimit : Nat := 4096

def child? (folder : Folder) (parts : List String) : Option Location :=
  match folder.find? (·.1 == parts) with
  | some (_, bytes) => some (.file bytes)
  | none => if folder.any fun entry => parts.isPrefixOf entry.1 then some (.folder parts) else none

def step (folder : Folder) (location : Location) (part : String) :
    Except Fault (Option Location) :=
  match location with
  | .file _ => .error .notADirectory
  | .outside =>
    if part = ".." then .ok (some .outside)
    else if maxPartBytes < part.utf8ByteSize then .error .nameTooLong
    else .ok none
  | .folder parts =>
    if part = ".." then .ok (some (if parts = [] then .outside else .folder parts.dropLast))
    else if maxPartBytes < part.utf8ByteSize then .error .nameTooLong
    else .ok (folder.child? (parts ++ [part]))

def follow (folder : Folder) (location : Location) :
    List String → Except Fault (Option Location)
  | [] => .ok (some location)
  | part :: rest => do
    match ← folder.step location part with
    | some next => folder.follow next rest
    | none => return none

def files (folder : Folder) : Files := fun path => do
  if path.text.toList.contains '\x00' then throw .zeroInPath
  if pathBytesLimit ≤ path.text.utf8ByteSize then throw .nameTooLong
  match ← folder.follow (if path.root = "" then .folder [] else .outside) path.parts with
  | some (.file bytes) => return some bytes
  | some _ => throw .isDirectory
  | none => return none

end Folder

end Shortlist
