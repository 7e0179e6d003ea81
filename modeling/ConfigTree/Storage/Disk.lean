import ConfigTree.Entries
import ConfigTree.Storage.Error
import ConfigTree.Storage.FilePath

/-!
# A file system

A `Disk` maps places to files and directories.  A place is the list of names that leads to it from
the root, which is the empty list and always a directory.

Paths are texts that a disk resolves name by name: every name but the last has to be a directory.  A
path that begins with a slash is resolved from the root, and any other from the working directory,
whose place is `home`.  A point stays where it is, two points lead to the directory above, which is
the root itself at the root, and a slash at the end asks for a directory.  There are no links.
-/

namespace ConfigTree

/-- What a file holds. -/
inductive Content where
  | bytes (data : ByteArray)
  /-- As many zero bytes. -/
  | zeros (count : Nat)

/-- The size of a file in bytes. -/
def Content.size : Content → Nat
  | .bytes data => data.size
  | .zeros count => count

/-- The first bytes of what a file holds. -/
def Content.take (count : Nat) : Content → Content
  | .bytes data => .bytes (data.extract 0 count)
  | .zeros size => .zeros (min count size)

/-- The text that a file holds, if it is valid UTF-8. -/
def Content.text? : Content → Option String
  | .bytes data => String.fromUTF8? data
  | .zeros count => some ("".pushn '\x00' count)

/-- What can be at a place. -/
inductive FileNode where
  | file (content : Content)
  | directory

/-- The names that lead to a place from the root. -/
abbrev Place := List String

/-- A file system. -/
abbrev Disk := Entries Place FileNode

namespace Disk

/-- What is at a place. -/
def node? (disk : Disk) (place : Place) : Option FileNode :=
  if place.isEmpty then some .directory else Entries.get? disk place

/-- The longest name that a file can have, in bytes. -/
def maxNameSize : Nat := 255

/-- Goes along names; every name but the last has to be a directory. -/
def walk (disk : Disk) (place : Place) : List String → Except IoKind Place
  | [] => .ok place
  | name :: rest =>
    if maxNameSize < name.utf8ByteSize then .error .invalidFilename
    else
      let next := if name = "." then place
        else if name = ".." then place.dropLast
        else place ++ [name]
      match disk.node? next with
      | none => .error .notFound
      | some (.file _) => if rest.isEmpty then .ok next else .error .notADirectory
      | some .directory => walk disk next rest

/-- The names of a path; a slash at the end counts as a point behind it. -/
def namesOf (path : String) : List String :=
  let parts := (FilePath.splitSlash path.toList).map String.ofList
  let named := parts.filter (· != "")
  if named.isEmpty then (if path = "" then [] else ["."])
  else if parts.getLast? == some "" then named ++ ["."] else named

/-- Where a path begins: at the root, or in the working directory. -/
def startOf (home : Place) (path : String) : Place :=
  if FilePath.isAbsolute path then [] else home

/-- Refuses paths that lead nowhere whatever names are in them: no file system takes them, or there
is no directory where they begin. -/
def checkPath (disk : Disk) (home : Place) (path : String) : Except IoKind Unit :=
  if path.toList.contains '\x00' then .error .invalidInput
  else if path = "" then .error .notFound
  else match disk.node? (startOf home path) with
    | some .directory => .ok ()
    | _ => .error .notFound

/-- The place that a path leads to, which has to exist. -/
def resolve (disk : Disk) (path : String) (home : Place := []) : Except IoKind Place := do
  disk.checkPath home path
  disk.walk (startOf home path) (namesOf path)

/-- What is at a path. -/
def stat (disk : Disk) (path : String) (home : Place := []) : Except IoKind FileNode := do
  match disk.node? (← disk.resolve path home) with
  | some node => return node
  | none => throw .notFound

/-- Is there a directory at this path? -/
def isDirectory (disk : Disk) (path : String) (home : Place := []) : Bool :=
  match disk.stat path home with
  | .ok .directory => true
  | _ => false

/-- Is there a file at this path? -/
def isFile (disk : Disk) (path : String) (home : Place := []) : Bool :=
  match disk.stat path home with
  | .ok (.file _) => true
  | _ => false

/-- The end of a path that is about to be made. -/
structure Target where
  /-- The directory it is in. -/
  parent : Place
  name : String
  /-- Does the path ask for a directory? -/
  wantsDirectory : Bool

/-- Resolves a path except for its last name. -/
def target (disk : Disk) (path : String) (home : Place := []) : Except IoKind Target := do
  disk.checkPath home path
  let names := namesOf path
  let (names, wantsDirectory) :=
    if 1 < names.length && names.getLast? == some "." && path.toList.getLast? == some '/' then
      (names.dropLast, true)
    else (names, false)
  let parent ← disk.walk (startOf home path) names.dropLast
  match disk.node? parent with
  | some .directory =>
    let name := names.getLast?.getD "."
    if maxNameSize < name.utf8ByteSize then throw .invalidFilename
    return ⟨parent, name, wantsDirectory⟩
  | some (.file _) => throw .notADirectory
  | none => throw .notFound

/-- Is the last name one that leads to an existing directory whatever the disk holds? -/
def Target.isFixed (t : Target) : Bool :=
  t.name = "." || t.name = ".."

/-- The place of a target. -/
def Target.place (t : Target) : Place :=
  t.parent ++ [t.name]

/-- Makes a directory. -/
def makeDirectory (disk : Disk) (path : String) (home : Place := []) : Except IoKind Disk := do
  let t ← disk.target path home
  if t.isFixed || (disk.node? t.place).isSome then throw .alreadyExists
  return Entries.insert disk t.place .directory

/-- Opens a file for writing: it is made if it is not there, and emptied if it is. -/
def openFile (disk : Disk) (path : String) (home : Place := []) :
    Except IoKind (Place × Disk) := do
  let t ← disk.target path home
  if t.isFixed || t.wantsDirectory then throw .isADirectory
  match disk.node? t.place with
  | some .directory => throw .isADirectory
  | _ => return (t.place, Entries.insert disk t.place (.file (.bytes .empty)))

/-- Moves a file to another path, over the file that may be there. -/
def rename (disk : Disk) (source : Place) (path : String) (home : Place := []) :
    Except IoKind Disk := do
  let t ← disk.target path home
  if t.isFixed then throw .resourceBusy
  if t.wantsDirectory then throw .notADirectory
  match disk.node? t.place, disk.node? source with
  | some .directory, _ => throw .isADirectory
  | _, some node => return Entries.insert (Entries.erase disk source) t.place node
  | _, none => throw .notFound

/-- The names in a directory, in order. -/
def list (disk : Disk) (path : String) (home : Place := []) : Except IoKind (List String) := do
  let place ← disk.resolve path home
  match disk.node? place with
  | some .directory =>
    let names := (Entries.keys disk).filterMap fun other =>
      if other.dropLast = place && other != [] then other.getLast? else none
    return names.mergeSort fun a b => a ≤ b
  | some (.file _) => throw .notADirectory
  | none => throw .notFound

end Disk

end ConfigTree
