import ConfigTree.Storage.Disk

/-!
# Reading and writing files

`Disk.readText` reads a file as text, unless it is too large.

`Disk.writeLocked` never shows a reader half a file: it writes to a temporary file in the same
directory, on which it holds a lock, and then moves this over the target.  It goes through the steps
listed in `WriteStep`, and any of them can fail on its own (`Faults`), also where the disk would
allow it.  The disk is answered with the outcome, because a write that fails may have changed it.

`Disk.writeAtomic` is the same write for callers that know nothing of locks.

As for single operations, `home` is the place of the working directory.
-/

namespace ConfigTree

namespace FilePath

/-- Drops what a path has at its end without leading anywhere: slashes and points. -/
def dropIdle : List (List Char) → List (List Char)
  | [] => []
  | [first] => [first]
  | part :: rest => if part.isEmpty || part = ['.'] then dropIdle rest else part :: rest

/-- A path, given by its parts in reverse. -/
def joinSlash (parts : List (List Char)) : String :=
  match parts with
  | [[]] => "/"
  | _ => String.ofList (['/'].intercalate parts.reverse)

/-- The parts of a path in reverse, beginning with the last one that leads somewhere. -/
def partsOf (path : String) : List (List Char) :=
  dropIdle (splitSlash path.toList).reverse

/-- The directory that a path is in. -/
def parent? (path : String) : Option String :=
  match partsOf path with
  | [] => none
  | [part] => if part.isEmpty then none else some ""
  | _ :: rest => some (joinSlash (dropIdle rest))

/-- The last name of a path, unless the path ends by going upwards. -/
def lastName? (path : String) : Option String :=
  match partsOf path with
  | [] => none
  | part :: _ =>
    if part.isEmpty || part = ['.'] || part = ['.', '.'] then none else some (String.ofList part)

/-- The path of another file in the same directory. -/
def sibling (path name : String) : String :=
  match lastName? path with
  | some _ => match parent? path with
    | some parent =>
      if parent = "" then name
      else if parent = "/" then parent ++ name
      else parent ++ "/" ++ name
    | none => name
  | none =>
    if path = "" then name
    else if path.toList.getLast? == some '/' then path ++ name
    else path ++ "/" ++ name

/-- The path of the temporary file of a process for writing to a path. -/
def temporary (process path : String) : String :=
  sibling path ("." ++ (lastName? path).getD "" ++ "." ++ process ++ ".tmp")

end FilePath

/-- The steps of writing a file. -/
inductive WriteStep where
  /-- One of the directories that the file is in is made. -/
  | makeDirectory (path : String)
  | openTemporary
  | lockTemporary
  | writeTemporary
  | syncTemporary
  | unlockTemporary
  | moveToTarget
deriving DecidableEq, Repr

/-- What fails on its own. -/
structure Faults where
  /-- Which steps fail, and how. -/
  kind? : WriteStep → Option IoKind
  /-- How many bytes have been written when writing fails. -/
  written : Nat

/-- No step fails on its own. -/
def Faults.none : Faults := ⟨fun _ => Option.none, 0⟩

/-- Runs a step, unless it fails on its own. -/
def Faults.attempt {α : Type} (faults : Faults) (step : WriteStep) (result : Except IoKind α) :
    Except IoKind α :=
  match faults.kind? step with
  | some kind => .error kind
  | Option.none => result

namespace Disk

/-- Reads a file as text. -/
def readText (disk : Disk) (path : String) (home : Place := []) : Except FileError String :=
  match disk.stat path home with
  | .error kind => .error (.io path kind)
  | .ok .directory => .error (.io path .isADirectory)
  | .ok (.file content) =>
    if maxFileSize < content.size then .error (.tooLarge path content.size)
    else match content.text? with
      | some text => .ok text
      | none => .error (.io path .invalidData)

/-- Makes a directory and those it is in, as far as they are missing.  What has been made stays if
a later directory cannot be made. -/
def createDirectories (faults : Faults) (home : Place) :
    (fuel : Nat) → Disk → String → Except IoKind Unit × Disk
  | 0, disk, _ => (.error .other, disk)
  | fuel + 1, disk, path =>
    if path = "" then (.ok (), disk)
    else match faults.attempt (.makeDirectory path) (disk.makeDirectory path home) with
      | .ok disk => (.ok (), disk)
      | .error .notFound => match FilePath.parent? path with
        | none => (.error .other, disk)
        | some parent => match createDirectories faults home fuel disk parent with
          | (.error kind, disk) => (.error kind, disk)
          | (.ok _, disk) =>
            match faults.attempt (.makeDirectory path) (disk.makeDirectory path home) with
            | .ok disk => (.ok (), disk)
            | .error kind => (if disk.isDirectory path home then .ok () else .error kind, disk)
      | .error kind => (if disk.isDirectory path home then .ok () else .error kind, disk)

/-- Makes a directory and those it is in, if all of them can be made. -/
def makeDirectories (fuel : Nat) (disk : Disk) (path : String) (home : Place := []) :
    Except IoKind Disk :=
  match createDirectories Faults.none home fuel disk path with
  | (.ok _, disk) => .ok disk
  | (.error kind, _) => .error kind

/-- Makes the directories that a file needs. -/
def makeParents (faults : Faults) (disk : Disk) (path : String) (home : Place := []) :
    Except WriteError Unit × Disk :=
  match FilePath.parent? path with
  | none => (.ok (), disk)
  | some parent =>
    if parent = "" then (.ok (), disk)
    else match createDirectories faults home (parent.length + 2) disk parent with
      | (.ok _, disk) => (.ok (), disk)
      | (.error kind, disk) => (.error (.file (.io parent kind)), disk)

/-- Makes the directories that a file needs, and opens its temporary file there. -/
def openTemporary (faults : Faults) (process : String) (disk : Disk) (path : String)
    (home : Place := []) : Except WriteError Place × Disk :=
  match makeParents faults disk path home with
  | (.error e, disk) => (.error e, disk)
  | (.ok _, disk) =>
    let temporary := FilePath.temporary process path
    match faults.attempt .openTemporary (disk.openFile temporary home) with
    | .error kind => (.error (.file (.io temporary kind)), disk)
    | .ok (place, disk) => (.ok place, disk)

/-- Writes to the temporary file, which has been opened at a place, under a lock. -/
def fillTemporary (faults : Faults) (process : String) (disk : Disk) (place : Place) (path : String)
    (content : Content) : Except WriteError Unit × Disk :=
  let holding (content : Content) : Disk := Entries.insert disk place (.file content)
  let failed (kind : IoKind) : WriteError := .file (.io (FilePath.temporary process path) kind)
  match faults.attempt .lockTemporary (.ok ()) with
  | .error _ => (.error (.lockFailed path), disk)
  | .ok _ => match faults.attempt .writeTemporary (.ok ()) with
    | .error kind => (.error (failed kind), holding (content.take faults.written))
    | .ok _ => match faults.attempt .syncTemporary (.ok ()) with
      | .error kind => (.error (failed kind), holding content)
      | .ok _ => match faults.attempt .unlockTemporary (.ok ()) with
        | .error _ => (.error (.lockFailed path), holding content)
        | .ok _ => (.ok (), holding content)

/-- Writes a file so that no reader sees a part of it.  `process` is a text that no other process
uses for its temporary files. -/
def writeLocked (faults : Faults) (process : String) (disk : Disk) (path : FilePath)
    (content : Content) (home : Place := []) : Except WriteError Unit × Disk :=
  match openTemporary faults process disk path.text home with
  | (.error e, disk) => (.error e, disk)
  | (.ok place, disk) => match fillTemporary faults process disk place path.text content with
    | (.error e, disk) => (.error e, disk)
    | (.ok _, disk) => match faults.attempt .moveToTarget (disk.rename place path.text home) with
      | .error kind => (.error (.file (.io path.text kind)), disk)
      | .ok disk => (.ok (), disk)

/-- Writes a file so that no reader sees a part of it. -/
def writeAtomic (faults : Faults) (process : String) (disk : Disk) (path : FilePath)
    (content : Content) (home : Place := []) : Except FileError Unit × Disk :=
  let (outcome, disk) := disk.writeLocked faults process path content home
  (outcome.mapError WriteError.toFileError, disk)

/-- Writes a text to a file. -/
def writeText (process : String) (disk : Disk) (path : FilePath) (text : String)
    (home : Place := []) : Except FileError Unit × Disk :=
  disk.writeAtomic Faults.none process path (.bytes text.toUTF8) home

end Disk

end ConfigTree
