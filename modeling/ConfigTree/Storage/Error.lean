import ConfigTree.Text.Digits

/-!
# What can go wrong with a file
-/

namespace ConfigTree

/-- Why the file system refuses an operation. -/
inductive IoKind where
  | notFound
  | permissionDenied
  | alreadyExists
  | isADirectory
  | notADirectory
  | invalidInput
  | invalidData
  | invalidFilename
  | resourceBusy
  | storageFull
  | other
deriving DecidableEq, Repr

/-- What the file system says about it. -/
def IoKind.message : IoKind → String
  | .notFound => "No such file or directory (os error 2)"
  | .permissionDenied => "Permission denied (os error 13)"
  | .alreadyExists => "File exists (os error 17)"
  | .isADirectory => "Is a directory (os error 21)"
  | .notADirectory => "Not a directory (os error 20)"
  | .invalidInput => "file name contained an unexpected NUL byte"
  | .invalidData => "stream did not contain valid UTF-8"
  | .invalidFilename => "File name too long (os error 36)"
  | .resourceBusy => "Device or resource busy (os error 16)"
  | .storageFull => "No space left on device (os error 28)"
  | .other => "Input/output error (os error 5)"

/-- The size in bytes of the largest file that is read. -/
def maxFileSize : Nat := 16 * 1024 * 1024

/-- Why a file is not read or written. -/
inductive FileError where
  | io (path : String) (kind : IoKind)
  | unsupportedFormat (extension : String)
  | tooLarge (path : String) (size : Nat)
deriving DecidableEq, Repr

/-- The message of a file error. -/
def FileError.message : FileError → String
  | .io path kind => "I/O error at " ++ path ++ ": " ++ kind.message
  | .unsupportedFormat extension => "Unsupported parameter file format: " ++ extension
  | .tooLarge path size =>
    "Parameter file too large: " ++ path ++ " is " ++ Text.showNat size ++ " bytes (max " ++
      Text.showNat maxFileSize ++ ")"

/-- Why a file is not written. -/
inductive WriteError where
  | file (cause : FileError)
  /-- The lock on the temporary file is not given, or not given back. -/
  | lockFailed (path : String)
deriving DecidableEq, Repr

/-- The message of a failed write. -/
def WriteError.message : WriteError → String
  | .file cause => cause.message
  | .lockFailed path => "Lock acquisition failed for " ++ path

/-- The failed write as callers see it that know nothing of locks. -/
def WriteError.toFileError : WriteError → FileError
  | .file cause => cause
  | .lockFailed path => .io path .other

end ConfigTree
