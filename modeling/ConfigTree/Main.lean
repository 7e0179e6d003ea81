import ConfigTree.Command.Line

/-!
# The program

Gets the arguments, the environment and the file from the system, and gives the answer back to it.
-/

namespace ConfigTree

open Command

/-- The file that a command line asks for. -/
def fileAsked? (environment : Option String) (arguments : List String) : Option String :=
  match parseLine environment arguments with
  | .ok (.run _ input) => some input.file
  | _ => none

/-- What the system's refusal means. -/
def kindOfError : IO.Error → IoKind
  | .noFileOrDirectory .. => .notFound
  | .permissionDenied .. => .permissionDenied
  | .alreadyExists .. => .alreadyExists
  | .inappropriateType .. => .isADirectory
  | .invalidArgument .. => .invalidInput
  | _ => .other

/-- Reads a file, unless it is too large. -/
def readFileText (path : FilePath) : IO (Except FileError String) := do
  try
    let data ← IO.FS.readBinFile path.text
    if maxFileSize < data.size then return .error (.tooLarge path.text data.size)
    match String.fromUTF8? data with
    | some text => return .ok text
    | none => return .error (.io path.text .invalidData)
  catch e => return .error (.io path.text (kindOfError e))

end ConfigTree

/-- Runs the program on the arguments of the process. -/
def main (arguments : List String) : IO UInt32 := do
  let environment ← IO.getEnv "PARAMTREE_MAX_ITERATIONS"
  let file ← match ConfigTree.fileAsked? environment arguments with
    | some file => ConfigTree.readFileText (.ofString file)
    | none => pure (.ok "")
  let answer := ConfigTree.Command.answer (fun _ => file) environment arguments
  IO.print answer.out
  IO.eprint answer.err
  return answer.code.toUInt32
