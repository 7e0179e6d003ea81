import ConfigTree.Command.Basic

/-!
# The command line

How arguments are read, and what a run of the program answers: an exit code and what it writes to
its two outputs.

Options may stand before the name of the command if they are common to all, and anywhere behind it.
An option that is not repeatable is given at most once on each side.  An option takes its value from
behind an equals sign or from the next argument, which then must not look like an option.
Everything behind two dashes is the template context.
-/

namespace ConfigTree.Command

/-- Why no command is run. -/
inductive Stop where
  /-- The arguments make no sense. -/
  | usage
  /-- Help is asked for. -/
  | help
deriving DecidableEq, Repr

/-- What a command takes besides the options common to all. -/
structure Shape where
  /-- The arguments that it needs. -/
  positionals : Nat
  /-- Does it load a file, with overrides and a template context? -/
  loads : Bool
  /-- Can its output be JSON? -/
  json : Bool

/-- Arguments that have been read. -/
structure Given where
  verbose : Bool
  cap : Option Nat
  strict : Bool
  json : Bool
  overrides : List String
  positionals : List String
  context : List String
deriving DecidableEq, Repr

/-- No arguments. -/
def Given.nothing : Given := ⟨false, none, false, false, [], [], []⟩

/-- Reads a cap on passes, which is at least one. -/
def readCap? (text : String) : Option Nat :=
  (Text.readIndex? text.toList).filter (0 < ·)

/-- Does the argument look like an option? -/
def looksLikeOption (argument : String) : Bool :=
  match argument.toList with
  | '-' :: _ :: _ => true
  | _ => false

/-- Splits a long option at its first equals sign. -/
def splitOption (cs : List Char) : String × Option String :=
  let name := cs.takeWhile (· != '=')
  match cs.drop name.length with
  | [] => (String.ofList name, none)
  | _ :: value => (String.ofList name, some (String.ofList value))

/-- Reads the letters of a short option. -/
def readLetters (given : Given) : List Char → Except Stop Given
  | [] => .ok given
  | 'v' :: rest =>
    if given.verbose then .error .usage else readLetters { given with verbose := true } rest
  | 'h' :: _ => .error .help
  | _ => .error .usage

/-- Reads an option that has no value. -/
def readSwitch (shape : Shape) (given : Given) (name : String) : Except Stop Given :=
  match name with
  | "verbose" => if given.verbose then .error .usage else .ok { given with verbose := true }
  | "strict-templates" =>
    if given.strict || !shape.loads then .error .usage else .ok { given with strict := true }
  | "json" =>
    if given.json || !shape.json then .error .usage else .ok { given with json := true }
  | "help" => .error .help
  | _ => .error .usage

/-- Does the option need a value? -/
def takesValue (shape : Shape) (name : String) : Bool :=
  name = "max-iterations" || (name = "set" && shape.loads)

/-- Reads an option that has a value. -/
def readSetting (given : Given) (name value : String) : Except Stop Given :=
  if name = "set" then .ok { given with overrides := given.overrides ++ [value] }
  else match given.cap, readCap? value with
    | none, some cap => .ok { given with cap := some cap }
    | _, _ => .error .usage

/-- Reads arguments.  `word` is called for one that is no option, with those behind it. -/
def readArguments (shape : Shape) (given : Given) : List String → Except Stop Given
  | [] => .ok given
  | argument :: rest =>
    match argument.toList with
    | ['-', '-'] =>
      if shape.loads || rest.isEmpty then .ok { given with context := rest } else .error .usage
    | '-' :: '-' :: option =>
      match splitOption option with
      | (name, some value) =>
        if takesValue shape name then do readArguments shape (← readSetting given name value) rest
        else .error .usage
      | (name, none) =>
        if takesValue shape name then
          match rest with
          | value :: rest =>
            if looksLikeOption value then .error .usage
            else do readArguments shape (← readSetting given name value) rest
          | [] => .error .usage
        else do readArguments shape (← readSwitch shape given name) rest
    | '-' :: c :: letters => do readArguments shape (← readLetters given (c :: letters)) rest
    | _ =>
      if given.positionals.length < shape.positionals then
        readArguments shape { given with positionals := given.positionals ++ [argument] } rest
      else .error .usage

/-- Splits arguments at the first one that is no option and no value of one. -/
def splitCommand : List String → List String × List String
  | [] => ([], [])
  | argument :: rest =>
    if argument = "--" then (argument :: rest, [])
    else if argument = "--max-iterations" then
      match rest with
      | [] => ([argument], [])
      | value :: rest =>
        let (before, behind) := splitCommand rest
        (argument :: value :: before, behind)
    else if looksLikeOption argument then
      let (before, behind) := splitCommand rest
      (argument :: before, behind)
    else ([], argument :: rest)

/-- The shape of a command. -/
def shapeOf? (name : String) : Option Shape :=
  match name with
  | "render" => some ⟨1, true, false⟩
  | "flatten" => some ⟨1, true, true⟩
  | "get" => some ⟨2, true, false⟩
  | "completions" => some ⟨1, false, false⟩
  | _ => none

/-- The shells for which completions can be asked. -/
def shells : List String := ["bash", "elvish", "fish", "powershell", "zsh"]

/-- The cap that arguments mean: what is given behind the command counts most, then what is given
before it, then the environment.  A bad value in the environment is an error unless it is overridden
everywhere. -/
def chooseCap (environment : Option String) (given : List (Option Nat)) : Except Stop Nat :=
  match environment, (environment.bind readCap?) with
  | none, _ => .ok ((given.findSome? id).getD defaultCap)
  | some _, some cap => .ok ((given.findSome? id).getD cap)
  | some _, none =>
    if given.all Option.isSome then .ok ((given.findSome? id).getD defaultCap) else .error .usage

/-- What a run is asked to do. -/
inductive Request where
  /-- Nothing: the program introduces itself. -/
  | introduce
  | run (action : Action) (input : Input)
  | completions (shell : String)
deriving DecidableEq, Repr

/-- The request of a command whose arguments are complete. -/
def requestOf (name : String) (given : Given) (cap : Nat) : Except Stop Request :=
  let input := fun file =>
    ({ file := file, overrides := given.overrides, strict := given.strict,
       context := given.context, cap := cap } : Input)
  match name, given.positionals with
  | "render", [file] => .ok (.run .render (input file))
  | "flatten", [file] => .ok (.run (.flatten given.json) (input file))
  | "get", [file, path] => .ok (.run (.get path) (input file))
  | "completions", [shell] =>
    if shells.contains shell then .ok (.completions shell) else .error .usage
  | _, _ => .error .usage

/-- Reads a command line. -/
def parseLine (environment : Option String) (arguments : List String) : Except Stop Request := do
  let (before, behind) := splitCommand arguments
  let common ← readArguments ⟨0, false, false⟩ .nothing before
  match behind with
  | [] =>
    let _ ← chooseCap environment [common.cap]
    return .introduce
  | name :: rest =>
    if name = "help" then throw .help
    match shapeOf? name with
    | none => throw .usage
    | some shape =>
      let given ← readArguments shape .nothing rest
      let cap ← chooseCap environment [given.cap, common.cap]
      requestOf name given cap

/-! ## Answers -/

/-- What a run of the program answers. -/
structure Answer where
  code : Nat
  out : String
  err : String
deriving DecidableEq, Repr

/-- How the program introduces itself. -/
def introduction : String :=
  "paramtree Render and inspect parameter files\n\nRun paramtree --help for available commands.\n"

/-- A short help. -/
def helpText : String :=
  "Usage: paramtree [OPTIONS] [COMMAND]\n\n" ++
    "Commands: render FILE, flatten FILE, get FILE PATH, completions SHELL\n" ++
    "Options: --verbose, --max-iterations N, --set PATH=VALUE, --strict-templates, --json, " ++
    "-- CONTEXT\n"

/-- Runs the program. -/
def answer (reader : FileReader) (environment : Option String) (arguments : List String) : Answer :=
  match parseLine environment arguments with
  | .error .usage => ⟨2, "", "error: invalid arguments\n\n" ++ helpText⟩
  | .error .help => ⟨0, helpText, ""⟩
  | .ok .introduce => ⟨0, introduction, ""⟩
  | .ok (.completions _) => ⟨0, "", ""⟩
  | .ok (.run action input) => match run reader action input with
    | .ok text => ⟨0, text, ""⟩
    | .error e => ⟨1, "", "error: " ++ e.message ++ "\n"⟩

end ConfigTree.Command
