import ConfigTree.Parameters.Basic

/-!
# Commands

What the commands write: `render` the resolved document, `flatten` the table of its leaves, `get`
one of its nodes.  Each of them first loads a file (`load`): the file is rendered as a template,
read and resolved, and overrides are applied in order.
-/

namespace ConfigTree.Command

/-- Why a command fails. -/
inductive Error where
  | parameters (cause : ParameterError)
  | invalidOverride (text : String)
deriving DecidableEq, Repr

/-- The message of an error. -/
def Error.message : Error → String
  | .parameters cause => cause.message
  | .invalidOverride text => "Invalid override '" ++ text ++ "': expected PATH=VALUE"

/-- What is loaded. -/
structure Input where
  file : String
  /-- Paths with the values to write there, each as one text. -/
  overrides : List String
  /-- Are names without a value an error? -/
  strict : Bool
  /-- The template context as arguments. -/
  context : List String
  /-- The cap on passes. -/
  cap : Nat
deriving DecidableEq, Repr

/-- What is done with it. -/
inductive Action where
  | render
  | flatten (json : Bool)
  | get (path : String)
deriving DecidableEq, Repr

/-- Passes on an error of the parameters. -/
def lift {α : Type} : Except ParameterError α → Except Error α
  | .ok a => .ok a
  | .error cause => .error (.parameters cause)

/-- Splits an override at its first equals sign. -/
def parseOverride (text : String) : Except Error (String × String) :=
  let cs := text.toList
  let path := cs.takeWhile (· != '=')
  match cs.drop path.length with
  | [] => .error (.invalidOverride text)
  | _ :: value =>
    let trimmed := Text.trim path
    if trimmed.isEmpty then .error (.invalidOverride text)
    else .ok (String.ofList trimmed, String.ofList value)

/-- The template context of the arguments of a command line. -/
def contextOf (arguments : List String) : Except ParameterError Template.Context :=
  (Template.Context.ofArguments arguments).map Template.Context.withoutDashes

/-- Applies overrides one after the other. -/
def applyOverrides : Parameters → List String → Except Error Parameters
  | parameters, [] => .ok parameters
  | parameters, text :: rest => do
    let (path, value) ← parseOverride text
    applyOverrides (← lift (parameters.update (.parse path) (.scalar value))) rest

/-- Loads a file. -/
def load (reader : FileReader) (input : Input) : Except Error Parameters := do
  let context ← lift (contextOf input.context)
  let renderer : Template.Renderer := if input.strict then .strict else .lenient
  let parameters ← lift
    (Parameters.ofTemplateFile input.cap reader renderer context (.ofString input.file))
  applyOverrides parameters input.overrides

/-- A table as one line for each leaf. -/
def plainTable (table : Table) : String :=
  String.join (table.map fun (name, text) =>
    if name = "" then text ++ "\n" else name ++ " = " ++ text ++ "\n")

/-- A table as a JSON object. -/
def jsonTable (table : Table) : String :=
  if table.isEmpty then "\x7b\x7d\n"
  else
    let members := table.map fun (name, text) =>
      "  " ++ Text.jsonQuoted name ++ ": " ++ Text.jsonQuoted text
    "\x7b\n" ++ ",\n".intercalate members ++ "\n\x7d\n"

/-- What a command writes. -/
def run (reader : FileReader) (action : Action) (input : Input) : Except Error String := do
  let parameters ← load reader input
  match action with
  | .render => return parameters.toYaml
  | .flatten json =>
    return if json then jsonTable parameters.flatten else plainTable parameters.flatten
  | .get path => match parameters.at? (.parse path) with
    | some node => return node.toYaml
    | none => throw (.parameters (.pathNotFound path))

end ConfigTree.Command
