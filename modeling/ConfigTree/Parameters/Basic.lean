import ConfigTree.Document.Reading
import ConfigTree.Document.Writing
import ConfigTree.Parameters.Error
import ConfigTree.Storage.File
import ConfigTree.Storage.Format
import ConfigTree.Template.Rendering
import ConfigTree.Tree.Path

/-!
# Parameters

A `Parameters` value holds a tree as it was written, the same tree with its references resolved, and
the cap on passes it was resolved with.  Keeping the written tree is what makes a change spread:
`update` writes into it and resolves it again, so every leaf that refers to the changed one follows.
An update that fails answers no new parameters.

The context with which a template is rendered comes from a list of arguments `k₁, v₁, k₂, v₂, …`:
the first place and the last value of a key count.  `Template.Context.withoutDashes` strips the
dashes that keys have on a command line, and keys that become equal merge in the same way.
-/

namespace ConfigTree

namespace Template.Context

/-- Takes arguments two by two; one that is left over is dropped. -/
def pairUp : List String → List (String × String)
  | key :: value :: rest => (key, value) :: pairUp rest
  | _ => []

/-- The context of arguments that pair up. -/
def ofArguments (arguments : List String) : Except ParameterError Context :=
  if arguments.length % 2 = 0 then .ok (Entries.ofList (pairUp arguments))
  else .error (.oddArgumentCount arguments.length)

/-- A key without the dashes in front of it. -/
def stripDashes (key : String) : String :=
  String.ofList (key.toList.dropWhile (· == '-'))

/-- The context with the dashes of its keys stripped. -/
def withoutDashes (context : Context) : Context :=
  Entries.ofList (context.map fun entry => (stripDashes entry.1, entry.2))

example : (ofArguments ["--lr", "1", "-lr", "2"]).toOption.map withoutDashes =
    some [("lr", "2")] := by decide

end Template.Context

/-- A tree with its references resolved. -/
structure Parameters where
  /-- The tree as it was written. -/
  source : Tree
  /-- The tree with its references resolved. -/
  data : Tree
  /-- How many passes may be made. -/
  cap : Nat
deriving Repr

/-- How the text of a file is come by. -/
abbrev FileReader := FilePath → Except FileError String

namespace Parameters

/-- Resolves the references of a tree. -/
def ofTree (cap : Nat) (source : Tree) : Except ParameterError Parameters :=
  match source.resolve cap with
  | .ok data => .ok ⟨source, data, cap⟩
  | .error cause => .error (.divergence cause)

/-- Reads a document. -/
def readTree (text : String) : Except ParameterError Tree :=
  match Tree.ofYaml text with
  | .ok tree => .ok tree
  | .error cause => .error (.parse cause)

/-- Renders a template and reads the document it gives. -/
def readTemplate (renderer : Template.Renderer) (context : Template.Context) (text : String) :
    Except ParameterError Tree :=
  match renderer.render? context text with
  | some rendered => readTree rendered
  | none => .error .template

/-- Reads the text of a parameter file, whose extension has to be a known one. -/
def readFile (reader : FileReader) (path : FilePath) : Except ParameterError String :=
  match path.format with
  | .error cause => .error (.file cause)
  | .ok _ => match reader path with
    | .ok text => .ok text
    | .error cause => .error (.file cause)

/-- The parameters of a document. -/
def ofYaml (cap : Nat) (text : String) : Except ParameterError Parameters := do
  ofTree cap (← readTree text)

/-- The parameters of a template. -/
def ofTemplate (cap : Nat) (renderer : Template.Renderer) (context : Template.Context)
    (text : String) : Except ParameterError Parameters := do
  ofTree cap (← readTemplate renderer context text)

/-- The parameters of a file. -/
def ofFile (cap : Nat) (reader : FileReader) (path : FilePath) :
    Except ParameterError Parameters := do
  ofYaml cap (← readFile reader path)

/-- The parameters of a file that holds a template. -/
def ofTemplateFile (cap : Nat) (reader : FileReader) (renderer : Template.Renderer)
    (context : Template.Context) (path : FilePath) : Except ParameterError Parameters := do
  ofTemplate cap renderer context (← readFile reader path)

/-- The node at a path. -/
def at? (parameters : Parameters) (path : Path) : Option Tree :=
  parameters.data.at? path

/-- The table of the resolved leaves. -/
def flatten (parameters : Parameters) : Table :=
  parameters.data.flatten

/-- Writes a value at a path and resolves all references again. -/
def update (parameters : Parameters) (path : Path) (value : Tree) :
    Except ParameterError Parameters :=
  match parameters.source.set? path value with
  | some source => ofTree parameters.cap source
  | none => .error (.pathNotFound path.dotted)

/-- Resolves the references of the resolved tree once more. -/
def resolveAgain (parameters : Parameters) : Except ParameterError Parameters :=
  match parameters.data.resolve parameters.cap with
  | .ok data => .ok { parameters with data := data }
  | .error cause => .error (.divergence cause)

/-- The document of the resolved tree. -/
def toYaml (parameters : Parameters) : String :=
  parameters.data.toYaml

/-- Are the resolved trees equal up to the order of keys? -/
def same (a b : Parameters) : Bool :=
  a.data.same b.data

end Parameters

end ConfigTree
