import ConfigTree.Parameters.Basic
import ConfigTree.Reference.Resolve
import ConfigTree.Schema.Help
import ConfigTree.Schema.Materialize

/-!
# Records as documents

Reading a record from a document and writing it: the references of the document are resolved, and
the record is made from the tree.  A written record has the help of its fields as comments.
-/

namespace ConfigTree.Catalog

open Schema

/-- The value, if it is what was asked for. -/
def rootAs (request : Request) (value : Value) : Except Error Value :=
  match request.read value with
  | .ok value => .ok value
  | .error cause => .error (.located (.typeMismatch "<root>" cause.expected cause.found) "")

/-- The record of a tree. -/
def recordOfTree (catalog : Catalog) (coercion : IntegerCoercion) (type : RecordType) (raw : Tree) :
    Except Error Value := do
  rootAs (.record type) (← catalog.materializeRoot coercion raw (.record type))

/-- The member of a family that a tree describes. -/
def variantOfTree (catalog : Catalog) (coercion : IntegerCoercion) (family : Family) (raw : Tree) :
    Except Error Value := do
  rootAs (.variant family) (← catalog.materializeRoot coercion raw (.variant family))

/-- The record of parameters, if there are any. -/
def recordOf (catalog : Catalog) (type : RecordType)
    (parameters : Except ParameterError Parameters) : Except Error Value :=
  match parameters with
  | .ok parameters => catalog.recordOfTree .strict type parameters.data
  | .error cause => .error (.parameters cause)

/-- The record of a document. -/
def recordOfYaml (catalog : Catalog) (type : RecordType) (text : String) : Except Error Value :=
  catalog.recordOf type (Parameters.ofYaml defaultCap text)

/-- The record of a file. -/
def recordOfFile (catalog : Catalog) (type : RecordType) (reader : FileReader) (path : FilePath) :
    Except Error Value :=
  catalog.recordOf type (Parameters.ofFile defaultCap reader path)

/-- The record of a file that holds a template. -/
def recordOfTemplateFile (catalog : Catalog) (type : RecordType) (reader : FileReader)
    (renderer : Template.Renderer) (context : Template.Context) (path : FilePath) :
    Except Error Value :=
  catalog.recordOf type (Parameters.ofTemplateFile defaultCap reader renderer context path)

/-- A tree as a document with the help of its declared type. -/
def treeToYaml (catalog : Catalog) (declared : DeclaredType) (tree : Tree) : String :=
  tree.toYamlWith (catalog.help tree declared)

/-- The document of a record. -/
def recordToYaml (catalog : Catalog) (type : RecordType) (record : Value) : String :=
  catalog.treeToYaml (.record type) (catalog.write record)

/-- Writes the document of a record to a file; `home` is the place of the working directory. -/
def save (catalog : Catalog) (process : String) (disk : Disk) (path : FilePath)
    (type : RecordType) (record : Value) (home : Place := []) : Except FileError Unit × Disk :=
  disk.writeText process path (catalog.recordToYaml type record) home

end ConfigTree.Catalog
