import ConfigTree.Schema.Fields
import ConfigTree.Schema.Registry
import ConfigTree.Tree.Scalar

/-!
# Catalogs of records

A `RecordDefinition` says what a record type is: the schema of its fields, how a record is made from
them, and how it is written.  A `Catalog` holds the definitions of all record types and the registry
of their names.

`Catalog.write` turns a value into the tree it is written as.  A record is a mapping of its fields;
a member of a family has its name in front of them, under `module_name`.
-/

namespace ConfigTree

/-- What a record type is. -/
structure RecordDefinition where
  schema : Schema
  /-- How a record is made from its fields. -/
  construct : Constructor
  /-- The text of the leaf as which the record is written, if it is not written as a mapping. -/
  leaf : Option String

/-- All record types and their names. -/
structure Catalog where
  definition : RecordType → RecordDefinition
  registry : Registry

/-- The key under which a mapping says which member of a family it is. -/
def moduleNameKey : String := "module_name"

namespace Catalog

/-- The schema of a record type. -/
def schema (catalog : Catalog) (type : RecordType) : Schema :=
  (catalog.definition type).schema

/-- A record as it is written on its own. -/
def recordTree (catalog : Catalog) (type : RecordType) (fields : List (String × Tree)) : Tree :=
  match (catalog.definition type).leaf with
  | some text => .scalar text
  | none => .ofPairs fields

/-- A record as it is written as a member of a family. -/
def memberTree (type : RecordType) (tree : Tree) : Tree :=
  let name := (moduleNameKey, Tree.scalar type.name)
  .mapping (name :: ((tree.entries?.getD []).filter fun entry => entry.1 != moduleNameKey))

mutual
/-- A value as it is written. -/
def write (catalog : Catalog) : Value → Tree
  | .absent => .scalar "null"
  | .int i => .ofInt i
  | .float format x => .ofFloating format x
  | .str text => .scalar text
  | .bool b => .ofBool b
  | .list items => .sequence (writeItems catalog items)
  | .map entries => .ofPairs (writeEntries catalog entries)
  | .record none type fields => catalog.recordTree type (writeFields catalog fields)
  | .record (some _) type fields =>
    memberTree type (catalog.recordTree type (writeFields catalog fields))

/-- The items of a list as they are written. -/
def writeItems (catalog : Catalog) : List Value → List Tree
  | [] => []
  | value :: rest => write catalog value :: writeItems catalog rest

/-- The entries of a map as they are written; a key is the text of its leaf. -/
def writeEntries (catalog : Catalog) : List (Value × Value) → List (String × Tree)
  | [] => []
  | (key, value) :: rest =>
    ((write catalog key).text?.getD "", write catalog value) :: writeEntries catalog rest

/-- The fields of a record as they are written. -/
def writeFields (catalog : Catalog) : List (String × Value) → List (String × Tree)
  | [] => []
  | (name, value) :: rest => (name, write catalog value) :: writeFields catalog rest
end

end Catalog

end ConfigTree
