import ConfigTree.Text.Quoted

/-!
# Declared types

A record declares its fields, each with a `DeclaredType`: a primitive type, another record, or one
member of a family of records that are chosen by name.

Records and families are known by handles (`RecordType`, `Family`); what a record consists of is its
`Schema`, which is kept elsewhere, so that records can refer to themselves and to each other.
-/

namespace ConfigTree

/-- A scope in which names of records are looked up. -/
structure Namespace where
  name : String
deriving DecidableEq, Inhabited, Repr

/-- Is a family used one member at a time or as a list? -/
inductive FamilyKind where
  | single
  | multi
deriving DecidableEq, Repr

/-- A family of records that can stand for each other. -/
structure Family where
  /-- Where it is declared; tells apart families that have one name. -/
  origin : String
  name : String
  /-- Where the names of its members are looked up. -/
  home : Namespace
  kind : FamilyKind
deriving DecidableEq, Repr

/-- A record type. -/
structure RecordType where
  /-- Where it is declared; tells apart record types that have one name. -/
  origin : String
  name : String
deriving DecidableEq, Repr

/-- What a field promises to hold. -/
inductive DeclaredType where
  | int
  | float
  | str
  | bool
  | list (element : DeclaredType)
  | map (key value : DeclaredType)
  /-- A nested record. -/
  | record (type : RecordType)
  /-- One member of a family. -/
  | variant (family : Family)
deriving DecidableEq, Inhabited, Repr

/-- One field of a record. -/
structure FieldSpec where
  name : String
  declared : DeclaredType
  required : Bool
  help : Option String
deriving DecidableEq, Repr

/-- The shape of a record: its fields in order. -/
structure Schema where
  name : String
  /-- Where the name of the record is looked up when it is written in front of its fields. -/
  home : Option Namespace
  fields : List FieldSpec
deriving DecidableEq, Repr

/-- The first field of a name. -/
def Schema.field? (schema : Schema) (name : String) : Option FieldSpec :=
  schema.fields.find? (·.name == name)

namespace DeclaredType

/-- A list of members of a family. -/
def variants (family : Family) : DeclaredType := .list (.variant family)

/-- Is it one of the types whose values are written as one leaf? -/
def isScalar : DeclaredType → Bool
  | .int | .float | .str | .bool => true
  | _ => false

/-- Is it made of scalar types, lists, and maps with scalar keys? -/
def isPrimitive : DeclaredType → Bool
  | .list element => element.isPrimitive
  | .map key value => key.isScalar && value.isPrimitive
  | other => other.isScalar

/-- The type as messages name it. -/
def label : DeclaredType → String
  | .int => "int"
  | .float => "float"
  | .str => "str"
  | .bool => "bool"
  | .list element => "list[" ++ element.label ++ "]"
  | .map key value => "map[" ++ key.label ++ ", " ++ value.label ++ "]"
  | .record type => type.name
  | .variant family => family.name

end DeclaredType

/-! ## Full form

Types written out with all they are made of, for inspection. -/

/-- A namespace, written out. -/
def Namespace.inspect (space : Namespace) : String :=
  "Namespace(" ++ Text.quoted space.name ++ ")"

/-- A kind of family, written out. -/
def FamilyKind.inspect : FamilyKind → String
  | .single => "Single"
  | .multi => "Multi"

/-- A family, written out. -/
def Family.inspect (family : Family) : String :=
  "Family \x7b name: " ++ Text.quoted family.name ++ ", namespace: " ++ family.home.inspect ++
    ", kind: " ++ family.kind.inspect ++ " \x7d"

/-- A record type, written out. -/
def RecordType.inspect (type : RecordType) : String :=
  "RecordType(" ++ Text.quoted type.name ++ ")"

/-- A declared type, written out. -/
def DeclaredType.inspect : DeclaredType → String
  | .int => "Int"
  | .float => "Float"
  | .str => "Str"
  | .bool => "Bool"
  | .list element => "List(" ++ element.inspect ++ ")"
  | .map key value => "Map(" ++ key.inspect ++ ", " ++ value.inspect ++ ")"
  | .record type => "Record(" ++ type.inspect ++ ")"
  | .variant family => "Variant(" ++ family.inspect ++ ")"

theorem DeclaredType.isPrimitive_of_isScalar {declared : DeclaredType}
    (h : declared.isScalar = true) : declared.isPrimitive = true := by
  cases declared <;> simp_all [isScalar, isPrimitive]

example : (DeclaredType.map .str (.list .int)).isPrimitive = true := by decide
example : (DeclaredType.map (.list .int) .int).isPrimitive = false := by decide
example : (DeclaredType.map .str (.list .int)).label = "map[str, list[int]]" := by decide

end ConfigTree
