import ConfigTree.Schema.Catalog
import ConfigTree.Schema.Conversion

/-!
# From trees to typed values

`Catalog.materialize` turns a node into a value of its declared type:

* a primitive type is converted;
* a record is made from a mapping: of the declared fields, in their order, those that the mapping
  has are materialized, and the constructor makes the record of these;
* a member of a family is made from a mapping whose `module_name` says which record it is;
* a list of members is made from a sequence of such mappings.

Any other combination of type and shape is an error.  The recursion is on the tree: the entries of a
mapping become `Reading`s, which say what each entry is for whatever type it turns out to be
declared with.

`Catalog.materializeRoot` also takes a record whose name is written in front of its fields, as the
only key of a mapping.  This form is tried only when the other one fails.
-/

namespace ConfigTree

/-- What a node is, for each type and place. -/
abbrev Reading := DeclaredType → Path → Except Schema.Error Value

namespace Schema

/-- Materializes the declared fields that a mapping has. -/
def gather (entries : Entries String Reading) (path : Path) :
    List FieldSpec → Fields → Except Error Fields
  | [], fields => .ok fields
  | spec :: rest, fields =>
    match Entries.get? entries spec.name with
    | some reading => do
      let value ← reading spec.declared (path ++ [.key spec.name])
      gather entries path rest (fields.insert spec.name value)
    | none =>
      if spec.required then .error (.located (.missingField spec.name fields.record) path.dotted)
      else gather entries path rest fields

end Schema

/-- The family of a list of its members. -/
def DeclaredType.memberList? : DeclaredType → Option Family
  | .list (.variant family) => if family.kind = .multi then some family else none
  | _ => none

namespace Catalog

open Schema

/-- The fields of a record of a type, from the entries of a mapping. -/
def fieldsOf (catalog : Catalog) (type : RecordType) (entries : Entries String Reading)
    (path : Path) : Except Error Fields :=
  let schema := catalog.schema type
  gather entries path schema.fields (Fields.empty schema.name path.dotted)

/-- Makes a record from its fields. -/
def make (catalog : Catalog) (family : Option Family) (type : RecordType) (fields : Fields)
    (path : Path) : Except Error Value :=
  match (catalog.definition type).construct fields with
  | .ok held => .ok (.record family type held)
  | .error cause => .error (cause.placedAt path.dotted)

/-- Makes a record from the entries of a mapping. -/
def makeRecord (catalog : Catalog) (type : RecordType) (entries : Entries String Reading)
    (path : Path) : Except Error Value := do
  catalog.make none type (← catalog.fieldsOf type entries path) path

/-- Makes what is registered as a member of a family from the entries of a mapping. -/
def makeMember (catalog : Catalog) (entry : RegistryEntry) (family : Family)
    (entries : Entries String Reading) (path : Path) : Except Error Value :=
  match entry.made? family with
  | some type => do
    catalog.make (some family) type (← catalog.fieldsOf entry.record entries path) path
  | none => .error (.located (.notAVariant entry.name family.home (.variant family)) path.dotted)

/-- Makes the member of a family that a mapping names.  `raw` is the mapping itself and `entries`
what its entries are. -/
def makeVariant (catalog : Catalog) (family : Family) (raw : Entries String Tree)
    (entries : Entries String Reading) (path : Path) : Except Error Value :=
  match Entries.get? raw moduleNameKey with
  | some (.scalar name) => match catalog.registry.resolve family.home name with
    | .ok entry => catalog.makeMember entry family (Entries.erase entries moduleNameKey) path
    | .error cause => .error (.located cause path.dotted)
  | some other => .error (unsupported other .str (path ++ [.key moduleNameKey]))
  | none => .error (.located (.missingModuleName family) path.dotted)

mutual
/-- The value of a node at a path. -/
def materializeAt (catalog : Catalog) (coercion : IntegerCoercion) : Tree → Reading
  | .scalar text, declared, path => convert coercion declared (.scalar text) path
  | .sequence items, declared, path =>
    match declared.memberList? with
    | some family => (members catalog coercion family path 0 items).map .list
    | none => convert coercion declared (.sequence items) path
  | .mapping entries, declared, path =>
    match declared with
    | .record type => catalog.makeRecord type (readings catalog coercion entries) path
    | .variant family =>
      if family.kind = .single then
        catalog.makeVariant family entries (readings catalog coercion entries) path
      else .error (unsupported (.mapping entries) (.variant family) path)
    | other => convert coercion other (.mapping entries) path

/-- The members of a family in a sequence, counted from `index` on. -/
def members (catalog : Catalog) (coercion : IntegerCoercion) (family : Family) (path : Path) :
    Nat → List Tree → Except Error (List Value)
  | _, [] => .ok []
  | index, .mapping entries :: rest => do
    let value ← catalog.makeVariant family entries (readings catalog coercion entries)
      (path ++ [.index index])
    return value :: (← members catalog coercion family path (index + 1) rest)
  | index, item :: _ =>
    let place := Path.dotted (path ++ [.index index])
    .error (.located (.elementNotMapping index family item.kind) place)

/-- What the entries of a mapping are. -/
def readings (catalog : Catalog) (coercion : IntegerCoercion) :
    List (String × Tree) → Entries String Reading
  | [] => []
  | (key, node) :: rest =>
    (key, fun declared path => materializeAt catalog coercion node declared path) ::
      readings catalog coercion rest
end

/-- The value of a tree. -/
def materialize (catalog : Catalog) (coercion : IntegerCoercion) (raw : Tree)
    (declared : DeclaredType) : Except Error Value :=
  catalog.materializeAt coercion raw declared []

/-! ## Names in front of fields -/

/-- Where the name of a record is looked up when it is written in front of the fields; `none` if the
type does not allow that. -/
def shorthandHome? (catalog : Catalog) : DeclaredType → Option Namespace
  | .record type => (catalog.schema type).home
  | .variant family => if family.kind = .single then some family.home else none
  | _ => none

/-- Makes a record from its name and the mapping behind it. -/
def materializeNamed (catalog : Catalog) (coercion : IntegerCoercion) (declared : DeclaredType)
    (home : Namespace) (name : String) (inner : List (String × Tree)) : Except Error Value :=
  match catalog.registry.resolve home name with
  | .error cause => .error (.located cause "")
  | .ok entry =>
    let entries := catalog.readings coercion inner
    match declared with
    | .variant family => catalog.makeMember entry family entries [.key name]
    | .record type =>
      if entry.record = type then catalog.makeRecord type entries [.key name]
      else .error (.located (.notAVariant entry.name home declared) "")
    | _ => .error (.located (.notAVariant entry.name home declared) "")

/-- What a node is as it stands, or else as a record with its name in front of its fields, if it is
a mapping that can be read so. -/
def orNamed (catalog : Catalog) (coercion : IntegerCoercion) (raw : Tree)
    (declared : DeclaredType) : Except Error Value → Except Error Value
  | .ok value => .ok value
  | .error direct => match raw, catalog.shorthandHome? declared with
    | .mapping [(name, .mapping inner)], some home =>
      match catalog.materializeNamed coercion declared home name inner with
      | .ok value => .ok value
      | .error shorthand => .error (.neitherForm raw declared direct shorthand)
    | _, _ => .error direct

/-- The value of a whole document.  A record that cannot be made from its fields is tried with its
name in front of them. -/
def materializeRoot (catalog : Catalog) (coercion : IntegerCoercion) (raw : Tree)
    (declared : DeclaredType) : Except Error Value :=
  match raw, declared with
  | .mapping entries, .record type =>
    catalog.orNamed coercion raw declared
      (catalog.makeRecord type (catalog.readings coercion entries) [])
  | .mapping entries, .variant family =>
    if family.kind = .single then
      catalog.orNamed coercion raw declared
        (catalog.makeVariant family entries (catalog.readings coercion entries) [])
    else catalog.materialize coercion raw declared
  | _, _ => catalog.materialize coercion raw declared

end Catalog

end ConfigTree
