import ConfigTree.Schema.Error
import ConfigTree.Schema.FieldType
import ConfigTree.Tree.Leaves

/-!
# The fields a record is made from

`Fields` holds the converted values of one record.  A `Constructor` makes the record from them, or
refuses to.  Most constructors take the values out one by one, each by a `Getter`: what is asked for
(`Request`) and what is done when the field is not there (`Absence`).

A value that is taken is gone, even if it turns out not to be what was asked for.
-/

namespace ConfigTree

/-- The converted values of a record. -/
structure Fields where
  /-- The name of the record. -/
  record : String
  /-- The dotted path of the record. -/
  place : String
  values : Entries String Value

/-- What is asked for. -/
inductive Request where
  | primitive (type : FieldType)
  | record (type : RecordType)
  /-- One member of a family. -/
  | variant (family : Family)
  /-- A list of members of a family. -/
  | variants (family : Family)
deriving DecidableEq, Repr

/-- What is done when a field is not there. -/
inductive Absence where
  /-- It is an error. -/
  | isMissing
  /-- The record holds this value. -/
  | holds (value : Value)
  /-- The record does not have the field. -/
  | isSkipped
deriving Repr

/-- How one field is taken. -/
structure Getter where
  request : Request
  absence : Absence
deriving Repr

namespace Request

/-- The type as which a field is declared if this is asked for. -/
def declared : Request → DeclaredType
  | .primitive type => type.declared
  | .record type => .record type
  | .variant family => .variant family
  | .variants family => .variants family

/-- Takes a record that was made as a member of `family`, or as none. -/
def unbox (family : Option Family) (accepts : RecordType → Bool) (expected : String) :
    Value → Except Mismatch Value
  | .record boxed type fields =>
    if boxed = family && accepts type then .ok (.record boxed type fields)
    else .error ⟨expected, "record of another type"⟩
  | other => .error ⟨expected, other.label⟩

/-- Takes one member of a family. -/
def member (family : Family) : Value → Except Mismatch Value :=
  unbox (some family) (fun _ => true) family.name

/-- Checks a value against what is asked for. -/
def read : Request → Value → Except Mismatch Value
  | .primitive type, value => type.read value
  | .record type, value => unbox none (· == type) type.name value
  | .variant family, value => member family value
  | .variants family, .list items => (items.mapM (member family)).map .list
  | .variants family, other => .error ⟨"list[" ++ family.name ++ "]", other.label⟩

end Request

namespace Fields

/-- No fields yet. -/
def empty (record place : String) : Fields := ⟨record, place, []⟩

/-- Adds a value; a value of that name is replaced. -/
def insert (fields : Fields) (name : String) (value : Value) : Fields :=
  { fields with values := Entries.insert fields.values name value }

/-- Is there a value of this name? -/
def contains (fields : Fields) (name : String) : Bool :=
  Entries.contains fields.values name

/-- The number of values. -/
def size (fields : Fields) : Nat := fields.values.length

/-- The error of a field that has to be there. -/
def missing (fields : Fields) (name : String) : Schema.Error :=
  .located (.missingField name fields.record) fields.place

/-- The error of a field that holds something else. -/
def mismatch (fields : Fields) (name : String) (cause : Mismatch) : Schema.Error :=
  .located (.typeMismatch name cause.expected cause.found) (childName fields.place name)

/-- The fields without one. -/
def erase (fields : Fields) (name : String) : Fields :=
  { fields with values := Entries.erase fields.values name }

/-- Takes a field: its value, if the record has it, and the other fields. -/
def take (fields : Fields) (name : String) (getter : Getter) :
    Except Schema.Error (Option Value) × Fields :=
  match Entries.get? fields.values name with
  | some value => match getter.request.read value with
    | .ok taken => (.ok (some taken), fields.erase name)
    | .error cause => (.error (fields.mismatch name cause), fields.erase name)
  | none => match getter.absence with
    | .isMissing => (.error (fields.missing name), fields)
    | .holds value => (.ok (some value), fields)
    | .isSkipped => (.ok none, fields)

/-- Takes fields one after the other. -/
def takeAll : List (String × Getter) → Fields → Except Schema.Error (List (String × Value))
  | [], _ => .ok []
  | (name, getter) :: rest, fields =>
    match fields.take name getter with
    | (.ok (some value), fields) => do return (name, value) :: (← takeAll rest fields)
    | (.ok none, fields) => takeAll rest fields
    | (.error cause, _) => .error cause

end Fields

/-- How a record is made: what it holds under which names, or why it cannot be made. -/
abbrev Constructor := Fields → Except Schema.Error (List (String × Value))

/-- The constructor that takes these fields, one after the other. -/
def Constructor.ofGetters (getters : List (String × Getter)) : Constructor :=
  Fields.takeAll getters

instance : Coe (List (String × Getter)) Constructor := ⟨Constructor.ofGetters⟩

end ConfigTree
