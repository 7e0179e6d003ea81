import ConfigTree.Entries
import ConfigTree.IntegerRange
import ConfigTree.Schema.Value

/-!
# Types in which records hold primitive values

A record can hold a value more narrowly than it is declared: an integer in a smaller range, a number
in fewer bits, a map in another order.  A `FieldType` says how, and `FieldType.read` narrows a value
to it or says what was expected and what was found.

Keys of maps are integers, texts or booleans; of entries with equal keys the last value counts.
-/

namespace ConfigTree

/-- A value is not of the type that was asked for. -/
structure Mismatch where
  expected : String
  found : String
deriving DecidableEq, Repr

/-- A key of a map. -/
inductive Key where
  | int (i : Int)
  | str (text : String)
  | bool (b : Bool)
deriving DecidableEq, Repr

/-- The types that keys can have. -/
inductive KeyType where
  | integer (range : IntegerRange)
  | str
  | bool
deriving DecidableEq, Repr

/-- In which order a map keeps its entries. -/
inductive MapOrder where
  /-- In the order in which the keys first came. -/
  | insertion
  /-- By key. -/
  | sorted
deriving DecidableEq, Repr

/-- A type in which a record holds a primitive value. -/
inductive FieldType where
  /-- Any value, as it is. -/
  | any
  | integer (range : IntegerRange)
  | float (format : FloatFormat)
  | str
  | bool
  | list (element : FieldType)
  | map (order : MapOrder) (key : KeyType) (value : FieldType)
deriving DecidableEq, Repr

namespace Key

/-- The key as a value. -/
def toValue : Key → Value
  | .int i => .int i
  | .str text => .str text
  | .bool b => .bool b

/-- Keys of one type in order: integers by size, texts by their characters, `false` first. -/
def le : Key → Key → Bool
  | .int i, .int j => i ≤ j
  | .str s, .str t => s ≤ t
  | .bool a, .bool b => !a || b
  | _, _ => true

end Key

/-- Reads an integer of a range. -/
def IntegerRange.read (range : IntegerRange) : Value → Except Mismatch Int
  | .int i =>
    if range.contains i then .ok i
    else .error ⟨range.name, "int " ++ Text.showInt i ++ " out of range"⟩
  | other => .error ⟨"int", other.label⟩

namespace KeyType

/-- The declared type of a key. -/
def declared : KeyType → DeclaredType
  | .integer _ => .int
  | .str => .str
  | .bool => .bool

/-- Reads a key. -/
def read : KeyType → Value → Except Mismatch Key
  | .integer range, value => (range.read value).map .int
  | .str, .str text => .ok (.str text)
  | .bool, .bool b => .ok (.bool b)
  | type, other => .error ⟨type.declared.label, other.label⟩

end KeyType

namespace FieldType

/-- The declared type of a field that is held in this type. -/
def declared : FieldType → DeclaredType
  | .any => .str
  | .integer _ => .int
  | .float _ => .float
  | .str => .str
  | .bool => .bool
  | .list element => .list element.declared
  | .map _ key value => .map key.declared value.declared

/-- The map of some entries. -/
def collect (order : MapOrder) (entries : List (Key × Value)) : Value :=
  let kept := Entries.ofList entries
  let placed := match order with
    | .insertion => kept
    | .sorted => kept.mergeSort fun a b => a.1.le b.1
  .map (placed.map fun entry => (entry.1.toValue, entry.2))

/-- Narrows a value to the type. -/
def read : FieldType → Value → Except Mismatch Value
  | .any, value => .ok value
  | .integer range, value => (range.read value).map .int
  | .float format, .float _ x => .ok (.float format (format.convert x))
  | .float format, .int i => .ok (.float format (format.convert (double.ofInt i)))
  | .str, .str text => .ok (.str text)
  | .bool, .bool b => .ok (.bool b)
  | .list element, .list items => (items.mapM element.read).map .list
  | .map order key value, .map entries =>
    (entries.mapM fun (k, v) => do return (← key.read k, ← value.read v)).map (collect order)
  | type, other => .error ⟨type.declared.label, other.label⟩

/-- The value of a field that is absent and has no default of its own. -/
def zero : FieldType → Value
  | .any => .absent
  | .integer _ => .int 0
  | .float format => .float format (.zero false)
  | .str => .str ""
  | .bool => .bool false
  | .list _ => .list []
  | .map .. => .map []

end FieldType

end ConfigTree
