import ConfigTree.Floating.Decimal
import ConfigTree.Schema.Type

/-!
# Values

What a tree is converted to: numbers, texts, booleans, lists, maps, and records.  A record is kept
as its type and the fields it holds; one that was made as a member of a family keeps that family
with it.

`Value.equal` is the equality that the values themselves offer: numbers are compared as numbers, so
what is no number differs from itself, and records are never equal.
-/

namespace ConfigTree

/-- A converted value. -/
inductive Value where
  /-- What a record holds for an optional field that was left out. -/
  | absent
  | int (i : Int)
  | float (format : FloatFormat) (x : Floating)
  | str (text : String)
  | bool (b : Bool)
  | list (items : List Value)
  /-- Entries in the order of the tree. -/
  | map (entries : List (Value × Value))
  /-- A record, and the family as whose member it was made. -/
  | record (family : Option Family) (type : RecordType) (fields : List (String × Value))
deriving Inhabited, Repr

namespace Value

/-- The kind of a value as messages name it. -/
def label : Value → String
  | .absent => "absent"
  | .int _ => "int"
  | .float .. => "float"
  | .str _ => "str"
  | .bool _ => "bool"
  | .list _ => "list"
  | .map _ => "map"
  | .record .. => "record"

mutual
/-- Are the values equal as numbers, texts, booleans and collections of these? -/
def equal : Value → Value → Bool
  | .int i, .int j => i == j
  | .float _ x, .float _ y => Floating.equal x y
  | .str s, .str t => s == t
  | .bool a, .bool b => a == b
  | .list as, .list bs => equalItems as bs
  | .map as, .map bs => equalEntries as bs
  | _, _ => false

/-- Are the lists equal, item by item? -/
def equalItems : List Value → List Value → Bool
  | [], [] => true
  | a :: as, b :: bs => equal a b && equalItems as bs
  | _, _ => false

/-- Are the entries equal, in order? -/
def equalEntries : List (Value × Value) → List (Value × Value) → Bool
  | [], [] => true
  | (k, v) :: as, (l, w) :: bs => equal k l && equal v w && equalEntries as bs
  | _, _ => false
end

mutual
/-- A value, written out for inspection; records are not opened. -/
def inspect : Value → String
  | .absent => "None"
  | .int i => "Int(" ++ Text.showInt i ++ ")"
  | .float format x => "Float(" ++ Floating.text Floating.stored format x ++ ")"
  | .str text => "Str(" ++ Text.quoted text ++ ")"
  | .bool b => "Bool(" ++ (if b then "true" else "false") ++ ")"
  | .list items => "List([" ++ ", ".intercalate (inspectItems items) ++ "])"
  | .map entries => "Map([" ++ ", ".intercalate (inspectEntries entries) ++ "])"
  | .record .. => "Record(..)"

/-- Each item, written out. -/
def inspectItems : List Value → List String
  | [] => []
  | v :: rest => inspect v :: inspectItems rest

/-- Each entry, written out as a pair. -/
def inspectEntries : List (Value × Value) → List String
  | [] => []
  | (k, v) :: rest => ("(" ++ inspect k ++ ", " ++ inspect v ++ ")") :: inspectEntries rest
end

example : equal (.float double (.zero true)) (.float double (.zero false)) = true := by decide
example : equal (.float double .nan) (.float double .nan) = false := by decide
example : inspect (.map [(.int 1, .list [.str "a"])]) = "Map([(Int(1), List([Str(\"a\")]))])" := by
  decide +kernel

end Value

end ConfigTree
