import ConfigTree.Expression.Evaluation
import ConfigTree.Schema.Error
import ConfigTree.Schema.Value
import ConfigTree.Tree.Path
import ConfigTree.Tree.Scalar

/-!
# Conversion to primitive types

Integers and floating-point numbers are read through arithmetic expressions, so `1*5` is the integer
`5` and `0.5*0.5` the number `0.25`.  Booleans have three spellings each.  Lists are converted item
by item and maps entry by entry, the key of an entry before its value; the first error ends it.

A node whose shape is not that of the type is not converted.
-/

namespace ConfigTree.Schema

/-- What becomes of a floating-point number where an integer is declared. -/
inductive IntegerCoercion where
  /-- Only whole numbers are integers. -/
  | strict
  /-- The fraction is dropped. -/
  | truncate
deriving DecidableEq, Repr

/-- The error of a node that does not have the shape of its type. -/
def unsupported (raw : Tree) (declared : DeclaredType) (path : Path) : Error :=
  .located (.unsupportedConversion raw declared) path.dotted

/-- The value of an expression. -/
def readNumber (text : String) : Except Cause Expression.Number :=
  match Expression.evaluate text with
  | .ok n => .ok n
  | .error fault => .error (.expression text fault)

/-- The integer that a floating-point number is turned into. -/
def integerOf (coercion : IntegerCoercion) (x : Floating) : Except Cause Int :=
  match x.toInt? with
  | none => .error (.lossyConversion x)
  | some whole =>
    if (coercion = .truncate || x.isIntegral) && IntegerRange.signed64.contains whole then .ok whole
    else .error (.lossyConversion x)

/-- Reads an integer. -/
def readInt (coercion : IntegerCoercion) (text : String) : Except Cause Int := do
  match ← readNumber text with
  | .int i => .ok i
  | .float x => integerOf coercion x

/-- Reads a leaf as a scalar type; `none` if the type is not scalar. -/
def readScalar? (coercion : IntegerCoercion) (text : String) :
    DeclaredType → Option (Except Cause Value)
  | .int => some ((readInt coercion text).map .int)
  | .float => some ((readNumber text).map fun n => .float double n.toFloating)
  | .str => some (.ok (.str text))
  | .bool => some (match readBool? text with
    | some b => .ok (.bool b)
    | none => .error (.notABool text))
  | _ => none

/-- How a node at a path is turned into a value. -/
abbrev Conversion := Tree → Path → Except Error Value

/-- Converts the items of a sequence, counted from `index` on. -/
def convertItems (item : Conversion) (path : Path) : Nat → List Tree → Except Error (List Value)
  | _, [] => .ok []
  | index, raw :: rest => do
    let value ← item raw (path ++ [.index index])
    return value :: (← convertItems item path (index + 1) rest)

/-- Converts the entries of a mapping. -/
def convertEntries (key value : Conversion) (path : Path) :
    List (String × Tree) → Except Error (List (Value × Value))
  | [] => .ok []
  | (name, raw) :: rest => do
    let place := path ++ [.key name]
    let k ← key (.scalar name) place
    let v ← value raw place
    return (k, v) :: (← convertEntries key value path rest)

/-- Converts a node to a primitive type. -/
def convert (coercion : IntegerCoercion) : DeclaredType → Conversion
  | .list element, .sequence items, path =>
    if element.isPrimitive then
      (convertItems (convert coercion element) path 0 items).map .list
    else .error (unsupported (.sequence items) (.list element) path)
  | .map key value, .mapping entries, path =>
    if key.isScalar && value.isPrimitive then
      (convertEntries (convert coercion key) (convert coercion value) path entries).map .map
    else .error (unsupported (.mapping entries) (.map key value) path)
  | declared, .scalar text, path =>
    match readScalar? coercion text declared with
    | some (.ok value) => .ok value
    | some (.error cause) => .error (.located cause path.dotted)
    | none => .error (unsupported (.scalar text) declared path)
  | declared, raw, path => .error (unsupported raw declared path)

example : (convert .strict .int (.scalar "-2*(3+1)") []).toOption.map Value.inspect =
    some "Int(-8)" := by decide +kernel

end ConfigTree.Schema
