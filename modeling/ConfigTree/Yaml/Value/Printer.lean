import ConfigTree.Yaml.Scalar

/-!
# Values in block style

How a value is written when it has to become a text, which happens to collections that are used as
keys.  Collections are written in block style and indented by two, except that empty ones are
written as brackets and that a sequence behind a key stands at the indentation of the key.

A text is built from behind an indicator on: it begins with a space or a new line.  `fresh` tells
that nothing but indicators stand on the line so far; a block collection can then begin on it.
-/

namespace ConfigTree.Yaml

namespace Value

/-! ## Labels -/

/-- May the character stand in a tag as it is? -/
def isLabelChar (c : Char) : Bool :=
  isWord c || ";/?:@&=+$,.!~*'()[]".toList.contains c

/-- Writes an octet as a percent escape. -/
def escapedOctet (octet : UInt8) : List Char :=
  '%' :: (Text.paddedHex 2 octet.toNat).map Char.toUpper

/-- Writes a label as a tag. -/
def labelText (label : String) : List Char :=
  if label = "!" then "!<!>".toList
  else '!' :: label.toList.flatMap fun c =>
    if isLabelChar c then [c] else (String.singleton c).toUTF8.toList.flatMap escapedOctet

/-! ## Keys -/

/-- The text of a value that is neither a collection nor a string. -/
def word? : Value → Option String
  | .null => some "null"
  | .bool b => some (if b then "true" else "false")
  | .int i => some (Text.showInt i)
  | .float x => some (Floating.text Floating.yaml double x)
  | _ => none

/-- How many octets a label takes. -/
def labelSize (label : String) : Nat :=
  if label = "!" then 1 else label.utf8ByteSize + 1

/-- Can the value be written as a key on one line?  `length` is the size of its label. -/
def isSimpleKey (length : Nat) : Value → Bool
  | .sequence items => items.isEmpty && length ≤ 128
  | .mapping entries => entries.isEmpty && length ≤ 128
  | .string text => !text.toList.any isBreak && length + text.utf8ByteSize ≤ 128
  | .tagged label value => isSimpleKey (length + labelSize label) value
  | value => length + ((word? value).getD "").utf8ByteSize ≤ 128

/-! ## Which values can be written -/

/-- Is it a mapping with one entry, or does it have a label? -/
def isSingle : Value → Bool
  | .mapping [_] => true
  | .tagged .. => true
  | _ => false

mutual
/-- Can the value be written?  A mapping with a single entry cannot if its key is such a mapping or
has a label, unless the mapping itself is labelled. -/
def isWritable (labelled : Bool) : Value → Bool
  | .sequence items => allWritable items
  | .mapping entries =>
    (labelled || match entries with
      | [(k, _)] => !k.isSingle
      | _ => true) && entriesWritable entries
  | .tagged _ value => isWritable true value
  | _ => true

/-- Can all the values be written? -/
def allWritable : List Value → Bool
  | [] => true
  | v :: rest => isWritable false v && allWritable rest

/-- Can all the keys and values be written? -/
def entriesWritable : List (Value × Value) → Bool
  | [] => true
  | (k, v) :: rest => isWritable false k && isWritable false v && entriesWritable rest
end

/-! ## Writing -/

/-- Puts a text on a new line, unless the text before ends a line already. -/
def appendLine (indent : Nat) (before line : List Char) : List Char :=
  let gap := List.replicate indent ' '
  if before.getLast?.any isBreak then before ++ gap ++ line
  else before ++ '\n' :: gap ++ line

/-- Joins the entries of a block collection, the first of them on the line that is `fresh`. -/
def layOut (indent : Nat) (fresh : Bool) : List (List Char) → List Char
  | [] => []
  | first :: rest =>
    let start := if fresh then ' ' :: first else appendLine indent [] first
    rest.foldl (appendLine indent) start

/-- The indentation of the entries of a collection inside one with the given indentation. -/
def deeper : Option Nat → Nat
  | none => 0
  | some indent => indent + 2

mutual
/-- Writes a value from behind an indicator on.  `indent` is the indentation of the collection
around it, and `inMapping` tells that this is a mapping. -/
def blockText (indent : Option Nat) (fresh inMapping : Bool) : Value → List Char
  | .string text => ' ' :: scalarText ((indent.getD 0) + 2) text
  | .sequence [] => " []".toList
  | .sequence items =>
    let inner := if inMapping && !fresh then indent.getD 0 else deeper indent
    layOut inner fresh (itemTexts inner items)
  | .mapping [] => " \x7b\x7d".toList
  | .mapping entries =>
    let inner := deeper indent
    layOut inner fresh (entryTexts inner entries)
  | .tagged label value => ' ' :: labelText label ++ blockText indent false inMapping value
  | .null => " null".toList
  | .bool b => if b then " true".toList else " false".toList
  | .int i => ' ' :: Text.intDigits i
  | .float x => ' ' :: (Floating.text Floating.yaml double x).toList

/-- Writes the items of a sequence. -/
def itemTexts (indent : Nat) : List Value → List (List Char)
  | [] => []
  | v :: rest => ('-' :: blockText (some indent) true false v) :: itemTexts indent rest

/-- Writes the entries of a mapping. -/
def entryTexts (indent : Nat) : List (Value × Value) → List (List Char)
  | [] => []
  | (k, v) :: rest =>
    (if k.isSimpleKey 0 then
      (blockText (some indent) false true k).drop 1 ++ ':' :: blockText (some indent) false true v
    else
      appendLine indent ('?' :: blockText (some indent) true true k)
        (':' :: blockText (some indent) true true v)) :: entryTexts indent rest
end

/-- The value as a text; `none` if it cannot be written. -/
def render? (value : Value) : Option String :=
  if value.isWritable false then
    some (String.ofList ((blockText none true false value).drop 1))
  else none

end Value

end ConfigTree.Yaml
