import ConfigTree.Floating.Decimal
import ConfigTree.IntegerRange
import ConfigTree.Yaml.Node

/-!
# YAML values

What a document means: its plain scalars are null, booleans, numbers or strings (`Value.ofPlain`), a
core tag can ask for one of them (`Value.ofCoreTag?`), and a tag that begins with an exclamation
mark stays as a label.

`Value.ofNode` follows aliases.  It is bounded twice: by the depth to which collections are nested,
and by the number of aliases followed.
-/

namespace ConfigTree.Yaml

/-- A YAML value. -/
inductive Value where
  | null
  | bool (value : Bool)
  | int (value : Int)
  | float (value : Floating)
  | string (text : String)
  | sequence (items : List Value)
  | mapping (entries : List (Value × Value))
  /-- A value with a label. -/
  | tagged (label : String) (value : Value)
deriving Inhabited, Repr

namespace Value

/-- Are two numbers equal as keys?  All non-numbers are, and so are the two zeros. -/
def sameFloat (a b : Floating) : Bool :=
  a == b || a.equal b

mutual
/-- Are the values equal as keys? -/
def same : Value → Value → Bool
  | .null, .null => true
  | .bool a, .bool b => a == b
  | .int a, .int b => a == b
  | .float a, .float b => sameFloat a b
  | .string a, .string b => a == b
  | .sequence as, .sequence bs => sameItems as bs
  | .mapping as, .mapping bs => as.length == bs.length && entriesWithin as bs
  | .tagged s a, .tagged t b => s == t && same a b
  | _, _ => false

/-- Are the lists equal, item by item? -/
def sameItems : List Value → List Value → Bool
  | [], [] => true
  | a :: as, b :: bs => same a b && sameItems as bs
  | _, _ => false

/-- Has each entry of the first list a counterpart in the second? -/
def entriesWithin : List (Value × Value) → List (Value × Value) → Bool
  | [], _ => true
  | (k, v) :: as, bs =>
    bs.any (fun entry => same k entry.1 && same v entry.2) && entriesWithin as bs
end

/-! ## Scalars -/

/-- The word for a boolean. -/
def readBool? (text : String) : Option Bool :=
  if ["true", "True", "TRUE"].contains text then some true
  else if ["false", "False", "FALSE"].contains text then some false
  else none

/-- Is the text one of the spellings of null? -/
def isNull (text : String) : Bool :=
  ["~", "null", "Null", "NULL"].contains text

/-- Are these two or more digits of which the first is a zero, after an optional sign?  They are not
read as a number. -/
def isPadded (cs : List Char) : Bool :=
  match (match cs with
    | '-' :: rest => rest
    | '+' :: rest => rest
    | _ => cs) with
  | '0' :: d :: rest => (d :: rest).all Char.isDigit
  | _ => false

/-- Reads digits behind `0x`, `0o` or `0b`, or decimal digits. -/
def readMagnitude? (padded : Bool) (cs : List Char) : Option Nat :=
  let based := match cs with
    | '0' :: 'x' :: rest => Text.readNatIn? 16 rest
    | '0' :: 'o' :: rest => Text.readNatIn? 8 rest
    | '0' :: 'b' :: rest => Text.readNatIn? 2 rest
    | _ => none
  based.or (if padded then none else Text.readNat? cs)

/-- Reads an integer of whatever size. -/
def readInt? (cs : List Char) : Option Int :=
  let padded := isPadded cs
  match cs with
  | '-' :: rest => (readMagnitude? padded rest).map fun n => -(n : Int)
  | '+' :: rest => (readMagnitude? padded rest).map fun n => (n : Int)
  | _ => (readMagnitude? padded cs).map fun n => (n : Int)

/-- What an integer of a given size is. -/
inductive IntegerFit where
  | fits
  /-- Too large for 64 bits, but not for 128. -/
  | wide
  | huge
deriving DecidableEq, Repr

/-- The least integer of 128 bits, one of which is the sign. -/
def leastWide : Int := -170141183460469231731687303715884105728

/-- The greatest integer of 128 bits. -/
def greatestWide : Int := 340282366920938463463374607431768211455

/-- Which of the sizes an integer has; negative ones need a bit for the sign. -/
def integerFit (i : Int) : IntegerFit :=
  if IntegerRange.signed64.contains i || IntegerRange.unsigned64.contains i then .fits
  else if leastWide ≤ i && i ≤ greatestWide then .wide
  else .huge

/-- Reads a floating-point number: a finite decimal, or a word for infinity or a non-number. -/
def readFloat? (cs : List Char) : Option Floating :=
  let unsigned := match cs with
    | '+' :: rest => rest
    | _ => cs
  if [".inf", ".Inf", ".INF"].any (·.toList == unsigned) then some (.infinite false)
  else if ["-.inf", "-.Inf", "-.INF"].any (·.toList == cs) then some (.infinite true)
  else if [".nan", ".NaN", ".NAN"].any (·.toList == cs) then some .nan
  else if cs.length != unsigned.length && (unsigned.head? == some '+' || unsigned.head? == some '-')
  then none
  else (Floating.read? double unsigned).filter Floating.isFinite

/-- What a plain scalar means. -/
def ofPlain (text : String) : Except Error Value :=
  let cs := text.toList
  if cs.isEmpty || isNull text then .ok .null
  else match readBool? text with
    | some b => .ok (.bool b)
    | none =>
      let float := fun (_ : Unit) =>
        if isPadded cs then Value.string text
        else match readFloat? cs with
          | some x => .float x
          | none => .string text
      match readInt? cs with
      | none => .ok (float ())
      | some i => match integerFit i with
        | .fits => .ok (.int i)
        | .wide => .error .integerOutOfRange
        | .huge => .ok (float ())

/-- What a scalar means that has a core tag; `none` if the tag is not one of those that ask for a
form. -/
def ofCoreTag? (tag text : String) : Option (Except Error Value) :=
  let cs := text.toList
  let demand := fun (value : Option Value) => match value with
    | some value => Except.ok value
    | none => .error .tagMismatch
  if tag = "tag:yaml.org,2002:bool" then some (demand ((readBool? text).map .bool))
  else if tag = "tag:yaml.org,2002:int" then
    some (demand (((readInt? cs).filter (integerFit · == .fits)).map .int))
  else if tag = "tag:yaml.org,2002:float" then some (demand ((readFloat? cs).map .float))
  else if tag = "tag:yaml.org,2002:null" then
    some (demand (if isNull text then some .null else none))
  else none

/-- The label that a tag leaves on a value: what follows its exclamation mark. -/
def labelOf? (tag : Option String) : Option String :=
  tag.bind fun text => match text.toList with
    | ['!'] => some "!"
    | '!' :: rest => some (String.ofList rest)
    | _ => none

/-- What a scalar means; `labelled` tells that a label has been found already. -/
def ofScalar (labelled : Bool) (tag : Option String) (plain : Bool) (text : String) :
    Except Error Value :=
  let meant := if plain then ofPlain text else .ok (.string text)
  match tag, labelled with
  | none, _ => meant
  | some _, true => meant
  | some tag, false => match labelOf? (some tag) with
    | some _ => meant
    | none => (ofCoreTag? tag text).getD (.ok (.string text))

/-! ## Nodes -/

/-- How deeply collections may be nested. -/
def maxDepth : Nat := 128

/-- What aliases mean, and how many of them may be followed. -/
structure Sharing where
  anchors : Anchors
  limit : Nat

/-- Meaning is found while counting the aliases that are followed. -/
abbrev Follow := StateT Nat (Except Error)

/-- The node that a node stands for. -/
def follow (sharing : Sharing) : Node → Follow Node
  | .alias anchor => do
    let followed := (← get) + 1
    set followed
    if sharing.limit < followed then throw .tooManyAliases
    match sharing.anchors.find? anchor with
    | some node => return node
    | none => throw .unknownAnchor
  | node => return node

/-- Puts the label of a tag on a value, unless a label has been found already. -/
def labelWith (labelled : Bool) (tag : Option String) (value : Value) : Value :=
  match labelOf? tag with
  | some label => if labelled then value else .tagged label value
  | none => value

/-- Reads the values of the entries of a mapping, whose keys have to be different. -/
def entriesOf (key value : Node → Follow Value) (seen : List (Value × Value)) :
    List (Node × Node) → Follow (List (Value × Value))
  | [] => return seen.reverse
  | (k, v) :: rest => do
    let k ← key k
    if seen.any fun entry => same entry.1 k then throw .duplicateKey
    let v ← value v
    entriesOf key value ((k, v) :: seen) rest

/-- What a node means that is no alias.  `inner` tells what the nodes in it mean, and is missing
where collections are nested too deeply.  A key of a mapping with a label counts as labelled
itself. -/
def ofNodeStep (inner : Option (Bool → Node → Follow Value)) (labelled : Bool) :
    Node → Follow Value
  | .alias _ => throw .unknownAnchor
  | .scalar props plain text => do
    return labelWith labelled props.tag (← ofScalar labelled props.tag plain text)
  | .sequence props items => match inner with
    | none => throw .tooDeep
    | some inner => do
      let items ← items.mapM (inner false)
      return labelWith labelled props.tag (.sequence items)
  | .mapping props entries => match inner with
    | none => throw .tooDeep
    | some inner => do
      let keyLabelled := labelled || (labelOf? props.tag).isSome
      let entries ← entriesOf (inner keyLabelled) (inner false) [] entries
      return labelWith labelled props.tag (.mapping entries)

/-- What a node means, collections being nested at most `depth` deep. -/
def ofNodeWithin (sharing : Sharing) : (depth : Nat) → (labelled : Bool) → Node → Follow Value
  | 0, labelled, node => do ofNodeStep none labelled (← follow sharing node)
  | depth + 1, labelled, node => do
    ofNodeStep (some (ofNodeWithin sharing depth)) labelled (← follow sharing node)

/-- What the node of a document means. -/
def ofNode (node : Node) : Except Error Value := do
  let sharing : Sharing := ⟨node.anchored, 100 * node.size⟩
  let (value, _) ← (ofNodeWithin sharing maxDepth false node).run 0
  return value

end Value

end ConfigTree.Yaml
