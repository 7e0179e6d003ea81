import ConfigTree.Yaml.Node
import ConfigTree.Yaml.Token

/-!
# From tokens to nodes

The grammar of a document over tokens, by recursive descent.  A place where a node may be missing is
followed by one of a few tokens; an empty node stands there (`orEmpty`).

An anchor gets the number of different names that came before.  A name that is used again does not
count as different, so the next new name then gets the same number.
-/

namespace ConfigTree.Yaml

/-- The tokens that are still to be read, and the anchors met so far. -/
structure Reading where
  rest : List Token
  anchors : Entries String Nat

/-- Reading from tokens. -/
abbrev Read := StateT Reading (Except Error)

/-- The texts that tag handles stand for. -/
abbrev TagHandles := List (String × String)

/-- The handles that need no directive. -/
def coreHandles : TagHandles := [("!", "!"), ("!!", "tag:yaml.org,2002:")]

namespace Read

/-- The next token. -/
def peek : Read (Option Token) := do
  return (← get).rest.head?

/-- Passes over a token. -/
def skip : Read Unit :=
  modify fun reading => { reading with rest := reading.rest.drop 1 }

/-- Gives a name the next number. -/
def registerAnchor (name : String) : Read Nat := do
  let reading ← get
  let number := reading.anchors.length
  set { reading with anchors := Entries.insert reading.anchors name number }
  return number

/-- Reads a node, unless one of the tokens comes that may follow a missing one. -/
def orEmpty (ends : List Token) (node : Read Node) : Read Node := do
  if (← peek).any (ends.contains ·) then return .empty ⟨none, none⟩ else node

/-! ## Properties -/

/-- Reads an anchor, if one comes. -/
def anchorName? : Read (Option String) := do
  match ← peek with
  | some (.anchor name) =>
    skip
    return some name
  | _ => return none

/-- Reads a tag, if one comes: its handle and its suffix. -/
def writtenTag? : Read (Option (String × String)) := do
  match ← peek with
  | some (.tag handle suffix) =>
    skip
    return some (handle, suffix)
  | _ => return none

/-- The tag that a handle and a suffix mean. -/
def resolveTag (handles : TagHandles) : String × String → Except Error String
  | ("", suffix) => .ok suffix
  | (handle, suffix) => match handles.lookup handle with
    | some text => .ok (text ++ suffix)
    | none => .error .undefinedTagHandle

/-- Reads an anchor and a tag in either order. -/
def properties (handles : TagHandles) : Read Properties := do
  let before ← anchorName?
  let tag ← writtenTag?
  let name ← if before.isSome then pure before else anchorName?
  let tag ← tag.mapM fun written => (resolveTag handles written : Except Error String)
  let anchor ← name.mapM registerAnchor
  return ⟨tag.filter (· != ""), anchor⟩

/-! ## Nodes -/

/-- The node that consists of properties alone, if there are any. -/
def bare (props : Properties) : Read Node := do
  if props.tag.isSome || props.anchor.isSome then return .empty props
  else throw .expectedNode

mutual
/-- Reads a node.  Block collections are allowed if `block` holds, and a sequence that is not
indented if `indentless` does. -/
def node (handles : TagHandles) (block indentless : Bool) : (fuel : Nat) → Read Node
  | 0 => throw .outOfFuel
  | fuel + 1 => do
    if let some (.alias name) ← peek then
      skip
      match Entries.get? (← get).anchors name with
      | some anchor => return .alias anchor
      | none => throw .unknownAnchor
    let props ← properties handles
    match ← peek with
    | some .blockEntry =>
      if indentless then return .sequence props (← indentlessItems handles fuel)
      else bare props
    | some (.scalar plain text) =>
      skip
      return .scalar { props with tag := props.tag.filter (· != "!") } plain text
    | some .flowSequenceStart =>
      skip
      return .sequence props (← flowItems handles true fuel)
    | some .flowMappingStart =>
      skip
      return .mapping props (← flowEntries handles true fuel)
    | some .blockSequenceStart =>
      if block then
        skip
        return .sequence props (← blockItems handles fuel)
      else bare props
    | some .blockMappingStart =>
      if block then
        skip
        return .mapping props (← blockEntries handles fuel)
      else bare props
    | _ => bare props

/-- Reads the items of a block sequence. -/
def blockItems (handles : TagHandles) : (fuel : Nat) → Read (List Node)
  | 0 => throw .outOfFuel
  | fuel + 1 => do
    match ← peek with
    | some .blockEntry =>
      skip
      let item ← orEmpty [.blockEntry, .blockEnd] (node handles true false fuel)
      return item :: (← blockItems handles fuel)
    | some .blockEnd =>
      skip
      return []
    | _ => throw .expectedEntry

/-- Reads the items of a block sequence that is not indented. -/
def indentlessItems (handles : TagHandles) : (fuel : Nat) → Read (List Node)
  | 0 => throw .outOfFuel
  | fuel + 1 => do
    match ← peek with
    | some .blockEntry =>
      skip
      let item ← orEmpty [.blockEntry, .key, .value, .blockEnd] (node handles true false fuel)
      return item :: (← indentlessItems handles fuel)
    | _ => return []

/-- Reads the entries of a block mapping. -/
def blockEntries (handles : TagHandles) : (fuel : Nat) → Read (List (Node × Node))
  | 0 => throw .outOfFuel
  | fuel + 1 => do
    let part := orEmpty [.key, .value, .blockEnd] (node handles true true fuel)
    match ← peek with
    | some .key =>
      skip
      let key ← part
      let value ← if (← peek) == some .value then do
          skip
          part
        else pure (.empty ⟨none, none⟩)
      return (key, value) :: (← blockEntries handles fuel)
    | some .blockEnd =>
      skip
      return []
    | _ => throw .expectedEntry

/-- Reads the items of a flow sequence. -/
def flowItems (handles : TagHandles) (first : Bool) : (fuel : Nat) → Read (List Node)
  | 0 => throw .outOfFuel
  | fuel + 1 => do
    if (← peek) == some .flowSequenceEnd then
      skip
      return []
    if !first then
      if (← peek) != some .flowEntry then throw .expectedEntry
      skip
    match ← peek with
    | some .key =>
      skip
      let item ← flowPair handles fuel
      return item :: (← flowItems handles false fuel)
    | some .flowSequenceEnd =>
      skip
      return []
    | _ =>
      let item ← node handles false false fuel
      return item :: (← flowItems handles false fuel)

/-- Reads a mapping with a single entry inside a flow sequence.  Where its key is missing, the token
that shows this is passed over as well. -/
def flowPair (handles : TagHandles) : (fuel : Nat) → Read Node
  | 0 => throw .outOfFuel
  | fuel + 1 => do
    let key ← if (← peek).any ([.value, .flowEntry, .flowSequenceEnd].contains ·) then do
        skip
        pure (.empty ⟨none, none⟩)
      else node handles false false fuel
    let value ← if (← peek) == some .value then do
        skip
        orEmpty [.flowEntry, .flowSequenceEnd] (node handles false false fuel)
      else pure (.empty ⟨none, none⟩)
    return .mapping ⟨none, none⟩ [(key, value)]

/-- Reads the entries of a flow mapping. -/
def flowEntries (handles : TagHandles) (first : Bool) : (fuel : Nat) → Read (List (Node × Node))
  | 0 => throw .outOfFuel
  | fuel + 1 => do
    if (← peek) == some .flowMappingEnd then
      skip
      return []
    if !first then
      if (← peek) != some .flowEntry then throw .expectedEntry
      skip
    match ← peek with
    | some .key =>
      skip
      let key ← orEmpty [.value, .flowEntry, .flowMappingEnd] (node handles false false fuel)
      let value ← if (← peek) == some .value then do
          skip
          orEmpty [.flowEntry, .flowMappingEnd] (node handles false false fuel)
        else pure (.empty ⟨none, none⟩)
      return (key, value) :: (← flowEntries handles false fuel)
    | some .flowMappingEnd =>
      skip
      return []
    | _ =>
      let key ← node handles false false fuel
      return (key, .empty ⟨none, none⟩) :: (← flowEntries handles false fuel)
end

end Read

/-! ## Documents -/

/-- What the directives of a document say. -/
structure Directives where
  /-- Was the version given? -/
  versioned : Bool
  handles : TagHandles
  /-- Were there any directives? -/
  any : Bool

/-- Reads the directives of a document. -/
def Directives.read : Directives → List Token → Except Error (Directives × List Token)
  | directives, .versionDirective major minor :: rest =>
    if directives.versioned then .error .duplicateDirective
    else if major = 1 && (minor = 1 || minor = 2) then
      Directives.read { directives with versioned := true, any := true } rest
    else .error .unsupportedVersion
  | directives, .tagDirective handle text :: rest =>
    if (directives.handles.lookup handle).isSome then .error .duplicateDirective
    else Directives.read
      { directives with handles := directives.handles ++ [(handle, text)], any := true } rest
  | directives, rest => .ok (directives, rest)

/-- Reads the node of a document that has begun. -/
def readContent (handles : TagHandles) (rest : List Token) : Except Error (Node × List Token) :=
  match rest with
  | [] => .ok (.empty ⟨none, none⟩, [])
  | token :: _ =>
    if [.documentStart, .documentEnd].contains token then .ok (.empty ⟨none, none⟩, rest)
    else do
      let (node, reading) ← Read.node (handles ++ coreHandles) true false (4 * rest.length + 4)
        |>.run ⟨rest, []⟩
      return (node, reading.rest)

/-- The node of the only document that the tokens form; `none` if they form no document. -/
def Node.ofTokens? (tokens : List Token) : Except Error (Option Node) :=
  if tokens.isEmpty then .ok none
  else do
    let (directives, rest) ← Directives.read ⟨false, [], false⟩ tokens
    let (node, rest) ←
      if rest.head? == some .documentStart then readContent directives.handles (rest.drop 1)
      else if directives.any then throw .expectedDocumentStart
      else if rest.head? == some .documentEnd then throw .expectedNode
      else readContent [] rest
    if rest.all (· == .documentEnd) then return some node else throw .severalDocuments

end ConfigTree.Yaml
