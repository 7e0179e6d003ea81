import ConfigTree.Yaml.Token.Property
import ConfigTree.Yaml.Token.Scalar

/-!
# From a text to its tokens

`tokens` cuts a text into tokens.  Two things are not written in a text as characters and are found
while scanning.

* *Block collections.*  The columns at which they begin form a stack.  An entry to the right of the
  innermost collection begins a new one; a token to its left ends it.
* *Keys without a question mark.*  A scalar or collection turns out to be a key only when a colon
  follows.  Where a key may begin, the number of tokens before it is remembered as a `PendingKey`;
  the colon then inserts the tokens for the key at that place.  A pending key is given up when its
  line ends or after 1024 characters.
-/

namespace ConfigTree.Yaml

/-- A place at which a key may have begun. -/
structure PendingKey where
  /-- The tokens before the key. -/
  tokensBefore : Nat
  /-- Nothing but a key may stand here. -/
  required : Bool
  start : Cursor

/-- A text that is partly cut into tokens. -/
structure Lexer where
  cursor : Cursor
  /-- The tokens so far, the last one first. -/
  done : List Token
  /-- How many tokens there are. -/
  count : Nat
  /-- The column of the innermost block collection, or −1. -/
  indent : Int
  /-- The columns of those around it. -/
  outerIndents : List Int
  /-- The pending key of the innermost flow collection. -/
  pending : Option PendingKey
  /-- Those of the collections around it; there are as many as open flow collections. -/
  outerPending : List (Option PendingKey)
  /-- May a key begin here? -/
  keyAllowed : Bool

namespace Lexer

/-- The state before the first token.  A byte order mark at the start counts as a column. -/
def start (text : List Char) : Lexer :=
  let cursor := Cursor.start text
  ⟨if cursor.at? byteOrderMark then cursor.next else cursor, [], 0, -1, [], none, [], true⟩

/-- Is the place inside a flow collection? -/
def inFlow (l : Lexer) : Bool := !l.outerPending.isEmpty

/-- Adds a token. -/
def push (l : Lexer) (token : Token) : Lexer :=
  { l with done := token :: l.done, count := l.count + 1 }

/-- Inserts a token behind the first `before` tokens. -/
def insertToken (l : Lexer) (before : Nat) (token : Token) : Lexer :=
  let later := l.count - before
  { l with done := l.done.take later ++ token :: l.done.drop later, count := l.count + 1 }

/-! ## Block collections -/

/-- Begins a block collection at a column, unless there is one; its token goes behind the first
`before` tokens. -/
def openBlock (l : Lexer) (column before : Nat) (token : Token) : Lexer :=
  if l.inFlow || (column : Int) ≤ l.indent then l
  else
    { l.insertToken before token with
      indent := column, outerIndents := l.indent :: l.outerIndents }

/-- How many block collections begin to the right of a column, and what remains of the stack. -/
def closedBy (column : Int) (indent : Int) : List Int → Nat × Int × List Int
  | [] => (0, indent, [])
  | outer :: rest =>
    if column < indent then
      let (n, remaining) := closedBy column outer rest
      (n + 1, remaining)
    else (0, indent, outer :: rest)

/-- Ends the block collections that begin to the right of a column. -/
def closeBlocks (l : Lexer) (column : Int) : Lexer :=
  if l.inFlow then l
  else
    let (n, indent, outer) := closedBy column l.indent l.outerIndents
    { l with
      done := List.replicate n .blockEnd ++ l.done, count := l.count + n
      indent := indent, outerIndents := outer }

/-! ## Pending keys -/

/-- Gives a pending key up if it lies too far back. -/
def dropStale (here : Cursor) : Option PendingKey → Except Error (Option PendingKey)
  | none => .ok none
  | some key =>
    if key.start.line < here.line || key.start.index + 1024 < here.index then
      if key.required then .error .keyWithoutValue else .ok none
    else .ok (some key)

/-- Gives all pending keys up that lie too far back. -/
def dropStaleKeys (l : Lexer) : Except Error Lexer := do
  let pending ← dropStale l.cursor l.pending
  let outer ← l.outerPending.mapM (dropStale l.cursor)
  return { l with pending := pending, outerPending := outer }

/-- Gives the innermost pending key up. -/
def dropKey (l : Lexer) : Except Error Lexer :=
  if l.pending.any (·.required) then .error .keyWithoutValue else .ok { l with pending := none }

/-- Remembers that a key may begin here. -/
def saveKey (l : Lexer) : Except Error Lexer := do
  if l.keyAllowed then
    let l ← l.dropKey
    let required := !l.inFlow && l.indent == l.cursor.column
    return { l with pending := some ⟨l.count, required, l.cursor⟩ }
  else return l

/-! ## Between tokens -/

/-- How many characters lie before the next token, and whether a key may begin there. -/
def gapLength (flow keyAllowed comment : Bool) : List Char → Nat × Bool
  | [] => (0, keyAllowed)
  | c :: rest =>
    let past := fun (allowed inComment : Bool) =>
      let (n, allowed) := gapLength flow allowed inComment rest
      (n + 1, allowed)
    if isBreak c then past (keyAllowed || !flow) false
    else if comment then past keyAllowed true
    else if c == ' ' || (c == '\t' && (flow || !keyAllowed)) then past keyAllowed false
    else if c == '#' then past keyAllowed true
    else (0, keyAllowed)

/-- Moves to the next token. -/
def skipGap (l : Lexer) : Lexer :=
  let (n, allowed) := gapLength l.inFlow l.keyAllowed false l.cursor.rest
  { l with cursor := l.cursor.advance n, keyAllowed := allowed }

/-! ## Single tokens -/

/-- Reads a mark or directive, which ends all collections. -/
def structural (l : Lexer) (token : Token) (after : Cursor) : Except Error Lexer := do
  let l ← (l.closeBlocks (-1)).dropKey
  return { l.push token with cursor := after, keyAllowed := false }

/-- Reads the opening bracket of a flow collection. -/
def openFlow (l : Lexer) (token : Token) : Except Error Lexer := do
  let l ← l.saveKey
  return { l.push token with
    cursor := l.cursor.next, keyAllowed := true
    pending := none, outerPending := l.pending :: l.outerPending }

/-- Reads the closing bracket of a flow collection. -/
def closeFlow (l : Lexer) (token : Token) : Except Error Lexer := do
  let l ← l.dropKey
  let l := { l.push token with cursor := l.cursor.next, keyAllowed := false }
  match l.outerPending with
  | [] => return l
  | pending :: outer => return { l with pending := pending, outerPending := outer }

/-- Reads an entry of a block collection at the cursor, or in a flow collection its indicator. -/
def entry (l : Lexer) (collection token : Token) (keyFollows : Bool) : Except Error Lexer := do
  if !l.inFlow && !l.keyAllowed then throw .entryNotAllowed
  let l ← (l.openBlock l.cursor.column l.count collection).dropKey
  return { l.push token with cursor := l.cursor.next, keyAllowed := keyFollows }

/-- Reads the colon before a value. -/
def valueIndicator (l : Lexer) : Except Error Lexer :=
  match l.pending with
  | some key =>
    let l := l.insertToken key.tokensBefore .key
    let l := l.openBlock key.start.column key.tokensBefore .blockMappingStart
    .ok { l.push .value with cursor := l.cursor.next, pending := none, keyAllowed := false }
  | none =>
    if !l.inFlow && !l.keyAllowed then .error .entryNotAllowed
    else
      let l := l.openBlock l.cursor.column l.count .blockMappingStart
      .ok { l.push .value with cursor := l.cursor.next, keyAllowed := !l.inFlow }

/-- Adds a token that has been read, where it may be the start of a key. -/
def keyLike (l : Lexer) (read : Token × Cursor) : Except Error Lexer := do
  let l ← l.saveKey
  return { l.push read.1 with cursor := read.2, keyAllowed := false }

/-- Reads an anchor or alias. -/
def named (l : Lexer) (token : String → Token) : Except Error Lexer := do
  let (name, after) ← scanName l.cursor.next
  l.keyLike (token name, after)

/-- Reads a block scalar. -/
def blockScalar (l : Lexer) (literal : Bool) : Except Error Lexer := do
  let l ← l.dropKey
  let read ← scanBlock literal l.indent l.cursor.next
  return { l.push (.scalar false (String.ofList read.text)) with
    cursor := read.after, keyAllowed := true }

/-- Reads a quoted scalar. -/
def quotedScalar (l : Lexer) (single : Bool) : Except Error Lexer := do
  let read ← scanQuoted single (l.cursor.rest.length + 1) l.cursor.next
  l.keyLike (.scalar false (String.ofList read.text), read.after)

/-- Reads a plain scalar. -/
def plainScalar (l : Lexer) : Except Error Lexer := do
  let read ← scanPlain l.inFlow (l.indent + 1) (l.cursor.rest.length + 1) [] l.cursor
  let l ← l.keyLike (.scalar true (String.ofList read.text), read.after)
  return { l with keyAllowed := read.endsLine }

/-- May a plain scalar begin with these characters? -/
def startsPlain (flow : Bool) : List Char → Bool
  | [] => false
  | c :: rest =>
    if c == '-' then !rest.head?.any isBlank
    else if c == '?' || c == ':' then !flow && !startsGap rest
    else !isGap c && !",[]\x7b\x7d#&*!|>'\"%@\x60".toList.contains c

/-- Reads the token that begins with `c`. -/
def token (l : Lexer) (c : Char) (rest : List Char) : Except Error Lexer :=
  let standsAlone := startsGap rest
  match c with
  | '[' => l.openFlow .flowSequenceStart
  | '{' => l.openFlow .flowMappingStart
  | ']' => l.closeFlow .flowSequenceEnd
  | '}' => l.closeFlow .flowMappingEnd
  | ',' => do
    let l ← l.dropKey
    return { l.push .flowEntry with cursor := l.cursor.next, keyAllowed := true }
  | '*' => l.named .alias
  | '&' => l.named .anchor
  | '!' => do l.keyLike (← scanTag l.inFlow l.cursor)
  | '\'' => l.quotedScalar true
  | '"' => l.quotedScalar false
  | _ =>
    if c == '-' && standsAlone then l.entry .blockSequenceStart .blockEntry true
    else if c == '?' && (l.inFlow || standsAlone) then l.entry .blockMappingStart .key (!l.inFlow)
    else if c == ':' && (l.inFlow || standsAlone) then l.valueIndicator
    else if c == '|' && !l.inFlow then l.blockScalar true
    else if c == '>' && !l.inFlow then l.blockScalar false
    else if startsPlain l.inFlow (c :: rest) then l.plainScalar
    else .error (.noToken c)

/-- Reads tokens up to the end of the text. -/
def run : (fuel : Nat) → Lexer → Except Error (List Token)
  | 0, _ => .error .outOfFuel
  | fuel + 1, l => do
    let l ← l.skipGap.dropStaleKeys
    let l := l.closeBlocks l.cursor.column
    match l.cursor.rest with
    | [] =>
      let l ← (l.closeBlocks (-1)).dropKey
      return l.done.reverse
    | c :: rest =>
      let l ← (
        if l.cursor.column == 0 && c == '%' then do
          let (token, after) ← scanDirective l.cursor
          l.structural token after
        else if l.cursor.atMark '-' then l.structural .documentStart (l.cursor.advance 3)
        else if l.cursor.atMark '.' then l.structural .documentEnd (l.cursor.advance 3)
        else l.token c rest)
      run fuel l

end Lexer

/-- The tokens of a text. -/
def tokens (text : String) : Except Error (List Token) :=
  let chars := text.toList
  match chars.find? (!isAllowed ·) with
  | some c => .error (.forbiddenCharacter c)
  | none => Lexer.run (chars.length + 1) (Lexer.start (normalizeBreaks chars))

end ConfigTree.Yaml
