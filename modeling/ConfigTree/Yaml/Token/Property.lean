import ConfigTree.Text.Digits
import ConfigTree.Yaml.Cursor
import ConfigTree.Yaml.Token

/-!
# Anchors, tags and directives

How the properties of a node and the directives of a document are read.  Each function starts at the
first character of what it reads and answers the token together with the place behind it.

A tag is a handle and a suffix: `!suffix` has the handle `!`, `!word!suffix` the handle `!word!`,
and `!<uri>` none.  An exclamation mark alone has the suffix `!` and no handle.
-/

namespace ConfigTree.Yaml

open Text (digitValue? ofDigits readNat?)

/-! ## Anchors -/

/-- May an anchor end before this text? -/
def endsName (rest : List Char) : Bool :=
  startsGap rest || rest.head?.any ("?:,]\x7d%@\x60".toList.contains ·)

/-- Reads the name of an anchor from behind its indicator. -/
def scanName (c : Cursor) : Except Error (String × Cursor) :=
  let name := c.rest.takeWhile isWord
  let after := c.advance name.length
  if name.isEmpty || !endsName after.rest then .error .badAnchor
  else .ok (String.ofList name, after)

/-! ## Tags -/

/-- Is the character one of those that the text of a tag consists of?  In a `full` address a comma
and brackets count as well. -/
def isTagChar (full : Bool) (c : Char) : Bool :=
  isWord c || ";/?:@&=+$.!~*'()%".toList.contains c || (full && ",[]".toList.contains c)

/-- How many octets a character takes whose encoding begins with this octet. -/
def encodedLength? (octet : Nat) : Option Nat :=
  if octet < 0x80 then some 1
  else if 0xc0 ≤ octet && octet < 0xe0 then some 2
  else if 0xe0 ≤ octet && octet < 0xf0 then some 3
  else if 0xf0 ≤ octet && octet < 0xf8 then some 4
  else none

/-- The character that octets encode. -/
def decodeOctets : List Nat → Char
  | [] => '\ufffd'
  | lead :: trail =>
    let lead := match trail.length with
      | 0 => lead
      | 1 => lead % 0x20
      | 2 => lead % 0x10
      | _ => lead % 0x08
    let code := trail.foldl (fun acc octet => acc * 64 + octet % 64) lead
    if h : code.isValidChar then Char.ofNatAux code h else '\ufffd'

/-- Reads a percent sign and two hexadecimal digits as an octet. -/
def readOctet? : List Char → Option (Nat × List Char)
  | '%' :: a :: b :: rest => do
    let high ← (digitValue? a).filter (· < 16)
    let low ← (digitValue? b).filter (· < 16)
    return (high * 16 + low, rest)
  | _ => none

/-- Reads `n` octets that go on an encoding. -/
def readTrail? : (n : Nat) → List Char → Option (List Nat × List Char)
  | 0, rest => some ([], rest)
  | n + 1, rest => do
    let (octet, rest) ← readOctet? rest
    if octet / 64 != 2 then none
    let (more, rest) ← readTrail? n rest
    return (octet :: more, rest)

/-- Replaces the percent escapes in the text of a tag by the characters they encode. -/
def decodeTagText : (fuel : Nat) → List Char → Except Error (List Char)
  | 0, _ => .error .outOfFuel
  | _ + 1, [] => .ok []
  | fuel + 1, '%' :: rest =>
    let decoded : Option (Char × List Char) := do
      let (lead, rest) ← readOctet? ('%' :: rest)
      let length ← encodedLength? lead
      let (trail, rest) ← readTrail? (length - 1) rest
      return (decodeOctets (lead :: trail), rest)
    match decoded with
    | none => .error .badTag
    | some (ch, rest) => (ch :: ·) <$> decodeTagText fuel rest
  | fuel + 1, c :: rest => (c :: ·) <$> decodeTagText fuel rest

/-- Reads the text of a tag. -/
def scanTagText (full : Bool) (c : Cursor) : Except Error (List Char × Cursor) := do
  let written := c.rest.takeWhile (isTagChar full)
  let text ← decodeTagText (written.length + 1) written
  return (text, c.advance written.length)

/-- Reads the handle of a tag, which is `!`, `!word` or `!word!`. -/
def scanTagHandle (c : Cursor) : List Char × Cursor :=
  let word := c.next.rest.takeWhile isWord
  let after := c.next.advance word.length
  if after.at? '!' then ('!' :: word ++ ['!'], after.next) else ('!' :: word, after)

/-- Reads a tag. -/
def scanTag (flow : Bool) (c : Cursor) : Except Error (Token × Cursor) := do
  let (token, after) ← (do
    if c.next.at? '<' then
      let (text, after) ← scanTagText true (c.advance 2)
      if text.isEmpty || !after.at? '>' then throw .badTag
      return (Token.tag "" (String.ofList text), after.next)
    else
      let (handle, after) := scanTagHandle c
      if 1 < handle.length && handle.getLast? == some '!' then
        let (text, after) ← scanTagText false after
        if text.isEmpty then throw .badTag
        return (.tag (String.ofList handle) (String.ofList text), after)
      else
        let (text, after) ← scanTagText false after
        let suffix := handle.drop 1 ++ text
        return (if suffix.isEmpty then .tag "" "!" else .tag "!" (String.ofList suffix), after))
  if !startsGap after.rest && !(flow && after.at? ',') then throw .badTag
  return (token, after)

/-! ## Directives -/

/-- Reads a number of at most nine digits. -/
def scanVersionNumber (c : Cursor) : Except Error (Nat × Cursor) :=
  let digits := c.rest.takeWhile Char.isDigit
  match readNat? digits with
  | some n => if digits.length ≤ 9 then .ok (n, c.advance digits.length) else .error .badDirective
  | none => .error .badDirective

/-- Reads the value of a directive. -/
def scanDirectiveValue (name : String) (c : Cursor) : Except Error (Token × Cursor) := do
  let c := c.skipWhile isBlank
  if name = "YAML" then
    let (major, c) ← scanVersionNumber c
    if !c.at? '.' then throw .badDirective
    let (minor, c) ← scanVersionNumber c.next
    return (.versionDirective major minor, c)
  else if name = "TAG" then
    if !c.at? '!' then throw .badDirective
    let (handle, c) := scanTagHandle c
    if handle.getLast? != some '!' || !c.rest.head?.any isBlank then throw .badDirective
    let (text, c) ← scanTagText true (c.skipWhile isBlank)
    if text.isEmpty || !startsGap c.rest then throw .badDirective
    return (.tagDirective (String.ofList handle) (String.ofList text), c)
  else throw .badDirective

/-- Reads a directive up to the end of its line. -/
def scanDirective (c : Cursor) : Except Error (Token × Cursor) := do
  let name := c.next.rest.takeWhile isWord
  let c := c.next.advance name.length
  if name.isEmpty || !startsGap c.rest then throw .badDirective
  let (token, c) ← scanDirectiveValue (String.ofList name) c
  let c := c.skipWhile isBlank
  let c := if c.at? '#' then c.skipWhile (!isBreak ·) else c
  if !c.rest.isEmpty && !c.rest.head?.any isBreak then throw .badDirective
  return (token, c.next)

end ConfigTree.Yaml
