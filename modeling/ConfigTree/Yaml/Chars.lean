/-!
# Character classes of YAML

Which characters a text may contain, which of them end a line, and which ones names are made of.
-/

namespace ConfigTree.Yaml

/-- May the character stand in a text at all? -/
def isAllowed (c : Char) : Bool :=
  let n := c.toNat
  n == 0x9 || n == 0xa || n == 0xd || (0x20 ≤ n && n ≤ 0x7e) || n == 0x85 ||
    (0xa0 ≤ n && n ≤ 0xd7ff) || (0xe000 ≤ n && n ≤ 0xfffd) || 0x10000 ≤ n

/-- Does the character end a line?  Texts are scanned after `normalizeBreaks`, which leaves only
three of the five. -/
def isBreak (c : Char) : Bool :=
  c == '\n' || c == '\r' || c == '\x85' || c == '\u2028' || c == '\u2029'

/-- A space or a tab. -/
def isBlank (c : Char) : Bool :=
  c == ' ' || c == '\t'

/-- A space, a tab or the end of a line. -/
def isGap (c : Char) : Bool :=
  isBlank c || isBreak c

/-- A character of anchors, directives and tag handles. -/
def isWord (c : Char) : Bool :=
  c.isAlphanum || c == '_' || c == '-'

/-- The byte order mark. -/
def byteOrderMark : Char := '\ufeff'

/-- Is the rest of a text empty, or does it go on with a blank or the end of a line? -/
def startsGap : List Char → Bool
  | [] => true
  | c :: _ => isGap c

/-- Writes every line end as a line feed, except the line and paragraph separators, which stay. -/
def normalizeBreaks : List Char → List Char
  | [] => []
  | '\r' :: '\n' :: rest => '\n' :: normalizeBreaks rest
  | c :: rest => (if c == '\r' || c == '\x85' then '\n' else c) :: normalizeBreaks rest

end ConfigTree.Yaml
