import ConfigTree.Yaml.Chars

/-!
# Places in a text

A `Cursor` is the rest of a text together with the place where it begins.
-/

namespace ConfigTree.Yaml

/-- The rest of a text and the place where it begins. -/
structure Cursor where
  rest : List Char
  /-- The lines before. -/
  line : Nat
  /-- The characters before on this line. -/
  column : Nat
  /-- The characters before. -/
  index : Nat
deriving Repr

namespace Cursor

/-- The start of a text. -/
def start (text : List Char) : Cursor := ⟨text, 0, 0, 0⟩

/-- Moves over one character. -/
def next (c : Cursor) : Cursor :=
  match c.rest with
  | [] => c
  | ch :: rest =>
    if isBreak ch then ⟨rest, c.line + 1, 0, c.index + 1⟩
    else ⟨rest, c.line, c.column + 1, c.index + 1⟩

/-- Moves over `n` characters. -/
def advance : Nat → Cursor → Cursor
  | 0, c => c
  | n + 1, c => advance n c.next

/-- Moves over the characters for which `p` holds. -/
def skipWhile (p : Char → Bool) (c : Cursor) : Cursor :=
  advance (c.rest.takeWhile p).length c

/-- Is the next character this one? -/
def at? (c : Cursor) (ch : Char) : Bool :=
  c.rest.head? == some ch

/-- Do three of these characters and a gap stand at the start of this line? -/
def atMark (c : Cursor) (ch : Char) : Bool :=
  c.column == 0 && [ch, ch, ch].isPrefixOf c.rest && startsGap (c.rest.drop 3)

/-- Does a document mark stand here? -/
def atDocumentMark (c : Cursor) : Bool :=
  c.atMark '-' || c.atMark '.'

end Cursor

end ConfigTree.Yaml
