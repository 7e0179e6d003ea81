import ConfigTree.Tree.Leaves

/-!
# References in a text

A leaf refers to another one by a dollar sign and its flat name, in braces (`${name}`) or bare
(`$name`).  A bare name must not be followed by a letter, a digit or an underscore.  Where several
names of a table match at one place, the first one in the order of the table counts.

`scan` cuts a text into pieces in one pass from left to right: references, and the characters
between them.  Both uses of a scan are read off its pieces: `substituteText` puts the texts of the
table in the place of the references, without looking at them again, and `referencesIn` lists the
names.
-/

namespace ConfigTree

/-- A reference found in a text. -/
structure Reference where
  /-- The flat name it names. -/
  name : String
  /-- The text that the table has for the name. -/
  value : String
  /-- How many characters it has after the dollar sign. -/
  length : Nat
deriving DecidableEq, Repr

namespace Reference

/-- May the character continue a bare name? -/
def isWordChar (c : Char) : Bool :=
  c.isAlphanum || c == '_'

/-- The length after the dollar sign of a reference to `name` at the start of `body`, which is what
follows the dollar sign. -/
def lengthAt? (name body : List Char) : Option Nat :=
  if name.isEmpty then none
  else if ('{' :: name ++ ['}']).isPrefixOf body then some (name.length + 2)
  else if name.isPrefixOf body && !((body.drop name.length).head?.any isWordChar) then
    some name.length
  else none

/-- The reference at the start of what follows a dollar sign. -/
def match? : Table → List Char → Option Reference
  | [], _ => none
  | (name, value) :: rest, body => match lengthAt? name.toList body with
    | some length => some ⟨name, value, length⟩
    | none => match? rest body

end Reference

/-- A piece of a scanned text. -/
inductive Piece where
  /-- A character that belongs to no reference. -/
  | plain (c : Char)
  | reference (found : Reference)
deriving DecidableEq, Repr

/-- Cuts a text into pieces; the first `skip` characters belong to the reference just found. -/
def scanFrom (table : Table) : Nat → List Char → List Piece
  | _, [] => []
  | skip + 1, _ :: rest => scanFrom table skip rest
  | 0, c :: rest =>
    if c = '$' then
      match Reference.match? table rest with
      | some found => .reference found :: scanFrom table found.length rest
      | none => .plain c :: scanFrom table 0 rest
    else .plain c :: scanFrom table 0 rest

/-- Cuts a text into references and the characters between them. -/
def scan (table : Table) (text : String) : List Piece :=
  scanFrom table 0 text.toList

/-- What a piece is replaced by. -/
def Piece.replacement : Piece → List Char
  | .plain c => [c]
  | .reference found => found.value.toList

/-- The name that a piece refers to. -/
def Piece.name? : Piece → Option String
  | .plain _ => none
  | .reference found => some found.name

/-- The text with its references replaced; what they are replaced by is not scanned again. -/
def substituteText (table : Table) (text : String) : String :=
  String.ofList ((scan table text).flatMap Piece.replacement)

/-- The names of the table that a text refers to, in order. -/
def referencesIn (table : Table) (text : String) : List String :=
  (scan table text).filterMap Piece.name?

example : substituteText [("a", "1")] "$\x7ba\x7d0" = "10" := by decide +kernel
example : substituteText [("a", "1")] "$ab $a.b" = "$ab 1.b" := by decide +kernel
example : substituteText [("a", "$b"), ("b", "2")] "$a" = "$b" := by decide +kernel

end ConfigTree
