import ConfigTree.Text.Basic
import ConfigTree.Text.Digits
import ConfigTree.Tree.Basic

/-!
# Paths into a tree

A `Path` is a list of segments, each a key or an index.  What a segment selects depends on the tree
it meets: a mapping takes it as a key, a sequence as an index, so the key `"1"` and the index `1`
lead to the same child.

`Path.parse` reads the dotted form (`a.b.0.c` or `a.b[0].c`).  It never fails: empty keys and
brackets that hold no index are left out.  `Path.dotted` writes all segments joined by dots.

`Tree.at?` reads at a path and `Tree.set?` writes.  Every segment on the way has to exist; the last
one may be a new key of a mapping, but not a new index.
-/

namespace ConfigTree

/-- One step of a path. -/
inductive Segment where
  | key (name : String)
  | index (position : Nat)
deriving DecidableEq, Inhabited, Repr

/-- The steps from the root of a tree to one of its nodes. -/
abbrev Path := List Segment

namespace Segment

/-- The segment as a key. -/
def asKey : Segment → String
  | .key name => name
  | .index position => Text.showNat position

/-- The segment as an index. -/
def asIndex? : Segment → Option Nat
  | .key name => Text.readIndex? name.toList
  | .index position => some position

end Segment

namespace Path

/-- The path of a single key, if the key is not empty. -/
def ofKey (key : List Char) : Path :=
  if key.isEmpty then [] else [.key (String.ofList key)]

/-- The path of a single index, if the text between the brackets is one. -/
def ofBracket (inside : List Char) : Path :=
  match Text.readIndex? (Text.trim inside) with
  | some position => [.index position]
  | none => []

mutual
/-- Reads a path; `key` is what has been read of the current key, reversed. -/
def parseKey (key : List Char) : List Char → Path
  | [] => ofKey key.reverse
  | '.' :: rest => ofKey key.reverse ++ parseKey [] rest
  | '[' :: rest => ofKey key.reverse ++ parseBracket [] rest
  | c :: rest => parseKey (c :: key) rest

/-- Reads a path from inside a bracket; `inside` is what has been read of it, reversed.  A bracket
that is not closed ends with the text. -/
def parseBracket (inside : List Char) : List Char → Path
  | [] => ofBracket inside.reverse
  | ']' :: rest => ofBracket inside.reverse ++ parseKey [] rest
  | c :: rest => parseBracket (c :: inside) rest
end

/-- Reads a path in dotted form. -/
def parse (text : String) : Path :=
  parseKey [] text.toList

/-- All segments, joined by dots. -/
def dotted (path : Path) : String :=
  ".".intercalate (path.map Segment.asKey)

end Path

namespace Tree

/-- The child that a segment selects. -/
def child? : Tree → Segment → Option Tree
  | .mapping entries, segment => Entries.get? entries segment.asKey
  | .sequence items, segment => segment.asIndex?.bind (items[·]?)
  | .scalar _, _ => none

/-- The node at a path. -/
def at? : Tree → Path → Option Tree
  | tree, [] => some tree
  | tree, segment :: rest => (tree.child? segment).bind (at? · rest)

/-- Puts a tree in the place of an existing child. -/
def replaceChild : Tree → Segment → Tree → Tree
  | .mapping entries, segment, new => .mapping (Entries.insert entries segment.asKey new)
  | .sequence items, segment, new => match segment.asIndex? with
    | some position => .sequence (items.set position new)
    | none => .sequence items
  | .scalar text, _, _ => .scalar text

/-- Puts a tree in the place of a child, which in a mapping may be new. -/
def setChild? (tree : Tree) (segment : Segment) (new : Tree) : Option Tree :=
  match tree with
  | .mapping _ => some (tree.replaceChild segment new)
  | .sequence _ =>
    if (tree.child? segment).isSome then some (tree.replaceChild segment new) else none
  | .scalar _ => none

/-- Writes at a path; `none` if the path leads nowhere. -/
def set? : Tree → Path → Tree → Option Tree
  | _, [], new => some new
  | tree, [segment], new => tree.setChild? segment new
  | tree, segment :: rest, new =>
    (tree.child? segment).bind fun child => (child.set? rest new).map (tree.replaceChild segment)

@[simp] theorem at?_nil (tree : Tree) : tree.at? [] = some tree := by
  cases tree <;> rfl

@[simp] theorem at?_cons (tree : Tree) (segment : Segment) (rest : Path) :
    tree.at? (segment :: rest) = (tree.child? segment).bind (at? · rest) := by
  cases tree <;> rfl

end Tree

example : Path.parse "a.b[ 2 ].c" = [.key "a", .key "b", .index 2, .key "c"] := by decide +kernel
example : Path.parse "..a[x]b[1" = [.key "a", .key "b", .index 1] := by decide +kernel
example : Path.dotted [.key "a", .index 0, .key ""] = "a.0." := by decide +kernel

end ConfigTree
