import ConfigTree.Text.Basic
import ConfigTree.Text.Quoted
import ConfigTree.Tree.Leaves
import ConfigTree.Yaml.Scalar

/-!
# Writing a tree as a document

A tree is written line by line in block style, every leaf so that it reads back as the same text.
Nodes can have comments, given by flat name: that of a leaf stands behind it on its line, that of a
collection on a line of its own above it.
-/

namespace ConfigTree.Tree

/-- How many columns a nested collection is moved to the right. -/
def indented (line : String) : String := "  " ++ line

/-- A text as a scalar on one line. -/
def scalarLine (text : String) : String :=
  if text.toList.any (fun c => c == '\n' || c == '\r') then Text.jsonQuoted text
  else
    let written := Yaml.scalarText 2 text
    if written.contains '\n' then Text.jsonQuoted text else String.ofList written

/-- The comment at a name, on one line; blank ones are left out. -/
def commentAt (comments : Table) (name : String) : Option String :=
  ((Entries.get? comments name).map fun text => " ".intercalate (Text.lines text)).filter
    fun line => !(line.toList.all Text.isBlank)

/-- A tree that is written on the line of its key or dash: a leaf or an empty collection. -/
def inline? : Tree → Option String
  | .scalar text => some (scalarLine text)
  | .sequence [] => some "[]"
  | .mapping [] => some "\x7b\x7d"
  | _ => none

/-- Puts a comment behind a line. -/
def withComment (line : String) : Option String → String
  | some comment => line ++ "  # " ++ comment
  | none => line

/-- The line of a comment above a collection. -/
def commentLine : Option String → List String
  | some comment => ["# " ++ comment]
  | none => []

/-- Puts a dash before the first of some lines and moves the others to the right of it. -/
def dashed : List String → List String
  | [] => []
  | first :: rest => ("- " ++ first) :: rest.map indented

mutual
/-- The lines of a collection with the given name. -/
def bodyLines (comments : Table) (name : String) : Tree → List String
  | .scalar _ => []
  | .sequence items => itemLines comments name 0 items
  | .mapping entries => entryLines comments name entries

/-- The lines of the items of a sequence, counted from `index` on. -/
def itemLines (comments : Table) (name : String) (index : Nat) : List Tree → List String
  | [] => []
  | item :: rest =>
    let child := childName name (Text.showNat index)
    let comment := commentAt comments child
    (match item.inline? with
      | some text => [withComment ("- " ++ text) comment]
      | none => commentLine comment ++ dashed (bodyLines comments child item)) ++
      itemLines comments name (index + 1) rest

/-- The lines of the entries of a mapping. -/
def entryLines (comments : Table) (name : String) : List (String × Tree) → List String
  | [] => []
  | (key, value) :: rest =>
    let child := childName name key
    let comment := commentAt comments child
    (match value.inline? with
      | some text => [withComment (scalarLine key ++ ": " ++ text) comment]
      | none => commentLine comment ++
          (scalarLine key ++ ":") :: (bodyLines comments child value).map indented) ++
      entryLines comments name rest
end

/-- The lines of a document. -/
def documentLines (comments : Table) (tree : Tree) : List String :=
  match tree.inline? with
  | some text => [text]
  | none => bodyLines comments "" tree

/-- The document of a tree, with comments. -/
def toYamlWith (comments : Table) (tree : Tree) : String :=
  "\n".intercalate (documentLines comments tree) ++ "\n"

/-- The document of a tree. -/
def toYaml (tree : Tree) : String :=
  toYamlWith [] tree

end ConfigTree.Tree
