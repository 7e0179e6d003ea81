import ConfigTree.Text.Quoted
import ConfigTree.Tree.Basic

/-!
# Excerpts of a tree

How a message shows a tree: a leaf as a quoted text, anything else as JSON without blanks, and
either cut to sixty characters.
-/

namespace ConfigTree.Tree

mutual
/-- A tree as JSON without blanks. -/
def compact : Tree → String
  | .scalar text => Text.jsonQuoted text
  | .sequence items => "[" ++ ",".intercalate (compactItems items) ++ "]"
  | .mapping entries => "\x7b" ++ ",".intercalate (compactEntries entries) ++ "\x7d"

/-- Each item as JSON. -/
def compactItems : List Tree → List String
  | [] => []
  | t :: rest => compact t :: compactItems rest

/-- Each entry as a member of a JSON object. -/
def compactEntries : List (String × Tree) → List String
  | [] => []
  | (k, t) :: rest => (Text.jsonQuoted k ++ ":" ++ compact t) :: compactEntries rest
end

/-- The longest excerpt that is shown whole. -/
def excerptWidth : Nat := 60

/-- The tree as a message shows it. -/
def excerpt (tree : Tree) : String :=
  let shown := (match tree with
    | .scalar text => Text.quoted text
    | other => other.compact).toList
  if excerptWidth < shown.length then
    String.ofList (shown.take (excerptWidth - 3) ++ ['.', '.', '.'])
  else String.ofList shown

end ConfigTree.Tree
