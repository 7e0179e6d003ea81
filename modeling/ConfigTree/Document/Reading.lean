import ConfigTree.Text.Basic
import ConfigTree.Tree.Basic
import ConfigTree.Yaml.Node.Parser
import ConfigTree.Yaml.Token.Lexer
import ConfigTree.Yaml.Value.Printer

/-!
# Reading a tree from a document

A document is read as a YAML value, and the value is stripped of its types: every scalar becomes its
text, labels are dropped.  Keys become texts as well, collections among them the text of the YAML
they would be written as; keys that become equal merge.
-/

namespace ConfigTree

namespace Yaml.Value

/-- The text of a scalar. -/
def scalarText? : Value → Option String
  | .string text => some text
  | .tagged _ value => scalarText? value
  | value => word? value

/-- The text of a key. -/
def keyText (key : Value) : String :=
  match scalarText? key with
  | some text => text
  | none => match render? key with
    | some text => String.ofList (Text.trimRight Text.isBlank text.toList)
    | none => ""

mutual
/-- The tree of texts that a value is. -/
def toTree : Value → Tree
  | .sequence items => .sequence (toTrees items)
  | .mapping entries => Tree.ofPairs (toPairs entries)
  | .tagged _ value => toTree value
  | value => .scalar ((scalarText? value).getD "")

/-- The trees of several values. -/
def toTrees : List Value → List Tree
  | [] => []
  | v :: rest => toTree v :: toTrees rest

/-- The entries of a mapping as texts and trees. -/
def toPairs : List (Value × Value) → List (String × Tree)
  | [] => []
  | (k, v) :: rest => (keyText k, toTree v) :: toPairs rest
end

end Yaml.Value

namespace Tree

/-- The tree of a document.  A text without a document is null. -/
def ofYaml (text : String) : Except Yaml.Error Tree := do
  match ← Yaml.Node.ofTokens? (← Yaml.tokens text) with
  | none => return .scalar "null"
  | some node => return (← Yaml.Value.ofNode node).toTree

end Tree

end ConfigTree
