import ConfigTree.Entries
import ConfigTree.Yaml.Error

/-!
# Nodes of a document

What a document says before scalars are given a meaning: scalars with their tags, sequences,
mappings whose keys are nodes, and aliases.  An anchor is a number.  Where a number is given twice,
an alias means the later node (`Node.anchored` lists both, and `Anchors.find?` takes the last).
-/

namespace ConfigTree.Yaml

/-- What may stand in front of a node. -/
structure Properties where
  tag : Option String
  anchor : Option Nat
deriving DecidableEq, Repr

/-- A node of a document. -/
inductive Node where
  | alias (anchor : Nat)
  | scalar (properties : Properties) (plain : Bool) (text : String)
  | sequence (properties : Properties) (items : List Node)
  | mapping (properties : Properties) (entries : List (Node × Node))
deriving Inhabited, Repr

/-- The nodes that aliases mean, in the order of the document. -/
abbrev Anchors := List (Nat × Node)

/-- The last node with this anchor. -/
def Anchors.find? (anchors : Anchors) (anchor : Nat) : Option Node :=
  (anchors.reverse.find? (·.1 == anchor)).map Prod.snd

namespace Node

/-- The node that stands where nothing is written. -/
def empty (properties : Properties) : Node := .scalar properties true ""

/-- The node itself, if it has an anchor. -/
def own (node : Node) (properties : Properties) : Anchors :=
  match properties.anchor with
  | some anchor => [(anchor, node)]
  | none => []

mutual
/-- The nodes with anchors in a node, itself first. -/
def anchored (node : Node) : Anchors :=
  match node with
  | .alias _ => []
  | .scalar properties .. => node.own properties
  | .sequence properties items => node.own properties ++ anchoredItems items
  | .mapping properties entries => node.own properties ++ anchoredEntries entries

/-- The nodes with anchors in a list of nodes. -/
def anchoredItems : List Node → Anchors
  | [] => []
  | node :: rest => anchored node ++ anchoredItems rest

/-- The nodes with anchors in the entries of a mapping. -/
def anchoredEntries : List (Node × Node) → Anchors
  | [] => []
  | (k, v) :: rest => anchored k ++ anchored v ++ anchoredEntries rest
end

mutual
/-- The size of a node: a collection counts for its start and for its end. -/
def size : Node → Nat
  | .alias _ => 1
  | .scalar .. => 1
  | .sequence _ items => sizeItems items + 2
  | .mapping _ entries => sizeEntries entries + 2

/-- The size of a list of nodes. -/
def sizeItems : List Node → Nat
  | [] => 0
  | node :: rest => size node + sizeItems rest

/-- The size of the entries of a mapping. -/
def sizeEntries : List (Node × Node) → Nat
  | [] => 0
  | (k, v) :: rest => size k + size v + sizeEntries rest
end

end Node

end ConfigTree.Yaml
