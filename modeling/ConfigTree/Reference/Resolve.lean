import ConfigTree.Reference.Scan

/-!
# Resolving the references of a tree

One pass replaces every reference in the leaves of a tree by the text the tree itself has under that
name.  `Tree.resolve` repeats passes, at most as many as a cap allows, until the table of the leaves
stands still.  If references are left then, they form a cycle, and this is a `Divergence`, as is
running out of passes.
-/

namespace ConfigTree

/-- Passes came to no end, or to one that still holds references. -/
structure Divergence where
  /-- The passes made. -/
  iterations : Nat
  /-- The flat names of the leaves that still refer to leaves. -/
  unresolved : List String
deriving DecidableEq, Repr

/-- The names whose texts refer to names of the same table. -/
def unresolvedNames (table : Table) : List String :=
  (table.filter fun leaf => !(referencesIn table leaf.2).isEmpty).map Prod.fst

namespace Tree

/-- Replaces the references in every leaf. -/
def substitute (table : Table) (tree : Tree) : Tree :=
  tree.mapLeaves fun _ text => substituteText table text

/-- Replaces the references in every leaf by the texts that the tree has now. -/
def pass (tree : Tree) : Tree :=
  tree.substitute tree.flatten

/-- Repeats passes until the table of the leaves stands still; `made` passes are behind and the
second number is how many more are allowed. -/
def resolveFrom (made : Nat) : Nat → Tree → Except Divergence Tree
  | 0, tree => .error ⟨made, unresolvedNames tree.flatten⟩
  | left + 1, tree =>
    let next := tree.pass
    if next.flatten = tree.flatten then
      match unresolvedNames next.flatten with
      | [] => .ok next
      | unresolved => .error ⟨made + 1, unresolved⟩
    else resolveFrom (made + 1) left next

/-- Resolves all references with at most `cap` passes. -/
def resolve (cap : Nat) (tree : Tree) : Except Divergence Tree :=
  resolveFrom 0 cap tree

end Tree

/-- The cap on passes unless another one is asked for. -/
def defaultCap : Nat := 100

example : ((Tree.mapping [("a", .scalar "1"), ("b", .scalar "$a*2")]).resolve defaultCap).toOption =
    some (.mapping [("a", .scalar "1"), ("b", .scalar "1*2")]) := by decide +kernel
example : ((Tree.mapping [("a", .scalar "$b"), ("b", .scalar "$a")]).resolve defaultCap).toOption =
    none := by decide +kernel

end ConfigTree
