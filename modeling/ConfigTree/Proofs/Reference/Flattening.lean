import ConfigTree.Proofs.Reference.Pass

/-! # Tables of changed trees

The leaves of a tree are listed by one walk and changed by another one.  Both come to the leaves in
the same order and under the same names, so a change of the leaves can be made in the table as well
(`flatten_commutes`).  Where several leaves have one name, the table keeps the place of the first
and the text of the last; which these are does not depend on the texts.

A change of the leaves leaves everything else as it is, and `SameShape` says so without any walk:
it relates trees that differ in the texts of their leaves only.
-/
namespace ConfigTree.Tree

mutual
/-- The trees differ in the texts of their leaves only. -/
inductive SameShape : Tree → Tree → Prop where
  | scalar (text other : String) : SameShape (.scalar text) (.scalar other)
  | sequence {items others : List Tree} : SameShapeItems items others →
      SameShape (.sequence items) (.sequence others)
  | mapping {entries others : List (String × Tree)} : SameShapeEntries entries others →
      SameShape (.mapping entries) (.mapping others)

/-- As many items, each of the same shape as the one in its place. -/
inductive SameShapeItems : List Tree → List Tree → Prop where
  | nil : SameShapeItems [] []
  | cons {item other : Tree} {items others : List Tree} : SameShape item other →
      SameShapeItems items others → SameShapeItems (item :: items) (other :: others)

/-- The same keys in the same order, with values of the same shape. -/
inductive SameShapeEntries : List (String × Tree) → List (String × Tree) → Prop where
  | nil : SameShapeEntries [] []
  | cons {key : String} {value other : Tree} {entries others : List (String × Tree)} :
      SameShape value other → SameShapeEntries entries others →
      SameShapeEntries ((key, value) :: entries) ((key, other) :: others)
end

mutual
theorem sameShape_mapBelow (f : String → String → String) (name : String) : (tree : Tree) →
    SameShape tree (mapBelow f name tree)
  | .scalar text => .scalar text (f name text)
  | .sequence items => .sequence (sameShape_mapItems f name 0 items)
  | .mapping entries => .mapping (sameShape_mapEntries f name entries)

theorem sameShape_mapItems (f : String → String → String) (name : String) (index : Nat) :
    (items : List Tree) → SameShapeItems items (mapItems f name index items)
  | [] => .nil
  | item :: rest => .cons (sameShape_mapBelow f _ item) (sameShape_mapItems f name (index + 1) rest)

theorem sameShape_mapEntries (f : String → String → String) (name : String) :
    (entries : List (String × Tree)) → SameShapeEntries entries (mapEntries f name entries)
  | [] => .nil
  | (_, value) :: rest => .cons (sameShape_mapBelow f _ value) (sameShape_mapEntries f name rest)
end

/-- **A change of the leaves can be made in the table as well**: the table of the changed tree has
the names of the table in their order, each with the changed text, and the tree keeps its shape.  So
replacing the references in a tree replaces them in its table, and a pass over a tree is a pass over
its table. -/
theorem flatten_commutes (tree : Tree) :
    (∀ f : String → String → String,
      (tree.mapLeaves f).flatten = tree.flatten.map (fun leaf => (leaf.1, f leaf.1 leaf.2)) ∧
      tree.SameShape (tree.mapLeaves f)) ∧
    (∀ table, (tree.substitute table).flatten =
      Entries.mapValues (substituteText table) tree.flatten) ∧
    tree.pass.flatten = tree.flatten.pass := by
  have hflatten : ∀ f : String → String → String, (tree.mapLeaves f).flatten =
      tree.flatten.map fun leaf => (leaf.1, f leaf.1 leaf.2) := by
    intro f
    rw [flatten, leaves_mapLeaves, Entries.ofList_map]
    rfl
  refine ⟨fun f => ⟨hflatten f, sameShape_mapBelow f "" tree⟩, fun table => ?_, ?_⟩
  · exact hflatten fun _ text => substituteText table text
  · exact hflatten fun _ text => substituteText tree.flatten text

-- Two leaves have the name `a.b`, and the one that the table hides is not the one that is kept.
example :
    let tree : Tree := .mapping [("a", .mapping [("b", .scalar "1")]), ("c", .scalar "2"),
      ("a.b", .scalar "3")]
    tree.flatten = [("a.b", "3"), ("c", "2")] ∧
      (tree.mapLeaves fun name text => name ++ "=" ++ text).flatten =
        [("a.b", "a.b=3"), ("c", "c=2")] := by
  decide +kernel

end ConfigTree.Tree
