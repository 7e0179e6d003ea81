import ConfigTree.Tree.Path

/-!
# The leaves of a tree

`Tree.leaves` lists the leaves with their flat names in the order of a depth-first walk, and
`Tree.mapLeaves` changes each leaf, given its flat name.  A flat name joins the segments that lead
to the leaf by dots, except that nothing is put before the first segment of a name that is still
empty.

A `Table` maps flat names to texts.  `Tree.flatten` is the table of the leaves: where two leaves
have one name, the first gives the place and the last the text.
-/

namespace ConfigTree

/-- Texts by flat name, in insertion order. -/
abbrev Table := Entries String String

/-- The flat name of a child, from the flat name of its parent. -/
def childName (parent child : String) : String :=
  if parent = "" then child else parent ++ "." ++ child

namespace Tree

mutual
/-- The leaves below a node of the given name, each with its own name. -/
def leavesBelow (name : String) : Tree → List (String × String)
  | .scalar text => [(name, text)]
  | .sequence items => leavesOfItems name 0 items
  | .mapping entries => leavesOfEntries name entries

/-- The leaves of the items of a sequence, counted from `index` on. -/
def leavesOfItems (name : String) (index : Nat) : List Tree → List (String × String)
  | [] => []
  | t :: rest =>
    leavesBelow (childName name (Text.showNat index)) t ++ leavesOfItems name (index + 1) rest

/-- The leaves of the values of a mapping. -/
def leavesOfEntries (name : String) : List (String × Tree) → List (String × String)
  | [] => []
  | (k, t) :: rest => leavesBelow (childName name k) t ++ leavesOfEntries name rest
end

mutual
/-- Changes the leaves below a node of the given name. -/
def mapBelow (f : String → String → String) (name : String) : Tree → Tree
  | .scalar text => .scalar (f name text)
  | .sequence items => .sequence (mapItems f name 0 items)
  | .mapping entries => .mapping (mapEntries f name entries)

/-- Changes the leaves of the items of a sequence, counted from `index` on. -/
def mapItems (f : String → String → String) (name : String) (index : Nat) : List Tree → List Tree
  | [] => []
  | t :: rest =>
    mapBelow f (childName name (Text.showNat index)) t :: mapItems f name (index + 1) rest

/-- Changes the leaves of the values of a mapping. -/
def mapEntries (f : String → String → String) (name : String) :
    List (String × Tree) → List (String × Tree)
  | [] => []
  | (k, t) :: rest => (k, mapBelow f (childName name k) t) :: mapEntries f name rest
end

/-- All leaves with their flat names, depth first. -/
def leaves (tree : Tree) : List (String × String) :=
  leavesBelow "" tree

/-- Changes every leaf, given its flat name and its text. -/
def mapLeaves (f : String → String → String) (tree : Tree) : Tree :=
  mapBelow f "" tree

/-- The table of the leaves. -/
def flatten (tree : Tree) : Table :=
  Entries.ofList tree.leaves

mutual
/-- **Changing the leaves changes their list alike.** -/
theorem leavesBelow_mapBelow (f : String → String → String) (name : String) (t : Tree) :
    leavesBelow name (mapBelow f name t) =
      (leavesBelow name t).map fun leaf => (leaf.1, f leaf.1 leaf.2) :=
  match t with
  | .scalar _ => rfl
  | .sequence items => leavesOfItems_mapItems f name 0 items
  | .mapping entries => leavesOfEntries_mapEntries f name entries

theorem leavesOfItems_mapItems (f : String → String → String) (name : String) (index : Nat)
    (items : List Tree) :
    leavesOfItems name index (mapItems f name index items) =
      (leavesOfItems name index items).map fun leaf => (leaf.1, f leaf.1 leaf.2) :=
  match items with
  | [] => rfl
  | t :: rest => by
    simp only [mapItems, leavesOfItems, List.map_append]
    rw [leavesBelow_mapBelow f _ t, leavesOfItems_mapItems f name (index + 1) rest]

theorem leavesOfEntries_mapEntries (f : String → String → String) (name : String)
    (entries : List (String × Tree)) :
    leavesOfEntries name (mapEntries f name entries) =
      (leavesOfEntries name entries).map fun leaf => (leaf.1, f leaf.1 leaf.2) :=
  match entries with
  | [] => rfl
  | (k, t) :: rest => by
    simp only [mapEntries, leavesOfEntries, List.map_append]
    rw [leavesBelow_mapBelow f _ t, leavesOfEntries_mapEntries f name rest]
end

theorem leaves_mapLeaves (f : String → String → String) (tree : Tree) :
    (tree.mapLeaves f).leaves = tree.leaves.map fun leaf => (leaf.1, f leaf.1 leaf.2) :=
  leavesBelow_mapBelow f "" tree

mutual
theorem mapBelow_eq_iff (f g : String → String → String) (name : String) (t : Tree) :
    mapBelow f name t = mapBelow g name t ↔
      ∀ leaf ∈ leavesBelow name t, f leaf.1 leaf.2 = g leaf.1 leaf.2 :=
  match t with
  | .scalar _ => by simp [mapBelow, leavesBelow]
  | .sequence items => by
    simpa [mapBelow, leavesBelow] using mapItems_eq_iff f g name 0 items
  | .mapping entries => by
    simpa [mapBelow, leavesBelow] using mapEntries_eq_iff f g name entries

theorem mapItems_eq_iff (f g : String → String → String) (name : String) (index : Nat)
    (items : List Tree) :
    mapItems f name index items = mapItems g name index items ↔
      ∀ leaf ∈ leavesOfItems name index items, f leaf.1 leaf.2 = g leaf.1 leaf.2 :=
  match items with
  | [] => by simp [mapItems, leavesOfItems]
  | t :: rest => by
    simp only [mapItems, leavesOfItems, List.cons.injEq, List.forall_mem_append]
    rw [mapBelow_eq_iff f g _ t, mapItems_eq_iff f g name (index + 1) rest]

theorem mapEntries_eq_iff (f g : String → String → String) (name : String)
    (entries : List (String × Tree)) :
    mapEntries f name entries = mapEntries g name entries ↔
      ∀ leaf ∈ leavesOfEntries name entries, f leaf.1 leaf.2 = g leaf.1 leaf.2 :=
  match entries with
  | [] => by simp [mapEntries, leavesOfEntries]
  | (k, t) :: rest => by
    simp only [mapEntries, leavesOfEntries, List.cons.injEq, Prod.mk.injEq, true_and,
      List.forall_mem_append]
    rw [mapBelow_eq_iff f g _ t, mapEntries_eq_iff f g name rest]
end

mutual
theorem mapBelow_mapBelow (f g : String → String → String) (name : String) (t : Tree) :
    mapBelow g name (mapBelow f name t) = mapBelow (fun n s => g n (f n s)) name t :=
  match t with
  | .scalar _ => rfl
  | .sequence items => congrArg Tree.sequence (mapItems_mapItems f g name 0 items)
  | .mapping entries => congrArg Tree.mapping (mapEntries_mapEntries f g name entries)

theorem mapItems_mapItems (f g : String → String → String) (name : String) (index : Nat)
    (items : List Tree) :
    mapItems g name index (mapItems f name index items) =
      mapItems (fun n s => g n (f n s)) name index items :=
  match items with
  | [] => rfl
  | t :: rest => by
    simp only [mapItems]
    rw [mapBelow_mapBelow f g _ t, mapItems_mapItems f g name (index + 1) rest]

theorem mapEntries_mapEntries (f g : String → String → String) (name : String)
    (entries : List (String × Tree)) :
    mapEntries g name (mapEntries f name entries) =
      mapEntries (fun n s => g n (f n s)) name entries :=
  match entries with
  | [] => rfl
  | (k, t) :: rest => by
    simp only [mapEntries]
    rw [mapBelow_mapBelow f g _ t, mapEntries_mapEntries f g name rest]
end

mutual
theorem mapBelow_id (name : String) (t : Tree) : mapBelow (fun _ s => s) name t = t :=
  match t with
  | .scalar _ => rfl
  | .sequence items => congrArg Tree.sequence (mapItems_id name 0 items)
  | .mapping entries => congrArg Tree.mapping (mapEntries_id name entries)

theorem mapItems_id (name : String) (index : Nat) (items : List Tree) :
    mapItems (fun _ s => s) name index items = items :=
  match items with
  | [] => rfl
  | t :: rest => by rw [mapItems, mapBelow_id _ t, mapItems_id name (index + 1) rest]

theorem mapEntries_id (name : String) (entries : List (String × Tree)) :
    mapEntries (fun _ s => s) name entries = entries :=
  match entries with
  | [] => rfl
  | (k, t) :: rest => by rw [mapEntries, mapBelow_id _ t, mapEntries_id name rest]
end

theorem mapLeaves_mapLeaves (f g : String → String → String) (tree : Tree) :
    (tree.mapLeaves f).mapLeaves g = tree.mapLeaves fun n s => g n (f n s) :=
  mapBelow_mapBelow f g "" tree

/-- **A tree is changed alike exactly if all its leaves are.** -/
theorem mapLeaves_eq_iff {f g : String → String → String} {tree : Tree} :
    tree.mapLeaves f = tree.mapLeaves g ↔
      ∀ leaf ∈ tree.leaves, f leaf.1 leaf.2 = g leaf.1 leaf.2 :=
  mapBelow_eq_iff f g "" tree

theorem mapLeaves_eq_self_iff {f : String → String → String} {tree : Tree} :
    tree.mapLeaves f = tree ↔ ∀ leaf ∈ tree.leaves, f leaf.1 leaf.2 = leaf.2 := by
  have hself : tree.mapLeaves (fun _ s => s) = tree := mapBelow_id "" tree
  have hiff : tree.mapLeaves f = tree.mapLeaves (fun _ s => s) ↔
      ∀ leaf ∈ tree.leaves, f leaf.1 leaf.2 = leaf.2 := mapLeaves_eq_iff
  rwa [hself] at hiff

end Tree

end ConfigTree
