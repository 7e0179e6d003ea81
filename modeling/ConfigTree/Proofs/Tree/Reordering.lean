import ConfigTree.Proofs.Tree.FlatName
import ConfigTree.Proofs.Tree.Validity
import Mathlib.Data.List.Perm.Basic

/-! # Trees up to the order of their entries

Two trees are `Reordered` if one arises from the other by giving the entries of its mappings another
order, at any depth.  They have the same leaves under the same flat names, in another order
(`Reordered.leaves_perm`); changing the leaves of both in the same way keeps them reordered
(`Reordered.mapLeaves`); and at every path there are texts in both or in neither, and they are equal
(`Reordered.textAt?_eq`).
-/
namespace ConfigTree.Tree

mutual
/-- One tree is the other one with the entries of its mappings in another order. -/
inductive Reordered : Tree → Tree → Prop where
  | scalar (text : String) : Reordered (.scalar text) (.scalar text)
  | sequence {items others : List Tree} : ReorderedItems items others →
      Reordered (.sequence items) (.sequence others)
  /-- The values are reordered in their places, and then the entries are. -/
  | mapping {entries aligned others : List (String × Tree)} : ReorderedValues entries aligned →
      aligned.Perm others → Reordered (.mapping entries) (.mapping others)

/-- The items are reordered, each in its place. -/
inductive ReorderedItems : List Tree → List Tree → Prop where
  | nil : ReorderedItems [] []
  | cons {item other : Tree} {items others : List Tree} : Reordered item other →
      ReorderedItems items others → ReorderedItems (item :: items) (other :: others)

/-- The values are reordered, each under its key. -/
inductive ReorderedValues : List (String × Tree) → List (String × Tree) → Prop where
  | nil : ReorderedValues [] []
  | cons {key : String} {value other : Tree} {entries others : List (String × Tree)} :
      Reordered value other → ReorderedValues entries others →
      ReorderedValues ((key, value) :: entries) ((key, other) :: others)
end

/-! ### Leaves -/

theorem leavesOfEntries_eq_flatMap (name : String) (entries : List (String × Tree)) :
    leavesOfEntries name entries =
      entries.flatMap fun entry => leavesBelow (childName name entry.1) entry.2 := by
  induction entries with
  | nil => rfl
  | cons entry rest ih => rw [leavesOfEntries, ih, List.flatMap_cons]

theorem leavesOfEntries_perm (name : String) {entries others : List (String × Tree)}
    (h : entries.Perm others) :
    (leavesOfEntries name entries).Perm (leavesOfEntries name others) := by
  rw [leavesOfEntries_eq_flatMap, leavesOfEntries_eq_flatMap]
  exact h.flatMap_right _

mutual
theorem Reordered.leavesBelow_perm {tree other : Tree} (name : String) :
    Reordered tree other → (leavesBelow name tree).Perm (leavesBelow name other)
  | .scalar _ => .refl _
  | .sequence h => h.leaves_perm name 0
  | .mapping h hperm => (h.leaves_perm name).trans (leavesOfEntries_perm name hperm)

theorem ReorderedItems.leaves_perm {items others : List Tree} (name : String) (index : Nat) :
    ReorderedItems items others →
      (leavesOfItems name index items).Perm (leavesOfItems name index others)
  | .nil => .refl _
  | .cons h hrest => (h.leavesBelow_perm _).append (hrest.leaves_perm name (index + 1))

theorem ReorderedValues.leaves_perm {entries others : List (String × Tree)} (name : String) :
    ReorderedValues entries others →
      (leavesOfEntries name entries).Perm (leavesOfEntries name others)
  | .nil => .refl _
  | .cons h hrest => (h.leavesBelow_perm _).append (hrest.leaves_perm name)
end

/-- **Reordered trees have the same leaves.** -/
theorem Reordered.leaves_perm {tree other : Tree} (h : Reordered tree other) :
    tree.leaves.Perm other.leaves :=
  h.leavesBelow_perm ""

theorem Reordered.names_perm {tree other : Tree} (h : Reordered tree other) :
    tree.names.Perm other.names :=
  h.leaves_perm.map _

/-! ### Changes of leaves -/

theorem mapEntries_eq_map (f : String → String → String) (name : String)
    (entries : List (String × Tree)) :
    mapEntries f name entries =
      entries.map fun entry => (entry.1, mapBelow f (childName name entry.1) entry.2) := by
  induction entries with
  | nil => rfl
  | cons entry rest ih => rw [mapEntries, ih, List.map_cons]

theorem mapEntries_perm (f : String → String → String) (name : String)
    {entries others : List (String × Tree)} (h : entries.Perm others) :
    (mapEntries f name entries).Perm (mapEntries f name others) := by
  rw [mapEntries_eq_map, mapEntries_eq_map]
  exact h.map _

mutual
theorem Reordered.mapBelow (f : String → String → String) (name : String) {tree other : Tree} :
    Reordered tree other → Reordered (Tree.mapBelow f name tree) (Tree.mapBelow f name other)
  | .scalar text => .scalar (f name text)
  | .sequence h => .sequence (h.mapItems f name 0)
  | .mapping h hperm => .mapping (h.mapEntries f name) (mapEntries_perm f name hperm)

theorem ReorderedItems.mapItems (f : String → String → String) (name : String) (index : Nat)
    {items others : List Tree} : ReorderedItems items others →
      ReorderedItems (Tree.mapItems f name index items) (Tree.mapItems f name index others)
  | .nil => .nil
  | .cons h hrest => .cons (h.mapBelow f _) (hrest.mapItems f name (index + 1))

theorem ReorderedValues.mapEntries (f : String → String → String) (name : String)
    {entries others : List (String × Tree)} : ReorderedValues entries others →
      ReorderedValues (Tree.mapEntries f name entries) (Tree.mapEntries f name others)
  | .nil => .nil
  | .cons h hrest => .cons (h.mapBelow f _) (hrest.mapEntries f name)
end

/-- **Trees that are changed alike stay reordered.** -/
theorem Reordered.mapLeaves {tree other : Tree} (h : Reordered tree other)
    (f : String → String → String) : Reordered (tree.mapLeaves f) (other.mapLeaves f) :=
  h.mapBelow f ""

/-! ### Places -/

/-- The text at a path, if there is a leaf. -/
def textAt? (tree : Tree) (path : Path) : Option String := (tree.at? path).bind text?

theorem ReorderedValues.keys_eq {entries others : List (String × Tree)} :
    ReorderedValues entries others → Entries.keys others = Entries.keys entries
  | .nil => rfl
  | @ReorderedValues.cons key _ _ _ _ _ hrest => congrArg (key :: ·) hrest.keys_eq

theorem ReorderedValues.get? {entries others : List (String × Tree)} (key : String) :
    ReorderedValues entries others →
      Option.Rel Reordered (Entries.get? entries key) (Entries.get? others key)
  | .nil => .none
  | @ReorderedValues.cons name value other entries others h hrest => by
    rw [Entries.get?_cons, Entries.get?_cons]
    by_cases hkey : name = key
    · rw [if_pos hkey, if_pos hkey]
      exact .some h
    · rw [if_neg hkey, if_neg hkey]
      exact hrest.get? key

theorem ReorderedItems.getElem? {items others : List Tree} (index : Nat) :
    ReorderedItems items others → Option.Rel Reordered items[index]? others[index]?
  | .nil => .none
  | .cons h hrest => by
    rcases index with _ | index
    · exact .some h
    · exact hrest.getElem? index

/-- The order of entries with distinct keys does not matter to what they hold. -/
theorem get?_eq_of_perm {entries others : List (String × Tree)} (h : entries.Perm others)
    (hn : Entries.NodupKeys entries) (key : String) :
    Entries.get? entries key = Entries.get? others key := by
  have hothers : Entries.NodupKeys others := (h.map Prod.fst).nodup_iff.mp hn
  ext value
  rw [Entries.get?_eq_some_iff hn, Entries.get?_eq_some_iff hothers, h.mem_iff]

/-- A segment leads to reordered children, or to none. -/
theorem Reordered.child? {tree other : Tree} (h : Reordered tree other) (hvalid : tree.Valid)
    (segment : Segment) : Option.Rel Reordered (tree.child? segment) (other.child? segment) := by
  rcases h with text | @⟨items, others, hitems⟩ | @⟨entries, aligned, others, hvalues, hperm⟩
  · exact .none
  · show Option.Rel Reordered (segment.asIndex?.bind (items[·]?))
      (segment.asIndex?.bind (others[·]?))
    rcases segment.asIndex? with _ | index
    · exact .none
    · exact hitems.getElem? index
  · have hn : Entries.NodupKeys aligned := by
      rw [Entries.NodupKeys, hvalues.keys_eq]
      exact hvalid.1
    show Option.Rel Reordered (Entries.get? entries segment.asKey)
      (Entries.get? others segment.asKey)
    rw [← get?_eq_of_perm hperm hn]
    exact hvalues.get? segment.asKey

theorem Valid.child {tree child : Tree} {segment : Segment} (h : tree.Valid)
    (hc : tree.child? segment = some child) : child.Valid := by
  rcases tree with text | items | entries
  · cases hc
  · obtain ⟨index, -, hitem⟩ := Option.bind_eq_some_iff.mp hc
    exact validItems_iff.mp h child (List.mem_of_getElem? hitem)
  · exact validEntries_iff.mp h.2 _ (Entries.mem_of_get? hc)

/-- **A path leads to reordered nodes, or to none.** -/
theorem Reordered.at? {tree other : Tree} (h : Reordered tree other) (hvalid : tree.Valid)
    (path : Path) : Option.Rel Reordered (tree.at? path) (other.at? path) := by
  induction path generalizing tree other with
  | nil =>
    rw [at?_nil, at?_nil]
    exact .some h
  | cons segment rest ih =>
    rw [at?_cons, at?_cons]
    have hchild := h.child? hvalid segment
    generalize hc : tree.child? segment = x at hchild ⊢
    generalize other.child? segment = y at hchild ⊢
    rcases hchild with hnode | _
    · exact ih hnode (hvalid.child hc)
    · exact .none

/-- At every path there is the same text, or there is none. -/
theorem Reordered.textAt?_eq {tree other : Tree} (h : Reordered tree other) (hvalid : tree.Valid)
    (path : Path) : tree.textAt? path = other.textAt? path := by
  have hat := h.at? hvalid path
  unfold textAt?
  generalize tree.at? path = x at hat ⊢
  generalize other.at? path = y at hat ⊢
  rcases hat with hnode | _
  · rcases hnode with _ | _ | _ <;> rfl
  · rfl

end ConfigTree.Tree
