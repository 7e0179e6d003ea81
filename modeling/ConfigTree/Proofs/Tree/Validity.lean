import ConfigTree.Tree.Leaves

/-! # Valid trees

Trees are nested in lists and in entries; `Tree.induction` is the induction that a proof about one
tree at a time needs.

Changing the leaves of a tree keeps its keys, so a valid tree stays valid (`Valid.mapLeaves`).  A
valid tree is the same as itself (`same_refl`): each key leads to the entry that it stands in.
Leaves that are changed regardless of their names are changed node by node (`mapTexts`).
-/
namespace ConfigTree.Tree

/-! ### Induction -/

section Induction

variable {P : Tree → Prop} (scalar : ∀ text, P (.scalar text))
  (sequence : ∀ items, (∀ item ∈ items, P item) → P (.sequence items))
  (mapping : ∀ entries, (∀ entry ∈ entries, P entry.2) → P (.mapping entries))
include scalar sequence mapping

-- The linter does not see that all three theorems use what is assumed.
set_option linter.unusedSectionVars false

mutual
/-- What holds for a tree if it holds for the trees right below it holds for all trees. -/
@[elab_as_elim]
theorem induction : (tree : Tree) → P tree
  | .scalar text => scalar text
  | .sequence items => sequence items (induction_items items)
  | .mapping entries => mapping entries (induction_entries entries)

theorem induction_items : (items : List Tree) → ∀ item ∈ items, P item
  | [] => by simp
  | item :: rest => List.forall_mem_cons.mpr ⟨induction item, induction_items rest⟩

theorem induction_entries : (entries : List (String × Tree)) → ∀ entry ∈ entries, P entry.2
  | [] => by simp
  | (_, node) :: rest => List.forall_mem_cons.mpr ⟨induction node, induction_entries rest⟩
end

end Induction

/-! ### Validity -/

theorem validItems_iff {items : List Tree} : ValidItems items ↔ ∀ item ∈ items, item.Valid := by
  induction items with
  | nil => simp [ValidItems]
  | cons item rest ih => rw [ValidItems, ih, List.forall_mem_cons]

theorem validEntries_iff {entries : List (String × Tree)} :
    ValidEntries entries ↔ ∀ entry ∈ entries, entry.2.Valid := by
  induction entries with
  | nil => simp [ValidEntries]
  | cons entry rest ih => rw [ValidEntries, ih, List.forall_mem_cons]

theorem keys_mapEntries (f : String → String → String) (name : String)
    (entries : List (String × Tree)) :
    Entries.keys (mapEntries f name entries) = Entries.keys entries := by
  induction entries with
  | nil => rfl
  | cons entry rest ih =>
    obtain ⟨key, value⟩ := entry
    rw [mapEntries, Entries.keys, List.map_cons, Entries.keys, List.map_cons]
    exact congrArg (key :: ·) ih

mutual
theorem valid_mapBelow (f : String → String → String) (name : String) : (tree : Tree) →
    tree.Valid → (mapBelow f name tree).Valid
  | .scalar _ => fun _ => trivial
  | .sequence items => valid_mapItems f name 0 items
  | .mapping entries => fun h => by
    refine ⟨?_, valid_mapEntries f name entries h.2⟩
    rw [Entries.NodupKeys, keys_mapEntries]
    exact h.1

theorem valid_mapItems (f : String → String → String) (name : String) (index : Nat) :
    (items : List Tree) → ValidItems items → ValidItems (mapItems f name index items)
  | [] => fun _ => trivial
  | item :: rest => fun h =>
    ⟨valid_mapBelow f _ item h.1, valid_mapItems f name (index + 1) rest h.2⟩

theorem valid_mapEntries (f : String → String → String) (name : String) :
    (entries : List (String × Tree)) → ValidEntries entries →
      ValidEntries (mapEntries f name entries)
  | [] => fun _ => trivial
  | (_, value) :: rest => fun h =>
    ⟨valid_mapBelow f _ value h.1, valid_mapEntries f name rest h.2⟩
end

theorem Valid.mapLeaves {tree : Tree} (h : tree.Valid) (f : String → String → String) :
    (tree.mapLeaves f).Valid :=
  valid_mapBelow f "" tree h

mutual
theorem same_refl : (tree : Tree) → tree.Valid → tree.same tree = true
  | .scalar _ => fun _ => beq_self_eq_true _
  | .sequence items => sameItems_refl items
  | .mapping entries => fun h => by
    have hget : ∀ entry ∈ entries, Entries.get? entries entry.1 = some entry.2 :=
      fun entry hentry => (Entries.get?_eq_some_iff h.1).mpr hentry
    rw [same, beq_self_eq_true, Bool.true_and]
    exact entriesWithin_refl entries h.2 entries hget

theorem sameItems_refl : (items : List Tree) → ValidItems items → sameItems items items = true
  | [] => fun _ => rfl
  | item :: rest => fun h => by
    rw [sameItems, same_refl item h.1, sameItems_refl rest h.2, Bool.and_self]

/-- Entries stand within others that hold them. -/
theorem entriesWithin_refl : (entries : List (String × Tree)) → ValidEntries entries →
    ∀ others, (∀ entry ∈ entries, Entries.get? others entry.1 = some entry.2) →
      entriesWithin entries others = true
  | [] => fun _ _ _ => rfl
  | (key, value) :: rest => fun h others hget => by
    have hkey : Entries.get? others key = some value := hget (key, value) (by simp)
    have hrest := entriesWithin_refl rest h.2 others fun entry hentry =>
      hget entry (List.mem_cons_of_mem _ hentry)
    simp only [entriesWithin, hkey, same_refl value h.1, hrest, Bool.and_self]
end

/-! ### Rewritten texts -/

/-- Rewrites the text of each leaf. -/
def mapTexts (g : String → String) (tree : Tree) : Tree := tree.mapLeaves fun _ => g

variable (g : String → String)

mutual
/-- The name of a node does not matter if leaves are rewritten regardless of their names. -/
theorem mapBelow_const (name other : String) : (tree : Tree) →
    mapBelow (fun _ => g) name tree = mapBelow (fun _ => g) other tree
  | .scalar _ => rfl
  | .sequence items => congrArg Tree.sequence (mapItems_const name other 0 0 items)
  | .mapping entries => congrArg Tree.mapping (mapEntries_const name other entries)

theorem mapItems_const (name other : String) (index index' : Nat) : (items : List Tree) →
    mapItems (fun _ => g) name index items = mapItems (fun _ => g) other index' items
  | [] => rfl
  | item :: rest => by
    rw [mapItems, mapItems, mapItems_const name other (index + 1) (index' + 1) rest,
      mapBelow_const _ _ item]

theorem mapEntries_const (name other : String) : (entries : List (String × Tree)) →
    mapEntries (fun _ => g) name entries = mapEntries (fun _ => g) other entries
  | [] => rfl
  | (key, value) :: rest => by
    rw [mapEntries, mapEntries, mapEntries_const name other rest, mapBelow_const _ _ value]
end

@[simp] theorem mapTexts_scalar (text : String) : (scalar text).mapTexts g = scalar (g text) := rfl

@[simp] theorem mapTexts_sequence (items : List Tree) :
    (sequence items).mapTexts g = sequence (items.map (mapTexts g)) := by
  have hitems : ∀ index, mapItems (fun _ => g) "" index items = items.map (mapTexts g) := by
    induction items with
    | nil => exact fun _ => rfl
    | cons item rest ih =>
      intro index
      rw [mapItems, ih, mapBelow_const g _ "", List.map_cons]
      rfl
  exact congrArg sequence (hitems 0)

@[simp] theorem mapTexts_mapping (entries : List (String × Tree)) :
    (mapping entries).mapTexts g = mapping (Entries.mapValues (mapTexts g) entries) := by
  have hentries : mapEntries (fun _ => g) "" entries = Entries.mapValues (mapTexts g) entries := by
    induction entries with
    | nil => rfl
    | cons entry rest ih =>
      obtain ⟨key, value⟩ := entry
      rw [mapEntries, ih, mapBelow_const g _ ""]
      rfl
  exact congrArg mapping hentries

end ConfigTree.Tree
