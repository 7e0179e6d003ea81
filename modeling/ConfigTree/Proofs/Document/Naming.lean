import ConfigTree.Proofs.Document.Lines
import ConfigTree.Proofs.Tree.Addressing

/-! # One name for every node

A node has its place, which is a path, and a flat name.  Three walks over a tree make flat names:
the one that lists the leaves, the one that changes them, and the one that writes the document and
looks comments up.  All three make the same name of the same place (`Path.flatName`): each of them
is a walk that knows places only, and names them at the end (`leavesBelow_flatName`,
`mapBelow_flatName`, `bodyLines_flatName`).

**This name is not always the dotted form of the place**, by which errors say where they are and
which paths are read from.  The walks take a name that is still empty for that of the root, so an
empty key in front of others leaves nothing behind, not even its dot.  Elsewhere the two are one
(`Path.flatName_eq_dotted_iff`).
-/
namespace ConfigTree

namespace Path

/-- The segments of a place joined by dots, without the empty ones in front. -/
def flatName (place : Path) : String :=
  dotted (place.dropWhile fun segment => segment.asKey == "")

theorem flatName_nil : flatName [] = "" := rfl

/-- **The name of a child is made from that of its parent.** -/
theorem childName_flatName (place : Path) (segment : Segment) :
    childName place.flatName segment.asKey = flatName (place ++ [segment]) := by
  unfold flatName
  rw [List.dropWhile_append]
  cases hnamed : place.dropWhile fun segment => segment.asKey == "" with
  | nil =>
    rw [List.isEmpty_nil, if_pos rfl]
    by_cases hkey : segment.asKey = ""
    · simp [childName, hkey, dotted]
    · simp [childName, hkey, dotted]
  | cons first rest =>
    have hfirst : first.asKey ≠ "" := by
      have hhead := List.head?_dropWhile_not (fun segment : Segment => segment.asKey == "") place
      simpa [hnamed] using hhead
    have hne : dotted (first :: rest) ≠ "" :=
      (legible_cons hfirst rest).resolve_left (List.cons_ne_nil _ _)
    rw [childName, if_neg hne, List.isEmpty_cons, if_neg Bool.false_ne_true,
      dotted_append (List.cons_ne_nil _ _) (by simp), dotted_singleton]

theorem childName_flatName_index (place : Path) (position : Nat) :
    childName place.flatName (Text.showNat position) = flatName (place ++ [.index position]) :=
  childName_flatName place (.index position)

theorem childName_flatName_key (place : Path) (key : String) :
    childName place.flatName key = flatName (place ++ [.key key]) :=
  childName_flatName place (.key key)

theorem length_flatName_le (place : Path) : place.flatName.length ≤ place.dotted.length := by
  induction place with
  | nil => exact Nat.le_refl _
  | cons segment way ih =>
    unfold flatName at ih ⊢
    by_cases hkey : segment.asKey = ""
    · rw [List.dropWhile_cons_of_pos (by simpa using hkey)]
      refine Nat.le_trans ih ?_
      by_cases hway : way = []
      · simp [hway, dotted]
      · rw [← List.singleton_append, dotted_append (by simp) hway]
        simp
    · have hkept : (segment :: way).dropWhile (fun segment => segment.asKey == "") =
          segment :: way := List.dropWhile_cons_of_neg (by simpa using hkey)
      exact Nat.le_of_eq (congrArg (fun place => (dotted place).length) hkept)

/-- **The flat name is the dotted form, unless an empty key stands in front of another segment.** -/
theorem flatName_eq_dotted_iff (place : Path) :
    place.flatName = place.dotted ↔ ¬ ∃ segment way, place = .key "" :: segment :: way := by
  constructor
  · rintro hname ⟨segment, way, rfl⟩
    -- the dotted form begins with the dot behind the empty key, so it is longer
    have hlength : (flatName (segment :: way)).length ≤ (dotted (segment :: way)).length :=
      length_flatName_le _
    have hdrop : flatName (.key "" :: segment :: way) = flatName (segment :: way) := rfl
    rw [← hdrop, hname, ← List.singleton_append, dotted_append (by simp) (by simp)] at hlength
    simp only [String.length_append] at hlength
    have hdot : ".".length = 1 := rfl
    omega
  · intro hplace
    rcases place with _ | ⟨segment, way⟩
    · rfl
    · by_cases hkey : segment.asKey = ""
      · obtain rfl : segment = .key "" := by
          rcases segment with name | position
          · exact congrArg Segment.key hkey
          · exact absurd hkey (isSegment_showNat position).1
        cases way with
        | nil => rfl
        | cons next more => exact absurd ⟨next, more, rfl⟩ hplace
      · rw [flatName, List.dropWhile_cons_of_neg (by simpa using hkey)]

end Path

namespace Tree

/-! ### Walks that know places -/

mutual
/-- The leaves below a node at the given place, each with its own place. -/
def placesBelow (place : Path) : Tree → List (Path × String)
  | .scalar text => [(place, text)]
  | .sequence items => placesOfItems place 0 items
  | .mapping entries => placesOfEntries place entries

/-- The leaves of the items of a sequence, counted from `index` on. -/
def placesOfItems (place : Path) (index : Nat) : List Tree → List (Path × String)
  | [] => []
  | item :: rest =>
    placesBelow (place ++ [.index index]) item ++ placesOfItems place (index + 1) rest

/-- The leaves of the values of a mapping. -/
def placesOfEntries (place : Path) : List (String × Tree) → List (Path × String)
  | [] => []
  | (key, value) :: rest => placesBelow (place ++ [.key key]) value ++ placesOfEntries place rest
end

/-- All leaves with their places, depth first. -/
def leafPlaces (tree : Tree) : List (Path × String) :=
  placesBelow [] tree

/-- The lines of an item, from its comment and from its lines as a collection. -/
def itemPart (comment : Option String) (body : List String) (item : Tree) : List String :=
  item.inline?.elim (commentLine comment ++ dashed body)
    fun text => [withComment ("- " ++ text) comment]

/-- The lines of an entry, from its comment and from the lines of its value as a collection. -/
def entryPart (comment : Option String) (body : List String) (key : String) (value : Tree) :
    List String :=
  value.inline?.elim (commentLine comment ++ (scalarLine key ++ ":") :: body.map indented)
    fun text => [withComment (scalarLine key ++ ": " ++ text) comment]

mutual
/-- The lines of a collection at the given place, with the comments that are found by place. -/
def bodyBy (look : Path → Option String) (place : Path) : Tree → List String
  | .scalar _ => []
  | .sequence items => itemsBy look place 0 items
  | .mapping entries => entriesBy look place entries

/-- The lines of the items of a sequence, counted from `index` on. -/
def itemsBy (look : Path → Option String) (place : Path) (index : Nat) : List Tree → List String
  | [] => []
  | item :: rest =>
    itemPart (look (place ++ [.index index])) (bodyBy look (place ++ [.index index]) item) item ++
      itemsBy look place (index + 1) rest

/-- The lines of the entries of a mapping. -/
def entriesBy (look : Path → Option String) (place : Path) :
    List (String × Tree) → List String
  | [] => []
  | (key, value) :: rest =>
    entryPart (look (place ++ [.key key])) (bodyBy look (place ++ [.key key]) value) key value ++
      entriesBy look place rest
end

/-- The lines of a document, with the comments that are found by place. -/
def linesBy (look : Path → Option String) (tree : Tree) : List String :=
  tree.inline?.elim (bodyBy look [] tree) fun text => [text]

/-! ### Names are made of places -/

mutual
theorem leavesBelow_flatName (place : Path) : (tree : Tree) →
    leavesBelow place.flatName tree =
      (placesBelow place tree).map fun leaf => (leaf.1.flatName, leaf.2)
  | .scalar _ => rfl
  | .sequence items => leavesOfItems_flatName place 0 items
  | .mapping entries => leavesOfEntries_flatName place entries

theorem leavesOfItems_flatName (place : Path) (index : Nat) : (items : List Tree) →
    leavesOfItems place.flatName index items =
      (placesOfItems place index items).map fun leaf => (leaf.1.flatName, leaf.2)
  | [] => rfl
  | item :: rest => by
    rw [leavesOfItems, placesOfItems, List.map_append, Path.childName_flatName_index,
      leavesBelow_flatName _ item, leavesOfItems_flatName place (index + 1) rest]

theorem leavesOfEntries_flatName (place : Path) : (entries : List (String × Tree)) →
    leavesOfEntries place.flatName entries =
      (placesOfEntries place entries).map fun leaf => (leaf.1.flatName, leaf.2)
  | [] => rfl
  | (key, value) :: rest => by
    rw [leavesOfEntries, placesOfEntries, List.map_append, Path.childName_flatName_key,
      leavesBelow_flatName _ value, leavesOfEntries_flatName place rest]
end

mutual
/-- A change of the leaves keeps their places, and is told their names. -/
theorem mapBelow_flatName (f : String → String → String) (place : Path) : (tree : Tree) →
    placesBelow place (mapBelow f place.flatName tree) =
      (placesBelow place tree).map fun leaf => (leaf.1, f leaf.1.flatName leaf.2)
  | .scalar _ => rfl
  | .sequence items => mapItems_flatName f place 0 items
  | .mapping entries => mapEntries_flatName f place entries

theorem mapItems_flatName (f : String → String → String) (place : Path) (index : Nat) :
    (items : List Tree) →
    placesOfItems place index (mapItems f place.flatName index items) =
      (placesOfItems place index items).map fun leaf => (leaf.1, f leaf.1.flatName leaf.2)
  | [] => rfl
  | item :: rest => by
    rw [mapItems, placesOfItems, placesOfItems, List.map_append, Path.childName_flatName_index,
      mapBelow_flatName f _ item, mapItems_flatName f place (index + 1) rest]

theorem mapEntries_flatName (f : String → String → String) (place : Path) :
    (entries : List (String × Tree)) →
    placesOfEntries place (mapEntries f place.flatName entries) =
      (placesOfEntries place entries).map fun leaf => (leaf.1, f leaf.1.flatName leaf.2)
  | [] => rfl
  | (key, value) :: rest => by
    rw [mapEntries, placesOfEntries, placesOfEntries, List.map_append,
      Path.childName_flatName_key, mapBelow_flatName f _ value, mapEntries_flatName f place rest]
end

section Comments

variable (comments : Table)

theorem linesOfItem_eq_itemPart (child : String) (item : Tree) :
    linesOfItem comments child item =
      itemPart (commentAt comments child) (bodyLines comments child item) item := by
  unfold linesOfItem itemPart
  cases item.inline? <;> rfl

theorem linesOfEntry_eq_entryPart (child key : String) (value : Tree) :
    linesOfEntry comments child key value =
      entryPart (commentAt comments child) (bodyLines comments child value) key value := by
  unfold linesOfEntry entryPart
  cases value.inline? <;> rfl

mutual
theorem bodyLines_flatName (place : Path) : (tree : Tree) →
    bodyLines comments place.flatName tree =
      bodyBy (fun place => commentAt comments place.flatName) place tree
  | .scalar _ => rfl
  | .sequence items => itemLines_flatName place 0 items
  | .mapping entries => entryLines_flatName place entries

theorem itemLines_flatName (place : Path) (index : Nat) : (items : List Tree) →
    itemLines comments place.flatName index items =
      itemsBy (fun place => commentAt comments place.flatName) place index items
  | [] => rfl
  | item :: rest => by
    rw [itemLines_cons, itemsBy, linesOfItem_eq_itemPart, Path.childName_flatName_index,
      bodyLines_flatName _ item, itemLines_flatName place (index + 1) rest]

theorem entryLines_flatName (place : Path) : (entries : List (String × Tree)) →
    entryLines comments place.flatName entries =
      entriesBy (fun place => commentAt comments place.flatName) place entries
  | [] => rfl
  | (key, value) :: rest => by
    rw [entryLines_cons, entriesBy, linesOfEntry_eq_entryPart, Path.childName_flatName_key,
      bodyLines_flatName _ value, entryLines_flatName place rest]
end

theorem documentLines_eq_linesBy (tree : Tree) :
    documentLines comments tree =
      linesBy (fun place => commentAt comments place.flatName) tree := by
  unfold documentLines linesBy
  rw [← bodyLines_flatName comments [] tree, Path.flatName_nil]
  cases tree.inline? <;> rfl

end Comments

/-! ### Leaves and their lines -/

theorem exists_item_of_mem_placesOfItems {place : Path} {index : Nat} {items : List Tree}
    {leaf : Path × String} (h : leaf ∈ placesOfItems place index items) :
    ∃ before item after, items = before ++ item :: after ∧
      leaf ∈ placesBelow (place ++ [.index (index + before.length)]) item := by
  induction items generalizing index with
  | nil => cases h
  | cons item rest ih =>
    rcases List.mem_append.mp h with h | h
    · exact ⟨[], item, rest, rfl, h⟩
    · obtain ⟨before, other, after, rfl, hleaf⟩ := ih h
      refine ⟨item :: before, other, after, rfl, ?_⟩
      rwa [List.length_cons, Nat.add_comm before.length 1, ← Nat.add_assoc]

theorem exists_entry_of_mem_placesOfEntries {place : Path} {entries : List (String × Tree)}
    {leaf : Path × String} (h : leaf ∈ placesOfEntries place entries) :
    ∃ before key value after, entries = before ++ (key, value) :: after ∧
      leaf ∈ placesBelow (place ++ [.key key]) value := by
  induction entries with
  | nil => cases h
  | cons entry rest ih =>
    obtain ⟨key, value⟩ := entry
    rcases List.mem_append.mp h with h | h
    · exact ⟨[], key, value, rest, rfl, h⟩
    · obtain ⟨before, other, child, after, rfl, hleaf⟩ := ih h
      exact ⟨(key, value) :: before, other, child, after, rfl, hleaf⟩

/-- **Places lead to their leaves.** -/
theorem exists_at?_of_mem_placesBelow (tree : Tree) {place : Path} {leaf : Path × String}
    (h : leaf ∈ placesBelow place tree) (hvalid : tree.Valid) :
    ∃ way, leaf.1 = place ++ way ∧ tree.at? way = some (.scalar leaf.2) := by
  induction tree using Tree.induction generalizing place with
  | scalar text =>
    obtain rfl : leaf = (place, text) := List.mem_singleton.mp h
    exact ⟨[], (List.append_nil _).symm, rfl⟩
  | sequence items ih =>
    obtain ⟨before, item, after, rfl, hleaf⟩ := exists_item_of_mem_placesOfItems h
    obtain ⟨way, hplace, hat⟩ := ih item (by simp) hleaf (validItems_iff.mp hvalid _ (by simp))
    refine ⟨.index before.length :: way, by simpa using hplace, ?_⟩
    rw [at?_cons]
    simpa [child?, Segment.asIndex?] using hat
  | mapping entries ih =>
    obtain ⟨before, key, value, after, rfl, hleaf⟩ := exists_entry_of_mem_placesOfEntries h
    obtain ⟨way, hplace, hat⟩ :=
      ih (key, value) (by simp) hleaf (validEntries_iff.mp hvalid.2 (key, value) (by simp))
    refine ⟨.key key :: way, by simpa using hplace, ?_⟩
    rw [at?_cons, child?_entry hvalid.1]
    exact hat

/-- The text ends one of the lines, apart from the comment that stands behind it. -/
def EndsLine (text : String) (comment : Option String) (lines : List String) : Prop :=
  ∃ lead, withComment (lead ++ scalarLine text) comment ∈ lines

theorem append_withComment (lead line : String) (comment : Option String) :
    lead ++ withComment line comment = withComment (lead ++ line) comment := by
  cases comment <;> simp [withComment, String.append_assoc]

section Lines

variable {text : String} {comment : Option String} {lines more : List String}

theorem EndsLine.append_left (h : EndsLine text comment lines) :
    EndsLine text comment (lines ++ more) :=
  let ⟨lead, hline⟩ := h
  ⟨lead, List.mem_append.mpr (.inl hline)⟩

theorem EndsLine.append_right (h : EndsLine text comment more) :
    EndsLine text comment (lines ++ more) :=
  let ⟨lead, hline⟩ := h
  ⟨lead, List.mem_append.mpr (.inr hline)⟩

theorem EndsLine.indented (h : EndsLine text comment lines) :
    EndsLine text comment (lines.map indented) := by
  obtain ⟨lead, hline⟩ := h
  refine ⟨"  " ++ lead, List.mem_map.mpr ⟨_, hline, ?_⟩⟩
  rw [Tree.indented, append_withComment, String.append_assoc]

theorem EndsLine.dashed (h : EndsLine text comment lines) :
    EndsLine text comment (dashed lines) := by
  obtain ⟨lead, hline⟩ := h
  cases lines with
  | nil => cases hline
  | cons first rest =>
    rcases List.mem_cons.mp hline with hfirst | hrest
    · refine ⟨"- " ++ lead, List.mem_cons.mpr (.inl ?_)⟩
      rw [← hfirst, append_withComment, String.append_assoc]
    · obtain ⟨lead, hline⟩ := EndsLine.indented ⟨lead, hrest⟩
      exact ⟨lead, List.mem_cons_of_mem _ hline⟩

end Lines

/-- A tree that is written on one line has no leaves, if it is no leaf itself. -/
theorem placesBelow_of_inline {tree : Tree} {line : String} (h : tree.inline? = some line)
    {place : Path} {leaf : Path × String} (hleaf : leaf ∈ placesBelow place tree) :
    leaf.1 = place ∧ line = scalarLine leaf.2 := by
  match tree, h with
  | .scalar text, h =>
    obtain rfl : leaf = (place, text) := List.mem_singleton.mp hleaf
    exact ⟨rfl, (Option.some.inj h).symm⟩
  | .sequence [], _ => cases hleaf
  | .mapping [], _ => cases hleaf

section Look

variable (look : Path → Option String)

theorem itemsBy_append (place : Path) (index : Nat) (items others : List Tree) :
    itemsBy look place index (items ++ others) =
      itemsBy look place index items ++ itemsBy look place (index + items.length) others := by
  induction items generalizing index with
  | nil => rfl
  | cons item rest ih =>
    have hindex : index + 1 + rest.length = index + (item :: rest).length := by
      rw [List.length_cons]
      omega
    rw [List.cons_append, itemsBy, ih, hindex, itemsBy, List.append_assoc]

theorem entriesBy_append (place : Path) (entries others : List (String × Tree)) :
    entriesBy look place (entries ++ others) =
      entriesBy look place entries ++ entriesBy look place others := by
  induction entries with
  | nil => rfl
  | cons entry rest ih => rw [List.cons_append, entriesBy, ih, entriesBy, List.append_assoc]

/-- **Every leaf of a collection ends a line, with the comment of its place behind it.** -/
theorem endsLine_bodyBy (tree : Tree) {place : Path} {leaf : Path × String}
    (h : leaf ∈ placesBelow place tree) (hbody : tree.inline? = none) :
    EndsLine leaf.2 (look leaf.1) (bodyBy look place tree) := by
  induction tree using Tree.induction generalizing place with
  | scalar text => cases hbody
  | sequence items ih =>
    obtain ⟨before, item, after, rfl, hleaf⟩ := exists_item_of_mem_placesOfItems h
    rw [bodyBy, itemsBy_append, itemsBy, itemPart]
    refine EndsLine.append_right (EndsLine.append_left ?_)
    cases hinline : item.inline? with
    | none => exact (ih item (by simp) hleaf hinline).dashed.append_right
    | some line =>
      obtain ⟨hplace, rfl⟩ := placesBelow_of_inline hinline hleaf
      exact ⟨"- ", by simp [hplace]⟩
  | mapping entries ih =>
    obtain ⟨before, key, value, after, rfl, hleaf⟩ := exists_entry_of_mem_placesOfEntries h
    rw [bodyBy, entriesBy_append, entriesBy, entryPart]
    refine EndsLine.append_right (EndsLine.append_left ?_)
    cases hinline : value.inline? with
    | none =>
      refine EndsLine.append_right ?_
      obtain ⟨lead, hline⟩ := (ih (key, value) (by simp) hleaf hinline).indented
      exact ⟨lead, List.mem_cons_of_mem _ hline⟩
    | some line =>
      obtain ⟨hplace, rfl⟩ := placesBelow_of_inline hinline hleaf
      exact ⟨scalarLine key ++ ": ", by simp [hplace]⟩

end Look

/-- **Every node has one name, which is made from its place.**  A leaf is stored in the table of the
leaves under the flat name of its place, a change of the leaves is told this name, and the document
is written with the comments at these names; that of a leaf ends its line, unless the leaf is the
whole tree.  The flat name of a leaf is the dotted form of its place exactly if the place does not
lead on from an empty key at the root. -/
theorem flatName_everywhere (tree : Tree) :
    (tree.Valid → ∀ leaf ∈ tree.leafPlaces, tree.at? leaf.1 = some (.scalar leaf.2)) ∧
    tree.flatten = Entries.ofList (tree.leafPlaces.map fun leaf => (leaf.1.flatName, leaf.2)) ∧
    (∀ f, (tree.mapLeaves f).leafPlaces =
      tree.leafPlaces.map fun leaf => (leaf.1, f leaf.1.flatName leaf.2)) ∧
    (∀ comments,
      tree.documentLines comments = tree.linesBy (fun place => commentAt comments place.flatName) ∧
      ∀ leaf ∈ tree.leafPlaces, leaf.1 ≠ [] →
        EndsLine leaf.2 (commentAt comments leaf.1.flatName) (tree.documentLines comments)) ∧
    ∀ leaf ∈ tree.leafPlaces, leaf.1.flatName = leaf.1.dotted ↔
      ¬ ∃ segment way, leaf.1 = .key "" :: segment :: way := by
  refine ⟨fun hvalid leaf hleaf => ?_, congrArg Entries.ofList (leavesBelow_flatName [] tree),
    fun f => mapBelow_flatName f [] tree, fun comments => ⟨documentLines_eq_linesBy comments tree,
      fun leaf hleaf hne => ?_⟩, fun leaf _ => leaf.1.flatName_eq_dotted_iff⟩
  · obtain ⟨way, hplace, hat⟩ := exists_at?_of_mem_placesBelow tree hleaf hvalid
    rwa [hplace, List.nil_append]
  · rw [documentLines_eq_linesBy, linesBy]
    cases hinline : tree.inline? with
    | some line => exact absurd (placesBelow_of_inline hinline hleaf).1 hne
    | none => exact endsLine_bodyBy _ tree hleaf hinline

/-- An empty key that is not at the root. -/
def nestedEmptyKey : Tree := .mapping [("b", .sequence [.mapping [("", .scalar "x")]])]

/-- It is named as it is written. -/
theorem flatName_everywhere_nested :
    nestedEmptyKey.leafPlaces = [([.key "b", .index 0, .key ""], "x")] ∧
    nestedEmptyKey.at? [.key "b", .index 0, .key ""] = some (.scalar "x") ∧
    nestedEmptyKey.flatten = [("b.0.", "x")] ∧
    EndsLine "x" (some "note") (nestedEmptyKey.documentLines [("b.0.", "note")]) := by
  let leaf : Path × String := ([.key "b", .index 0, .key ""], "x")
  have hplaces : nestedEmptyKey.leafPlaces = [leaf] := by decide +kernel
  have hmem : leaf ∈ nestedEmptyKey.leafPlaces := hplaces ▸ List.mem_singleton.mpr rfl
  have hvalid : nestedEmptyKey.Valid := by
    unfold nestedEmptyKey
    exact ⟨by decide, ⟨⟨by decide, trivial, trivial⟩, trivial⟩, trivial⟩
  have hcomment : commentAt [("b.0.", "note")] leaf.1.flatName = some "note" := by decide +kernel
  obtain ⟨hat, hflatten, -, hdocument, -⟩ := flatName_everywhere nestedEmptyKey
  refine ⟨hplaces, hat hvalid leaf hmem, ?_, ?_⟩
  · rw [hflatten, hplaces]
    decide +kernel
  · rw [← hcomment]
    exact (hdocument [("b.0.", "note")]).2 leaf hmem (List.cons_ne_nil _ _)

/-- A leaf behind an empty key, and one whose place is the name of the other. -/
def behindEmptyKey : Tree :=
  .mapping [("", .mapping [("a", .scalar "1")]), ("a", .scalar "2")]

/-- The place of the first leaf is written `.a`, but it is called `a` in the table, by a change and
for its comment.  So it is taken for the second one, and not stored at all. -/
theorem flatName_drops_emptyKey :
    ([.key "", .key "a"], "1") ∈ behindEmptyKey.leafPlaces ∧
    Path.dotted [.key "", .key "a"] = ".a" ∧
    behindEmptyKey.flatten = [("a", "2")] ∧
    behindEmptyKey.mapLeaves (fun name _ => name) =
      .mapping [("", .mapping [("a", .scalar "a")]), ("a", .scalar "a")] ∧
    behindEmptyKey.documentLines [(".a", "first")] = behindEmptyKey.documentLines [] ∧
    behindEmptyKey.documentLines [("a", "second")] =
      ["'':", "  a: '1'  # second", "a: '2'  # second"] := by
  decide +kernel

end Tree

end ConfigTree
