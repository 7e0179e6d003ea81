import ConfigTree.Proofs.Text.Digits
import ConfigTree.Proofs.Tree.Place
import ConfigTree.Proofs.Tree.Reordering

/-! # Flat names are paths

A flat name is printed by one walk over the tree and read as a path by another one.  The way from
the root to a leaf (`Tree.LeafAt`) is what both have in common: its segments joined by dots are the
flat name of the leaf (`LeafAt.mem_leavesBelow`), and where no key is empty or holds a dot or an
opening bracket, the name is read as these segments again (`Path.parse_dotted`).

A path from a name has keys only, so a place in a sequence is written as a key and read as a number
when it meets the sequence.  Reading at the path finds the leaf (`LeafAt.at?`), and writing there
changes this leaf and nothing else (`LeafAt.set?`), as no other leaf has its name.
-/
namespace ConfigTree

/-- A key that is one segment of a path in dotted form. -/
def IsPathKey (key : String) : Prop := IsSegment key ∧ '[' ∉ key.toList

instance (key : String) : Decidable (IsPathKey key) :=
  inferInstanceAs (Decidable ((key ≠ "" ∧ '.' ∉ key.toList) ∧ '[' ∉ key.toList))

theorem isPathKey_showNat (n : Nat) : IsPathKey (Text.showNat n) :=
  ⟨isSegment_showNat n, fun h => absurd (Text.isDigit_of_mem_showNat h) (by decide)⟩

/-- Places that can be counted are read back. -/
theorem Text.readIndex?_showNat {n : Nat} (h : n ≤ maxIndex) :
    readIndex? (showNat n).toList = some n := by
  have hplus : ∀ rest, (showNat n).toList ≠ '+' :: rest := by
    intro rest hrest
    have hdigit : '+'.isDigit = true := isDigit_of_mem_showNat (by rw [hrest]; simp)
    exact absurd hdigit (by decide)
  have hread : readNat? (showNat n).toList = some n := by
    rw [showNat, String.toList_ofList]
    exact readNat?_natDigits n
  unfold readIndex?
  split
  · next rest hrest => exact absurd hrest (hplus rest)
  · simp [hread, h]

/-! ### Dotted paths are read back -/

namespace Path

/-- A key is read up to its end. -/
theorem parseKey_append {chars : List Char} (hdot : '.' ∉ chars) (hbracket : '[' ∉ chars)
    (key rest : List Char) :
    parseKey key (chars ++ rest) = parseKey (chars.reverse ++ key) rest := by
  induction chars generalizing key with
  | nil => rfl
  | cons c chars ih =>
    obtain ⟨hcdot, hdot⟩ : '.' ≠ c ∧ '.' ∉ chars := by simpa using hdot
    obtain ⟨hcbracket, hbracket⟩ : '[' ≠ c ∧ '[' ∉ chars := by simpa using hbracket
    rw [List.cons_append, parseKey.eq_4 _ _ _ (Ne.symm hcdot) (Ne.symm hcbracket), ih hdot hbracket,
      List.reverse_cons, List.append_assoc]
    rfl

theorem ofKey_toList {key : String} (h : key ≠ "") : ofKey key.toList = [.key key] := by
  have hne : ¬ key.toList.isEmpty = true := by simpa using h
  rw [ofKey, if_neg hne, String.ofList_toList]

/-- **Segments are read off the text that joins them.** -/
theorem parse_dotted {way : List String} (h : ∀ key ∈ way, IsPathKey key) :
    parse (dotted (way.map .key)) = way.map .key := by
  induction way with
  | nil => rfl
  | cons key rest ih =>
    obtain ⟨⟨⟨hne, hdot⟩, hbracket⟩, hrest⟩ := List.forall_mem_cons.mp h
    rw [List.map_cons, parse]
    by_cases hnil : rest = []
    · subst hnil
      have hread := parseKey_append hdot hbracket [] []
      rw [List.map_nil, dotted_singleton]
      rw [List.append_nil, List.append_nil] at hread
      rw [Segment.asKey, hread, parseKey, List.reverse_reverse, ofKey_toList hne]
    · have hjoined : (dotted (.key key :: rest.map .key)).toList =
          key.toList ++ '.' :: (dotted (rest.map .key)).toList := by
        rw [← List.singleton_append, dotted_append (by simp) (by simpa using hnil),
          dotted_singleton]
        simp [Segment.asKey]
      rw [hjoined, parseKey_append hdot hbracket, parseKey, List.append_nil, List.reverse_reverse,
        ofKey_toList hne]
      exact congrArg (Segment.key key :: ·) (ih hrest)

/-- Joining one segment after the other is joining all of them. -/
theorem foldl_childName {place : Path} (h : place.Legible) {way : List String}
    (hway : ∀ key ∈ way, key ≠ "") :
    way.foldl childName place.dotted = dotted (place ++ way.map .key) := by
  induction way generalizing place with
  | nil => simp
  | cons key rest ih =>
    obtain ⟨hkey, hrest⟩ := List.forall_mem_cons.mp hway
    rw [List.foldl_cons, h.childName_eq key, ih (legible_key place hkey) hrest]
    simp

end Path

namespace Tree

/-! ### What is asked of a tree -/

mutual
/-- No sequence in the tree has more items than there are numbers of 64 bits, which are the places
that can be read.  No sequence in memory has. -/
def Counted : Tree → Prop
  | .scalar _ => True
  | .sequence items => items.length ≤ Text.maxIndex + 1 ∧ CountedItems items
  | .mapping entries => CountedEntries entries

/-- The trees are counted. -/
def CountedItems : List Tree → Prop
  | [] => True
  | item :: rest => Counted item ∧ CountedItems rest

/-- The values are counted. -/
def CountedEntries : List (String × Tree) → Prop
  | [] => True
  | (_, value) :: rest => Counted value ∧ CountedEntries rest
end

theorem countedItems_iff {items : List Tree} :
    CountedItems items ↔ ∀ item ∈ items, item.Counted := by
  induction items with
  | nil => simp [CountedItems]
  | cons item rest ih => rw [CountedItems, ih, List.forall_mem_cons]

theorem countedEntries_iff {entries : List (String × Tree)} :
    CountedEntries entries ↔ ∀ entry ∈ entries, entry.2.Counted := by
  induction entries with
  | nil => simp [CountedEntries]
  | cons entry rest ih => rw [CountedEntries, ih, List.forall_mem_cons]

theorem allKeysItems_iff {p : String → Prop} {items : List Tree} :
    AllKeysItems p items ↔ ∀ item ∈ items, item.AllKeys p := by
  induction items with
  | nil => simp [AllKeysItems]
  | cons item rest ih => rw [AllKeysItems, ih, List.forall_mem_cons]

theorem allKeysEntries_iff {p : String → Prop} {entries : List (String × Tree)} :
    AllKeysEntries p entries ↔ ∀ entry ∈ entries, p entry.1 ∧ entry.2.AllKeys p := by
  induction entries with
  | nil => simp [AllKeysEntries]
  | cons entry rest ih => rw [AllKeysEntries, ih, List.forall_mem_cons, and_assoc]

/-! ### Ways to leaves -/

/-- The way leads to a leaf of this text: keys of mappings, and places in sequences, in decimal. -/
inductive LeafAt : Tree → List String → String → Prop where
  | here (text : String) : LeafAt (.scalar text) [] text
  | item {before after : List Tree} {item : Tree} {way : List String} {text : String} :
      LeafAt item way text →
      LeafAt (.sequence (before ++ item :: after)) (Text.showNat before.length :: way) text
  | entry {before after : List (String × Tree)} {key : String} {value : Tree} {way : List String}
      {text : String} : LeafAt value way text →
      LeafAt (.mapping (before ++ (key, value) :: after)) (key :: way) text

theorem leavesOfItems_append (name : String) (index : Nat) (items others : List Tree) :
    leavesOfItems name index (items ++ others) =
      leavesOfItems name index items ++ leavesOfItems name (index + items.length) others := by
  induction items generalizing index with
  | nil => rfl
  | cons item rest ih =>
    have hindex : index + 1 + rest.length = index + (item :: rest).length := by
      rw [List.length_cons]
      omega
    rw [List.cons_append, leavesOfItems, ih, hindex, leavesOfItems, List.append_assoc]

theorem mapItems_append (f : String → String → String) (name : String) (index : Nat)
    (items others : List Tree) :
    mapItems f name index (items ++ others) =
      mapItems f name index items ++ mapItems f name (index + items.length) others := by
  induction items generalizing index with
  | nil => rfl
  | cons item rest ih =>
    have hindex : index + 1 + rest.length = index + (item :: rest).length := by
      rw [List.length_cons]
      omega
    rw [List.cons_append, mapItems, ih, hindex, mapItems, List.cons_append]

theorem leavesOfEntries_append (name : String) (entries others : List (String × Tree)) :
    leavesOfEntries name (entries ++ others) =
      leavesOfEntries name entries ++ leavesOfEntries name others := by
  simp only [leavesOfEntries_eq_flatMap, List.flatMap_append]

theorem mapEntries_append (f : String → String → String) (name : String)
    (entries others : List (String × Tree)) :
    mapEntries f name (entries ++ others) =
      mapEntries f name entries ++ mapEntries f name others := by
  simp only [mapEntries_eq_map, List.map_append]

/-- A leaf of the items belongs to one of them. -/
theorem exists_item_of_mem {name : String} {index : Nat} {items : List Tree}
    {leaf : String × String} (h : leaf ∈ leavesOfItems name index items) :
    ∃ before item after, items = before ++ item :: after ∧
      leaf ∈ leavesBelow (childName name (Text.showNat (index + before.length))) item := by
  induction items generalizing index with
  | nil => cases h
  | cons item rest ih =>
    rcases List.mem_append.mp h with h | h
    · exact ⟨[], item, rest, rfl, h⟩
    · obtain ⟨before, other, after, rfl, hleaf⟩ := ih h
      refine ⟨item :: before, other, after, rfl, ?_⟩
      rwa [List.length_cons, Nat.add_comm before.length 1, ← Nat.add_assoc]

/-- **Every leaf that is listed is found on a way**, whose segments make up its name. -/
theorem exists_leafAt (tree : Tree) {name : String} {leaf : String × String}
    (h : leaf ∈ leavesBelow name tree) :
    ∃ way, LeafAt tree way leaf.2 ∧ leaf.1 = way.foldl childName name := by
  induction tree using Tree.induction generalizing name with
  | scalar text =>
    obtain rfl : leaf = (name, text) := List.mem_singleton.mp h
    exact ⟨[], .here text, rfl⟩
  | sequence items ih =>
    obtain ⟨before, item, after, rfl, hleaf⟩ := exists_item_of_mem h
    obtain ⟨way, hway, hname⟩ := ih item (by simp) hleaf
    rw [Nat.zero_add] at hname
    exact ⟨_, .item hway, hname⟩
  | mapping entries ih =>
    obtain ⟨key, value, hmem, hleaf⟩ := mem_leavesOfEntries h
    obtain ⟨way, hway, hname⟩ := ih (key, value) hmem hleaf
    obtain ⟨before, after, rfl⟩ := List.append_of_mem hmem
    exact ⟨_, .entry hway, hname⟩

/-- The leaf at the end of a way is listed under the name that the way makes. -/
theorem LeafAt.mem_leavesBelow {tree : Tree} {way : List String} {text : String}
    (h : LeafAt tree way text) (name : String) :
    (way.foldl childName name, text) ∈ leavesBelow name tree := by
  induction h generalizing name with
  | here text => exact List.mem_singleton.mpr rfl
  | @item before after item way text _ ih =>
    rw [leavesBelow, leavesOfItems_append, List.mem_append]
    right
    rw [Nat.zero_add, leavesOfItems, List.mem_append]
    exact .inl (ih _)
  | @entry before after key value way text _ ih =>
    rw [leavesBelow, leavesOfEntries_append, List.mem_append]
    right
    rw [leavesOfEntries, List.mem_append]
    exact .inl (ih _)

theorem LeafAt.isPathKey {tree : Tree} {way : List String} {text : String}
    (h : LeafAt tree way text) (hkeys : tree.AllKeys IsPathKey) : ∀ key ∈ way, IsPathKey key := by
  induction h with
  | here text => simp
  | item _ ih =>
    refine List.forall_mem_cons.mpr ⟨isPathKey_showNat _, ih ?_⟩
    exact allKeysItems_iff.mp hkeys _ (by simp)
  | @entry before after key value way text _ ih =>
    obtain ⟨hkey, hvalue⟩ := allKeysEntries_iff.mp hkeys (key, value) (by simp)
    exact List.forall_mem_cons.mpr ⟨hkey, ih hvalue⟩

/-! ### Reading and writing at the end of a way -/

theorem child?_item {before after : List Tree} {item : Tree}
    (h : before.length ≤ Text.maxIndex) :
    (Tree.sequence (before ++ item :: after)).child? (.key (Text.showNat before.length)) =
      some item := by
  simp [child?, Segment.asIndex?, Text.readIndex?_showNat h]

theorem child?_entry {before after : List (String × Tree)} {key : String} {value : Tree}
    (h : Entries.NodupKeys (before ++ (key, value) :: after)) :
    (Tree.mapping (before ++ (key, value) :: after)).child? (.key key) = some value := by
  have hmem : (key, value) ∈ before ++ (key, value) :: after := by simp
  exact (Entries.get?_eq_some_iff h).mpr hmem

/-- Writing behind a child is writing in the child. -/
theorem set?_of_child? {tree child : Tree} {segment : Segment}
    (h : tree.child? segment = some child) (way : Path) (new : Tree) :
    tree.set? (segment :: way) new = (child.set? way new).map (tree.replaceChild segment) := by
  rcases way with _ | ⟨next, rest⟩
  · have hnil : child.set? [] new = some new := by
      cases child <;> rfl
    rcases tree with text | items | entries
    · cases h
    · rw [hnil, set?, setChild?, h]
      rfl
    · rw [hnil, set?]
      rfl
  · rw [set?, h]
    · rfl
    · simp

/-- Where no child is, only a new key can be written. -/
theorem set?_of_child?_eq_none {tree : Tree} {segment : Segment} (h : tree.child? segment = none)
    (way : Path) (new : Tree) :
    tree.set? (segment :: way) new =
      if way = [] ∧ tree.kind = .mapping then some (tree.replaceChild segment new) else none := by
  rcases way with _ | ⟨next, rest⟩
  · rcases tree with text | items | entries
    · rfl
    · rw [set?, setChild?, h]
      rfl
    · rfl
  · rw [set?, h]
    · rfl
    · simp

theorem child?_replaceChild {tree : Tree} {segment : Segment}
    (h : (tree.child? segment).isSome ∨ tree.kind = .mapping) (new : Tree) :
    (tree.replaceChild segment new).child? segment = some new := by
  rcases tree with text | items | entries
  · rcases h with h | h <;> cases h
  · obtain ⟨item, hitem⟩ := Option.isSome_iff_exists.mp (h.resolve_right nofun)
    obtain ⟨position, hposition, hitem⟩ := Option.bind_eq_some_iff.mp hitem
    obtain ⟨hbound, -⟩ := List.getElem?_eq_some_iff.mp hitem
    simp [replaceChild, child?, hposition, hbound]
  · exact (Entries.get?_insert ..).trans (if_pos rfl)

/-- **What is written is read back.** -/
theorem at?_of_set? {tree new result : Tree} {path : Path} (h : tree.set? path new = some result) :
    result.at? path = some new := by
  induction path generalizing tree result with
  | nil => simpa [set?] using h.symm
  | cons segment way ih =>
    cases hchild : tree.child? segment with
    | some child =>
      rw [set?_of_child? hchild] at h
      obtain ⟨inner, hinner, rfl⟩ := Option.map_eq_some_iff.mp h
      rw [at?_cons, child?_replaceChild (.inl (by rw [hchild]; rfl))]
      exact ih hinner
    | none =>
      rw [set?_of_child?_eq_none hchild] at h
      split at h
      · next hnew =>
        obtain ⟨rfl, hkind⟩ := hnew
        obtain rfl := Option.some.inj h
        rw [at?_cons, child?_replaceChild (.inr hkind), Option.bind_some, at?_nil]
      · cases h

/-- **Writing succeeds at the nodes of the tree and at new keys of its mappings**, and nowhere
else. -/
theorem isSome_set?_iff {tree new : Tree} {path : Path} :
    (tree.set? path new).isSome ↔ (tree.at? path).isSome ∨
      ∃ place segment parent, path = place ++ [segment] ∧ tree.at? place = some parent ∧
        parent.kind = .mapping := by
  induction path generalizing tree with
  | nil => simp [set?]
  | cons segment way ih =>
    cases hchild : tree.child? segment with
    | some child =>
      rw [set?_of_child? hchild, Option.isSome_map, ih, at?_cons, hchild, Option.bind_some]
      refine or_congr_right' fun hnone => ?_
      constructor
      · rintro ⟨place, last, parent, rfl, hparent, hkind⟩
        exact ⟨segment :: place, last, parent, rfl, by simpa [hchild] using hparent, hkind⟩
      · rintro ⟨_ | ⟨first, place⟩, last, parent, hpath, hparent, hkind⟩
        · obtain ⟨rfl, rfl⟩ := List.cons.inj hpath
          simp at hnone
        · obtain ⟨rfl, rfl⟩ := List.cons.inj hpath
          exact ⟨place, last, parent, rfl, by simpa [hchild] using hparent, hkind⟩
    | none =>
      rw [set?_of_child?_eq_none hchild, at?_cons, hchild]
      constructor
      · intro h
        split at h
        · next hnew => exact .inr ⟨[], segment, tree, by rw [hnew.1]; rfl, at?_nil tree, hnew.2⟩
        · cases h
      · rintro (h | ⟨_ | ⟨first, place⟩, last, parent, hpath, hparent, hkind⟩)
        · cases h
        · obtain ⟨rfl, rfl⟩ := List.cons.inj hpath
          obtain rfl := Option.some.inj ((at?_nil tree).symm.trans hparent)
          rw [if_pos ⟨rfl, hkind⟩]
          rfl
        · obtain ⟨rfl, rfl⟩ := List.cons.inj hpath
          simp [hchild] at hparent

theorem replaceChild_item {before after : List Tree} {item new : Tree}
    (h : before.length ≤ Text.maxIndex) :
    (Tree.sequence (before ++ item :: after)).replaceChild (.key (Text.showNat before.length)) new =
      .sequence (before ++ new :: after) := by
  simp [replaceChild, Segment.asIndex?, Text.readIndex?_showNat h]

theorem insert_middle {before after : List (String × Tree)} {key : String} {value new : Tree}
    (h : key ∉ Entries.keys before) :
    Entries.insert (before ++ (key, value) :: after) key new = before ++ (key, new) :: after := by
  induction before with
  | nil => simp [Entries.insert]
  | cons entry rest ih =>
    obtain ⟨hne, hrest⟩ : key ≠ entry.1 ∧ key ∉ Entries.keys rest := by
      simpa [Entries.keys] using h
    rw [List.cons_append, Entries.insert, if_neg (Ne.symm hne), ih hrest, List.cons_append]

/-- Every place in a counted sequence can be read. -/
theorem Counted.place_le {before after : List Tree} {item : Tree}
    (h : (Tree.sequence (before ++ item :: after)).Counted) : before.length ≤ Text.maxIndex := by
  have hlength := h.1
  simp only [List.length_append, List.length_cons] at hlength
  omega

theorem LeafAt.at? {tree : Tree} {way : List String} {text : String} (h : LeafAt tree way text)
    (hvalid : tree.Valid) (hcounted : tree.Counted) :
    tree.at? (way.map .key) = some (.scalar text) := by
  induction h with
  | here text => rfl
  | @item before after item way text _ ih =>
    have hplace := hcounted.place_le
    rw [List.map_cons, at?_cons, child?_item hplace]
    exact ih (validItems_iff.mp hvalid _ (by simp)) (countedItems_iff.mp hcounted.2 _ (by simp))
  | @entry before after key value way text _ ih =>
    rw [List.map_cons, at?_cons, child?_entry hvalid.1]
    exact ih (validEntries_iff.mp hvalid.2 (key, value) (by simp))
      (countedEntries_iff.mp hcounted (key, value) (by simp))

/-- Puts a text in the place of the leaves of one name. -/
def putAt (name new : String) : String → String → String :=
  fun leaf text => if leaf = name then new else text

theorem mapItems_putAt {name place new : String} {index : Nat} {items : List Tree}
    (h : name ∉ (leavesOfItems place index items).map Prod.fst) :
    mapItems (putAt name new) place index items = items := by
  conv_rhs => rw [← mapItems_id place index items]
  refine (mapItems_eq_iff _ _ _ _ _).mpr fun leaf hl => if_neg ?_
  rintro rfl
  exact h (List.mem_map_of_mem hl)

theorem mapEntries_putAt {name place new : String} {entries : List (String × Tree)}
    (h : name ∉ (leavesOfEntries place entries).map Prod.fst) :
    mapEntries (putAt name new) place entries = entries := by
  conv_rhs => rw [← mapEntries_id place entries]
  refine (mapEntries_eq_iff _ _ _ _).mpr fun leaf hl => if_neg ?_
  rintro rfl
  exact h (List.mem_map_of_mem hl)

/-- A name in the middle stands neither in front nor behind, where no name stands twice. -/
theorem nodup_middle {α : Type} {front middle back : List α}
    (h : (front ++ (middle ++ back)).Nodup) :
    middle.Nodup ∧ ∀ a ∈ middle, a ∉ front ∧ a ∉ back := by
  obtain ⟨-, hrest, hfront⟩ := List.nodup_append.mp h
  obtain ⟨hmiddle, -, hback⟩ := List.nodup_append.mp hrest
  refine ⟨hmiddle, fun a ha => ⟨fun hin => ?_, fun hin => hback a ha a hin rfl⟩⟩
  exact hfront a hin a (List.mem_append_left _ ha) rfl

/-- **Writing at the end of a way changes this leaf only.** -/
theorem LeafAt.set? {tree : Tree} {way : List String} {text : String} (h : LeafAt tree way text)
    (hvalid : tree.Valid) (hcounted : tree.Counted) {name : String}
    (hnodup : ((leavesBelow name tree).map Prod.fst).Nodup) (new : String) :
    tree.set? (way.map .key) (.scalar new) =
      some (mapBelow (putAt (way.foldl childName name) new) name tree) := by
  induction h generalizing name with
  | here text => simp [Tree.set?, mapBelow, putAt]
  | @item before after item way text hleaf ih =>
    have hplace := hcounted.place_le
    have hmem := List.mem_map_of_mem (f := Prod.fst)
      (hleaf.mem_leavesBelow (childName name (Text.showNat before.length)))
    rw [leavesBelow, leavesOfItems_append, Nat.zero_add, leavesOfItems, List.map_append,
      List.map_append] at hnodup
    obtain ⟨hitem, hapart⟩ := nodup_middle hnodup
    obtain ⟨hbefore, hafter⟩ := hapart _ hmem
    rw [List.map_cons, set?_of_child? (child?_item hplace),
      ih (validItems_iff.mp hvalid _ (by simp)) (countedItems_iff.mp hcounted.2 _ (by simp)) hitem,
      Option.map_some, replaceChild_item hplace, mapBelow, mapItems_append, List.foldl_cons,
      mapItems_putAt hbefore, Nat.zero_add, mapItems, mapItems_putAt hafter]
  | @entry before after key value way text hleaf ih =>
    have hmem := List.mem_map_of_mem (f := Prod.fst) (hleaf.mem_leavesBelow (childName name key))
    have hkey : key ∉ Entries.keys before := by
      have hkeys : (Entries.keys before ++ key :: Entries.keys after).Nodup := by
        simpa [Entries.NodupKeys, Entries.keys] using hvalid.1
      exact fun hin => (List.nodup_append.mp hkeys).2.2 _ hin _ (List.mem_cons_self ..) rfl
    rw [leavesBelow, leavesOfEntries_append, leavesOfEntries, List.map_append,
      List.map_append] at hnodup
    obtain ⟨hvalue, hapart⟩ := nodup_middle hnodup
    obtain ⟨hbefore, hafter⟩ := hapart _ hmem
    rw [List.map_cons, set?_of_child? (child?_entry hvalid.1),
      ih (validEntries_iff.mp hvalid.2 (key, value) (by simp))
        (countedEntries_iff.mp hcounted (key, value) (by simp)) hvalue,
      Option.map_some, replaceChild, Segment.asKey, insert_middle hkey, mapBelow,
      mapEntries_append, List.foldl_cons, mapEntries_putAt hbefore, mapEntries,
      mapEntries_putAt hafter]

/-! ### Addresses -/

theorem flatten_mapLeaves {tree : Tree} (h : tree.names.Nodup) (f : String → String → String) :
    (tree.mapLeaves f).flatten = tree.flatten.map fun leaf => (leaf.1, f leaf.1 leaf.2) := by
  have hnames : (tree.mapLeaves f).names = tree.names := by
    rw [names, leaves_mapLeaves, List.map_map]
    rfl
  rw [flatten_eq_leaves h, flatten_eq_leaves (hnames ▸ h), leaves_mapLeaves]

section Addresses

variable {tree : Tree} (hkeys : tree.AllKeys IsPathKey)
include hkeys

/-- The name of a leaf is its way in dotted form. -/
theorem LeafAt.foldl_childName {way : List String} {text : String} (h : LeafAt tree way text) :
    way.foldl childName "" = Path.dotted (way.map .key) :=
  Path.foldl_childName Path.legible_nil fun key hkey => (h.isPathKey hkeys key hkey).1.1

theorem LeafAt.mem_leaves {way : List String} {text : String} (h : LeafAt tree way text) :
    (Path.dotted (way.map .key), text) ∈ tree.leaves := by
  rw [← h.foldl_childName hkeys]
  exact h.mem_leavesBelow ""

/-- The way is read off the name. -/
theorem LeafAt.parse_dotted {way : List String} {text : String} (h : LeafAt tree way text) :
    Path.parse (Path.dotted (way.map .key)) = way.map .key :=
  Path.parse_dotted (h.isPathKey hkeys)

theorem exists_leafAt_of_mem {leaf : String × String} (h : leaf ∈ tree.leaves) :
    ∃ way, LeafAt tree way leaf.2 ∧ leaf.1 = Path.dotted (way.map .key) := by
  obtain ⟨way, hway, hname⟩ := exists_leafAt tree h
  exact ⟨way, hway, hname.trans (hway.foldl_childName hkeys)⟩

/-- Only one way makes the name. -/
theorem LeafAt.eq_of_dotted {way other : List String} {text text' : String}
    (h : LeafAt tree way text) (h' : LeafAt tree other text')
    (hname : Path.dotted (way.map .key) = Path.dotted (other.map .key)) : way = other := by
  have hmap : way.map Segment.key = other.map Segment.key := by
    rw [← h.parse_dotted hkeys, hname, h'.parse_dotted hkeys]
  exact List.map_injective_iff.mpr (fun _ _ => Segment.key.inj) hmap

end Addresses

/-- **Flat names are the addresses of the leaves**, if no key is empty or holds a dot or an opening
bracket.  The table has one entry for each leaf, and each of its names, read as a path, leads to the
leaf; writing a text there always succeeds, changes this leaf alone, and leaves the table as it was
but for the text of this name. -/
theorem flatten_addresses {tree : Tree} (valid : tree.Valid) (counted : tree.Counted)
    (keys : tree.AllKeys IsPathKey) :
    tree.flatten = tree.leaves ∧
    (∀ way text, LeafAt tree way text → (Path.dotted (way.map .key), text) ∈ tree.flatten) ∧
    ∀ leaf ∈ tree.flatten,
      (∃! way, LeafAt tree way leaf.2 ∧ leaf.1 = Path.dotted (way.map .key)) ∧
      tree.at? (Path.parse leaf.1) = some (.scalar leaf.2) ∧
      ∀ new, ∃ result, tree.set? (Path.parse leaf.1) (.scalar new) = some result ∧
        result = tree.mapLeaves (putAt leaf.1 new) ∧
        result.flatten =
          tree.flatten.map fun other => (other.1, if other.1 = leaf.1 then new else other.2) := by
  have hnodup : tree.names.Nodup := nodup_names (fun _ hkey => hkey.1) valid keys
  have hflat : tree.flatten = tree.leaves := flatten_eq_leaves hnodup
  refine ⟨hflat, fun way text hway => hflat ▸ hway.mem_leaves keys, ?_⟩
  rintro ⟨name, text⟩ hleaf
  rw [hflat] at hleaf
  obtain ⟨way, hway, rfl⟩ := exists_leafAt_of_mem keys hleaf
  refine ⟨⟨way, ⟨hway, rfl⟩, ?_⟩, ?_, fun new => ?_⟩
  · rintro other ⟨hother, hname⟩
    exact hother.eq_of_dotted keys hway hname.symm
  · rw [hway.parse_dotted keys]
    exact hway.at? valid counted
  · refine ⟨tree.mapLeaves (putAt _ new), ?_, rfl, flatten_mapLeaves hnodup _⟩
    rw [hway.parse_dotted keys, hway.set? valid counted hnodup new, hway.foldl_childName keys]
    rfl

/-- Numbers as places and as keys. -/
def numbered : Tree :=
  .mapping [("list", .sequence [.mapping [("1", .scalar "a")], .scalar "b"]), ("1", .scalar "c")]

/-- The second item is changed, and `list.0.1` and `1` are not. -/
theorem flatten_addresses_numbers :
    ∃ result : Tree, numbered.Valid ∧ numbered.Counted ∧ numbered.AllKeys IsPathKey ∧
      ("list.1", "b") ∈ numbered.flatten ∧
      numbered.set? (Path.parse "list.1") (.scalar "d") = some result ∧
      result.flatten = [("list.0.1", "a"), ("list.1", "d"), ("1", "c")] := by
  have hvalid : numbered.Valid := by
    unfold numbered
    exact ⟨by decide, ⟨⟨by decide, trivial, trivial⟩, trivial, trivial⟩, trivial, trivial⟩
  have hcounted : numbered.Counted := by
    unfold numbered
    exact ⟨⟨by decide, ⟨trivial, trivial⟩, trivial, trivial⟩, trivial, trivial⟩
  have hkeys : numbered.AllKeys IsPathKey := by decide +kernel
  have hleaf : ("list.1", "b") ∈ numbered.flatten := by decide +kernel
  obtain ⟨-, -, hset⟩ := (flatten_addresses hvalid hcounted hkeys).2.2 _ hleaf
  obtain ⟨result, hresult, -, hflat⟩ := hset "d"
  exact ⟨result, hvalid, hcounted, hkeys, hleaf, hresult, hflat.trans (by decide +kernel)⟩

end Tree

end ConfigTree
