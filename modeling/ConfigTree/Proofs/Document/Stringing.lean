import ConfigTree.Document.Reading
import ConfigTree.Proofs.Entries
import ConfigTree.Proofs.Tree.Reordering
import ConfigTree.Proofs.Yaml.Proper

/-! # Values as trees of texts

A value becomes a tree when its types are dropped.  Keys have types too, and different keys can have
the same text: **a mapping then has one entry for each text, in the place of the first key with this
text and with the value of the last one** (`Merged`).  No entry is lost exactly if the keys of each
mapping have different texts (`toTree_eq_asTree_iff`).

Two scalar keys that the parser tells apart have the same text in two cases only: they differ in
their labels, or one of them is a string that spells the other (`keyText_eq_iff`).  The text of a
collection is the document that it would be written as.
-/
namespace ConfigTree

/-! ### How many leaves a tree has -/

namespace Tree

theorem length_leavesOfItems {items : List Tree}
    (h : ∀ item ∈ items, ∀ name, (leavesBelow name item).length = item.leaves.length)
    (name : String) (index : Nat) :
    (leavesOfItems name index items).length = (items.map fun item => item.leaves.length).sum := by
  induction items generalizing index with
  | nil => rfl
  | cons item rest ih =>
    obtain ⟨hitem, hrest⟩ := List.forall_mem_cons.mp h
    rw [leavesOfItems, List.length_append, hitem, ih hrest, List.map_cons, List.sum_cons]

theorem length_leavesOfEntries {entries : List (String × Tree)}
    (h : ∀ entry ∈ entries, ∀ name, (leavesBelow name entry.2).length = entry.2.leaves.length)
    (name : String) :
    (leavesOfEntries name entries).length =
      (entries.map fun entry => entry.2.leaves.length).sum := by
  rw [leavesOfEntries_eq_flatMap, List.length_flatMap]
  exact congrArg List.sum (List.map_congr_left fun entry hentry => h entry hentry _)

/-- Names do not matter for the number of leaves. -/
theorem length_leavesBelow (tree : Tree) (name : String) :
    (leavesBelow name tree).length = tree.leaves.length := by
  induction tree using Tree.induction generalizing name with
  | scalar text => rfl
  | sequence items ih =>
    exact (length_leavesOfItems ih name 0).trans (length_leavesOfItems ih "" 0).symm
  | mapping entries ih =>
    exact (length_leavesOfEntries ih name).trans (length_leavesOfEntries ih "").symm

theorem length_leaves_sequence (items : List Tree) :
    (Tree.sequence items).leaves.length = (items.map fun item => item.leaves.length).sum :=
  length_leavesOfItems (fun item _ => length_leavesBelow item) "" 0

theorem length_leaves_mapping (entries : List (String × Tree)) :
    (Tree.mapping entries).leaves.length =
      (entries.map fun entry => entry.2.leaves.length).sum :=
  length_leavesOfEntries (fun entry _ => length_leavesBelow entry.2) ""

end Tree

namespace Yaml.Value

/-! ### Scalars and collections -/

/-- The value is neither a collection nor labelled. -/
def IsScalar : Value → Prop
  | .sequence _ => False
  | .mapping _ => False
  | .tagged _ _ => False
  | _ => True

section Induction

variable {P : Value → Prop} (scalar : ∀ value, value.IsScalar → P value)
  (sequence : ∀ items, (∀ item ∈ items, P item) → P (.sequence items))
  (mapping : ∀ entries, (∀ entry ∈ entries, P entry.2) → P (.mapping entries))
  (tagged : ∀ label value, P value → P (.tagged label value))
include scalar sequence mapping tagged

-- The linter does not see that all three theorems use what is assumed.
set_option linter.unusedSectionVars false

mutual
/-- What holds for a value if it holds for the values right below it, keys aside, holds for all. -/
@[elab_as_elim]
theorem induction : (value : Value) → P value
  | .null => scalar _ trivial
  | .bool _ => scalar _ trivial
  | .int _ => scalar _ trivial
  | .float _ => scalar _ trivial
  | .string _ => scalar _ trivial
  | .sequence items => sequence items (induction_items items)
  | .mapping entries => mapping entries (induction_entries entries)
  | .tagged label value => tagged label value (induction value)

theorem induction_items : (items : List Value) → ∀ item ∈ items, P item
  | [] => by simp
  | item :: rest => List.forall_mem_cons.mpr ⟨induction item, induction_items rest⟩

theorem induction_entries : (entries : List (Value × Value)) → ∀ entry ∈ entries, P entry.2
  | [] => by simp
  | (_, value) :: rest => List.forall_mem_cons.mpr ⟨induction value, induction_entries rest⟩
end

end Induction

mutual
/-- The tree that has an entry for each entry of a mapping, even if keys have the same text. -/
def asTree : Value → Tree
  | .sequence items => .sequence (asTrees items)
  | .mapping entries => .mapping (asPairs entries)
  | .tagged _ value => asTree value
  | value => .scalar ((scalarText? value).getD "")

/-- The trees of several values. -/
def asTrees : List Value → List Tree
  | [] => []
  | value :: rest => asTree value :: asTrees rest

/-- The entries of a mapping as texts and trees. -/
def asPairs : List (Value × Value) → List (String × Tree)
  | [] => []
  | (key, value) :: rest => (keyText key, asTree value) :: asPairs rest
end

mutual
/-- How many scalars the value has, keys aside. -/
def leafCount : Value → Nat
  | .sequence items => leafCountItems items
  | .mapping entries => leafCountEntries entries
  | .tagged _ value => leafCount value
  | _ => 1

/-- How many scalars the values have. -/
def leafCountItems : List Value → Nat
  | [] => 0
  | item :: rest => leafCount item + leafCountItems rest

/-- How many scalars the values of a mapping have. -/
def leafCountEntries : List (Value × Value) → Nat
  | [] => 0
  | (_, value) :: rest => leafCount value + leafCountEntries rest
end

variable {value : Value} {items : List Value} {entries : List (Value × Value)}

theorem toTrees_eq_map (items : List Value) : toTrees items = items.map toTree := by
  induction items with
  | nil => rfl
  | cons item rest ih => rw [toTrees, ih, List.map_cons]

theorem toPairs_eq_map (entries : List (Value × Value)) :
    toPairs entries = entries.map fun entry => (keyText entry.1, entry.2.toTree) := by
  induction entries with
  | nil => rfl
  | cons entry rest ih => rw [toPairs, ih, List.map_cons]

theorem asTrees_eq_map (items : List Value) : asTrees items = items.map asTree := by
  induction items with
  | nil => rfl
  | cons item rest ih => rw [asTrees, ih, List.map_cons]

theorem asPairs_eq_map (entries : List (Value × Value)) :
    asPairs entries = entries.map fun entry => (keyText entry.1, entry.2.asTree) := by
  induction entries with
  | nil => rfl
  | cons entry rest ih => rw [asPairs, ih, List.map_cons]

/-- The texts of the keys of a mapping, in order. -/
def keyTexts (entries : List (Value × Value)) : List String :=
  entries.map fun entry => keyText entry.1

theorem keys_toPairs (entries : List (Value × Value)) :
    Entries.keys (toPairs entries) = keyTexts entries := by
  simp [Entries.keys, keyTexts, toPairs_eq_map]

theorem keys_asPairs (entries : List (Value × Value)) :
    Entries.keys (asPairs entries) = keyTexts entries := by
  simp [Entries.keys, keyTexts, asPairs_eq_map]

/-- A scalar is a leaf with its text. -/
theorem IsScalar.exists_text (h : value.IsScalar) :
    ∃ text, value.scalarText? = some text ∧ value.toTree = .scalar text ∧
      value.asTree = .scalar text ∧ value.leafCount = 1 := by
  cases value with
  | sequence items => exact h.elim
  | mapping entries => exact h.elim
  | tagged label value => exact h.elim
  | null => exact ⟨_, rfl, rfl, rfl, rfl⟩
  | bool b => exact ⟨_, rfl, rfl, rfl, rfl⟩
  | int i => exact ⟨_, rfl, rfl, rfl, rfl⟩
  | float x => exact ⟨_, rfl, rfl, rfl, rfl⟩
  | string text => exact ⟨_, rfl, rfl, rfl, rfl⟩

/-! ### Mappings in a value -/

/-- The mapping is the value or somewhere in it, but not in a key. -/
inductive MappingIn (entries : List (Value × Value)) : Value → Prop where
  | here : MappingIn entries (.mapping entries)
  | item {items : List Value} {item : Value} :
      item ∈ items → MappingIn entries item → MappingIn entries (.sequence items)
  | value {others : List (Value × Value)} {entry : Value × Value} :
      entry ∈ others → MappingIn entries entry.2 → MappingIn entries (.mapping others)
  | label {label : String} {value : Value} :
      MappingIn entries value → MappingIn entries (.tagged label value)

/-- In no mapping two keys have the same text. -/
def KeysApart (value : Value) : Prop :=
  ∀ entries, value.MappingIn entries → (keyTexts entries).Nodup

theorem keysApart_of_isScalar (h : value.IsScalar) : value.KeysApart := by
  intro entries hmapping
  cases hmapping <;> exact h.elim

theorem keysApart_sequence :
    (Value.sequence items).KeysApart ↔ ∀ item ∈ items, item.KeysApart := by
  constructor
  · exact fun h item hitem entries hmapping => h entries (.item hitem hmapping)
  · intro h entries hmapping
    cases hmapping with
    | item hitem hmapping => exact h _ hitem entries hmapping

theorem keysApart_mapping :
    (Value.mapping entries).KeysApart ↔
      (keyTexts entries).Nodup ∧ ∀ entry ∈ entries, entry.2.KeysApart := by
  constructor
  · exact fun h => ⟨h entries .here, fun entry hentry inner hmapping =>
      h inner (.value hentry hmapping)⟩
  · rintro ⟨hnodup, hvalues⟩ inner hmapping
    cases hmapping with
    | here => exact hnodup
    | value hentry hmapping => exact hvalues _ hentry inner hmapping

theorem keysApart_tagged {label : String} :
    (Value.tagged label value).KeysApart ↔ value.KeysApart := by
  constructor
  · exact fun h entries hmapping => h entries (.label hmapping)
  · intro h entries hmapping
    cases hmapping with
    | label hmapping => exact h entries hmapping

/-! ### What becomes of mappings -/

/-- The value of the last entry whose key has the text. -/
def LastOf (entries : List (Value × Value)) (text : String) (value : Value) : Prop :=
  ((entries.filter fun entry => keyText entry.1 = text).getLast?.map Prod.snd) = some value

/-- The tree is the value without types and labels.  In a mapping it has one entry for each text
that keys have, in the order in which these texts come first, each with the last value of its
text. -/
inductive Merged : Value → Tree → Prop where
  | scalar {value : Value} {text : String} :
      value.IsScalar → value.scalarText? = some text → Merged value (.scalar text)
  | sequence {items : List Value} {trees : List Tree} :
      List.Forall₂ Merged items trees → Merged (.sequence items) (.sequence trees)
  | mapping {entries : List (Value × Value)} {values : List Value} {pairs : List (String × Tree)} :
      Entries.keys pairs = (keyTexts entries).eraseDups →
      List.Forall₂ (LastOf entries) (Entries.keys pairs) values →
      List.Forall₂ Merged values (pairs.map Prod.snd) → Merged (.mapping entries) (.mapping pairs)
  | tagged {label : String} {value : Value} {tree : Tree} :
      Merged value tree → Merged (.tagged label value) tree

/-- An entry of the tree comes from the last value of its text. -/
theorem exists_lastOf {pair : String × Tree} (h : pair ∈ Entries.ofList (toPairs entries)) :
    ∃ value, LastOf entries pair.1 value ∧ value.toTree = pair.2 ∧
      ∃ entry ∈ entries, entry.2 = value := by
  have hlast := (Entries.get?_eq_some_iff (Entries.nodupKeys_ofList _)).mpr h
  rw [Entries.get?_ofList, Entries.get?_reverse_eq_some_iff, toPairs_eq_map, List.filter_map,
    List.getLast?_map, Option.map_eq_some_iff] at hlast
  obtain ⟨entry, hentry, rfl⟩ := hlast
  refine ⟨entry.2, ?_, rfl, entry, (List.mem_filter.mp (List.mem_of_getLast? hentry)).1, rfl⟩
  exact Option.map_eq_some_iff.mpr ⟨entry, hentry, rfl⟩

/-- **The tree of a value has its mappings merged by the texts of their keys**, at every depth. -/
theorem merged_toTree (value : Value) : Merged value value.toTree := by
  induction value using induction with
  | scalar value hscalar =>
    obtain ⟨text, htext, htree, -⟩ := hscalar.exists_text
    exact htree ▸ .scalar hscalar htext
  | sequence items ih =>
    rw [toTree, toTrees_eq_map]
    refine .sequence (List.forall₂_map_right_iff.mpr ?_)
    exact List.forall₂_same.mpr ih
  | mapping entries ih =>
    have hvalues : ∃ values, List.Forall₂ (fun pair value => LastOf entries pair.1 value ∧
        value.toTree = pair.2 ∧ ∃ entry ∈ entries, entry.2 = value)
        (Entries.ofList (toPairs entries)) values :=
      exists_forall₂_iff.mpr fun pair hpair => exists_lastOf hpair
    obtain ⟨values, hvalues⟩ := hvalues
    have hkeys : Entries.keys (Entries.ofList (toPairs entries)) =
        (keyTexts entries).eraseDups := by
      rw [Entries.keys_ofList, keys_toPairs]
    have hlast := hvalues.imp fun _ _ h => h.1
    have hmerged : List.Forall₂ (fun value pair => Merged value pair.2) values
        (Entries.ofList (toPairs entries)) := by
      refine hvalues.flip.imp ?_
      rintro value pair ⟨-, htree, entry, hentry, rfl⟩
      exact htree ▸ ih entry hentry
    exact .mapping hkeys (List.forall₂_map_left_iff.mpr hlast)
      (List.forall₂_map_right_iff.mpr hmerged)
  | tagged label value ih => exact .tagged ih

/-- **No entry is lost exactly if the keys of each mapping have different texts.** -/
theorem toTree_eq_asTree_iff (value : Value) : value.toTree = value.asTree ↔ value.KeysApart := by
  induction value using induction with
  | scalar value hscalar =>
    obtain ⟨text, -, htree, hplain, -⟩ := hscalar.exists_text
    rw [htree, hplain]
    exact iff_of_true rfl (keysApart_of_isScalar hscalar)
  | sequence items ih =>
    rw [toTree, asTree, toTrees_eq_map, asTrees_eq_map, Tree.sequence.injEq, List.map_inj_left,
      keysApart_sequence]
    exact forall₂_congr ih
  | mapping entries ih =>
    rw [keysApart_mapping, toTree, asTree, Tree.ofPairs, Tree.mapping.injEq]
    have hvalues : toPairs entries = asPairs entries ↔ ∀ entry ∈ entries, entry.2.KeysApart := by
      rw [toPairs_eq_map, asPairs_eq_map, List.map_inj_left]
      simp only [Prod.mk.injEq, true_and]
      exact forall₂_congr ih
    constructor
    · intro h
      have hnodup : Entries.NodupKeys (asPairs entries) := h ▸ Entries.nodupKeys_ofList _
      have hapart : (keyTexts entries).Nodup := keys_asPairs entries ▸ hnodup
      have hsame : Entries.NodupKeys (toPairs entries) := by
        rwa [Entries.NodupKeys, keys_toPairs]
      exact ⟨hapart, hvalues.mp (Entries.ofList_eq_self hsame ▸ h)⟩
    · rintro ⟨hapart, hinner⟩
      have hsame : Entries.NodupKeys (toPairs entries) := by
        rwa [Entries.NodupKeys, keys_toPairs]
      rw [Entries.ofList_eq_self hsame]
      exact hvalues.mpr hinner
  | tagged label value ih =>
    rw [toTree, asTree, keysApart_tagged]
    exact ih

/-! ### Leaves -/

theorem leafCountItems_eq_sum (items : List Value) :
    leafCountItems items = (items.map leafCount).sum := by
  induction items with
  | nil => rfl
  | cons item rest ih => rw [leafCountItems, ih, List.map_cons, List.sum_cons]

theorem leafCountEntries_eq_sum (entries : List (Value × Value)) :
    leafCountEntries entries = (entries.map fun entry => entry.2.leafCount).sum := by
  induction entries with
  | nil => rfl
  | cons entry rest ih => rw [leafCountEntries, ih, List.map_cons, List.sum_cons]

/-- A tree that has its mappings entry for entry has all leaves. -/
theorem length_leaves_asTree (value : Value) : value.asTree.leaves.length = value.leafCount := by
  induction value using induction with
  | scalar value hscalar =>
    obtain ⟨text, -, -, hplain, hcount⟩ := hscalar.exists_text
    rw [hplain, hcount]
    rfl
  | sequence items ih =>
    rw [asTree, Tree.length_leaves_sequence, asTrees_eq_map, List.map_map, leafCount,
      leafCountItems_eq_sum]
    exact congrArg List.sum (List.map_congr_left ih)
  | mapping entries ih =>
    rw [asTree, Tree.length_leaves_mapping, asPairs_eq_map, List.map_map, leafCount,
      leafCountEntries_eq_sum]
    exact congrArg List.sum (List.map_congr_left ih)
  | tagged label value ih => exact ih

/-- A tree never has more leaves than the value has scalars. -/
theorem length_leaves_toTree_le (value : Value) :
    value.toTree.leaves.length ≤ value.leafCount := by
  induction value using induction with
  | scalar value hscalar =>
    obtain ⟨text, -, htree, -, hcount⟩ := hscalar.exists_text
    rw [htree, hcount]
    exact Nat.le_refl 1
  | sequence items ih =>
    rw [toTree, Tree.length_leaves_sequence, toTrees_eq_map, List.map_map, leafCount,
      leafCountItems_eq_sum]
    exact List.sum_le_sum ih
  | mapping entries ih =>
    rw [toTree, Tree.ofPairs, Tree.length_leaves_mapping, leafCount, leafCountEntries_eq_sum]
    refine Nat.le_trans (Entries.sum_ofList_le (fun entry : String × Tree => _) _) ?_
    rw [toPairs_eq_map, List.map_map]
    exact List.sum_le_sum ih
  | tagged label value ih => exact ih

/-- **No leaf is lost if no entry is.** -/
theorem KeysApart.length_leaves {value : Value} (h : value.KeysApart) :
    value.toTree.leaves.length = value.leafCount := by
  rw [(toTree_eq_asTree_iff value).mpr h, length_leaves_asTree]

/-! ### Keys with the same text -/

/-- The value without the labels in front of it. -/
def bare : Value → Value
  | .tagged _ value => bare value
  | value => value

/-- The value is a string, and the other is null, a boolean or a number that it spells. -/
def IsWordOf (value other : Value) : Prop :=
  ∃ text, value = .string text ∧ other.word? = some text

theorem IsScalar.bare_eq {value : Value} (h : value.IsScalar) : value.bare = value := by
  cases value <;> first | rfl | exact h.elim

theorem Proper.isNative {value : Value} (h : value.Proper) : value.IsNative := by
  cases value <;> first | exact h | trivial

theorem Proper.bare {value : Value} (h : value.Proper) : value.bare.Proper := by
  induction value using induction with
  | scalar value hscalar => exact hscalar.bare_eq.symm ▸ h
  | sequence items => exact h
  | mapping entries => exact h
  | tagged label value ih => exact ih h

/-- The text of a scalar is that of a string, or it is a word. -/
theorem text_cases {value : Value} {text : String} (h : value.scalarText? = some text) :
    value.bare = .string text ∨ value.bare.word? = some text := by
  induction value using induction with
  | scalar value hscalar =>
    rw [hscalar.bare_eq]
    cases value with
    | string other => exact .inl (congrArg Value.string (Option.some.inj h))
    | null => exact .inr h
    | bool b => exact .inr h
    | int i => exact .inr h
    | float x => exact .inr h
    | sequence items => exact hscalar.elim
    | mapping entries => exact hscalar.elim
    | tagged label value => exact hscalar.elim
  | sequence items => cases h
  | mapping entries => cases h
  | tagged label value ih => exact ih h

theorem scalarText?_of_word? {value : Value} {text : String} (h : value.word? = some text) :
    value.scalarText? = some text := by
  cases value <;> first | exact h | cases h

theorem scalarText?_bare (value : Value) : scalarText? value.bare = scalarText? value := by
  induction value using induction with
  | scalar value hscalar => rw [hscalar.bare_eq]
  | sequence items => rfl
  | mapping entries => rfl
  | tagged label value ih => exact ih

theorem keyText_of_scalarText? {key : Value} {text : String} (h : key.scalarText? = some text) :
    keyText key = text := by
  rw [keyText, h]

/-- **Two scalar keys have the same text exactly if they are the same but for their labels, or one
of them is a string that spells the other.** -/
theorem keyText_eq_iff {a b : Value} (ha : a.Proper) (hb : b.Proper)
    (hatext : a.scalarText?.isSome) (hbtext : b.scalarText?.isSome) :
    keyText a = keyText b ↔
      a.bare = b.bare ∨ IsWordOf a.bare b.bare ∨ IsWordOf b.bare a.bare := by
  obtain ⟨text, hatext⟩ := Option.isSome_iff_exists.mp hatext
  obtain ⟨other, hbtext⟩ := Option.isSome_iff_exists.mp hbtext
  rw [keyText_of_scalarText? hatext, keyText_of_scalarText? hbtext]
  constructor
  · rintro rfl
    rcases text_cases hatext with hastring | haword
    · rcases text_cases hbtext with hbstring | hbword
      · exact .inl (hastring.trans hbstring.symm)
      · exact .inr (.inl ⟨text, hastring, hbword⟩)
    · rcases text_cases hbtext with hbstring | hbword
      · exact .inr (.inr ⟨text, hbstring, haword⟩)
      · exact .inl (word?_injective ha.bare.isNative hb.bare.isNative haword hbword)
  · rw [← scalarText?_bare] at hatext hbtext
    rintro (hsame | ⟨word, hstring, hword⟩ | ⟨word, hstring, hword⟩)
    · rw [hsame, hbtext] at hatext
      exact (Option.some.inj hatext).symm
    · rw [hstring] at hatext
      rw [scalarText?_of_word? hword] at hbtext
      exact (Option.some.inj hatext).symm.trans (Option.some.inj hbtext)
    · rw [hstring] at hbtext
      rw [scalarText?_of_word? hword] at hatext
      exact (Option.some.inj hatext).symm.trans (Option.some.inj hbtext)

/-- A scalar is equal to itself as a key, also if it has labels. -/
theorem same_self {key : Value} (h : key.scalarText?.isSome) : same key key = true := by
  induction key using induction with
  | scalar value hscalar =>
    cases value with
    | float x => simp [same, sameFloat]
    | sequence items => exact hscalar.elim
    | mapping entries => exact hscalar.elim
    | tagged label value => exact hscalar.elim
    | null => rfl
    | bool b => simp [same]
    | int i => simp [same]
    | string text => simp [same]
  | sequence items => cases h
  | mapping entries => cases h
  | tagged label value ih => simp [same, ih h]

theorem Proper.of_mappingIn {value : Value} (h : value.Proper)
    (hmapping : value.MappingIn entries) : (Value.mapping entries).Proper := by
  induction hmapping with
  | here => exact h
  | item hitem _ ih => exact ih (properItems_iff.mp h _ hitem)
  | value hentry _ ih => exact ih (properEntries_iff.mp h.2 _ hentry).2
  | label _ ih => exact ih h

/-- In a mapping no scalar key is there twice, and two have the same text only if they are the same
but for their labels, or one of them is a string that spells the other. -/
theorem Proper.pairwise_keys (h : (Value.mapping entries).Proper) :
    entries.Pairwise fun former later =>
      former.1.scalarText?.isSome → later.1.scalarText?.isSome → former.1 ≠ later.1 ∧
        (keyText former.1 = keyText later.1 ↔ former.1.bare = later.1.bare ∨
          IsWordOf former.1.bare later.1.bare ∨ IsWordOf later.1.bare former.1.bare) := by
  obtain ⟨hapart, hproper⟩ := h
  refine hapart.imp_of_mem fun hformer hlater hne hformertext hlatertext => ⟨?_, ?_⟩
  · intro hsame
    rw [hsame, same_self hlatertext] at hne
    cases hne
  · exact keyText_eq_iff (properEntries_iff.mp hproper _ hformer).1
      (properEntries_iff.mp hproper _ hlater).1 hformertext hlatertext

/-! ### Documents -/

/-- The value of a document; it is null if there is none. -/
def ofYaml (text : String) : Except Error Value := do
  match ← Node.ofTokens? (← tokens text) with
  | none => return .null
  | some node => ofNode node

theorem proper_ofYaml {text : String} {value : Value} (h : ofYaml text = .ok value) :
    value.Proper := by
  obtain ⟨found, -, h⟩ := bind_eq_ok_iff.mp h
  obtain ⟨node, -, h⟩ := bind_eq_ok_iff.mp h
  cases node with
  | none =>
    obtain rfl := Except.ok.inj h
    trivial
  | some node => exact proper_ofNode h

/-- The tree of a document is that of its value. -/
theorem ofYaml_toTree {text : String} {value : Value} (h : ofYaml text = .ok value) :
    Tree.ofYaml text = .ok value.toTree := by
  obtain ⟨found, htokens, h⟩ := bind_eq_ok_iff.mp h
  obtain ⟨node, hnode, h⟩ := bind_eq_ok_iff.mp h
  rw [Tree.ofYaml]
  refine bind_eq_ok_iff.mpr ⟨found, htokens, bind_eq_ok_iff.mpr ⟨node, hnode, ?_⟩⟩
  cases node with
  | none =>
    obtain rfl := Except.ok.inj h
    rfl
  | some node => exact bind_eq_ok_iff.mpr ⟨value, h, rfl⟩

/-- **Mappings are merged by the texts of their keys.**  Take any document and its value.  At every
mapping of the value the tree has one entry for each text that keys have, in the order in which
these texts come first and with the last value of each, and no other entry.  So it has an entry for
each entry of the value, in order, exactly if in no mapping two keys have the same text; then it
also has as many leaves, and never more.  The keys of a mapping are distinct, and two scalars among
them have the same text exactly if they are the same but for their labels, or one of them is a
string that spells the other. -/
theorem merged_ofYaml {text : String} {value : Value} (h : ofYaml text = .ok value) :
    Tree.ofYaml text = .ok value.toTree ∧ Merged value value.toTree ∧
    (value.toTree = value.asTree ↔ value.KeysApart) ∧
    value.toTree.leaves.length ≤ value.leafCount ∧
    (value.KeysApart → value.toTree.leaves.length = value.leafCount) ∧
    ∀ entries, value.MappingIn entries → entries.Pairwise fun former later =>
      former.1.scalarText?.isSome → later.1.scalarText?.isSome → former.1 ≠ later.1 ∧
        (keyText former.1 = keyText later.1 ↔ former.1.bare = later.1.bare ∨
          IsWordOf former.1.bare later.1.bare ∨ IsWordOf later.1.bare former.1.bare) :=
  ⟨ofYaml_toTree h, merged_toTree value, toTree_eq_asTree_iff value,
    length_leaves_toTree_le value, KeysApart.length_leaves, fun _ hmapping =>
      ((proper_ofYaml h).of_mappingIn hmapping).pairwise_keys⟩

/-- What there is to see of the value of a document: the tree with all entries, the tree that is
made of it, and the number of scalars. -/
def shown (text : String) : Option (Tree × Tree × Nat) :=
  (ofYaml text).toOption.map fun value => (value.asTree, value.toTree, value.leafCount)

theorem exists_of_shown {text : String} {whole tree : Tree} {count : Nat}
    (h : shown text = some (whole, tree, count)) :
    ∃ value, ofYaml text = .ok value ∧ value.asTree = whole ∧ value.toTree = tree ∧
      value.leafCount = count := by
  obtain ⟨value, hvalue, hshown⟩ := Option.map_eq_some_iff.mp h
  obtain ⟨hwhole, htree, hcount⟩ := by simpa using hshown
  exact ⟨value, toOption_eq_some_iff.mp hvalue, hwhole, htree, hcount⟩

/-- A document with a labelled mapping in a sequence, and keys of several types. -/
def typedKeys : String := "a: [!t {1: x}, ~]\n2.0: {true: y, null: []}\n"

/-- Keys of several types with different texts keep their entries. -/
theorem merged_ofYaml_typedKeys :
    ∃ value, ofYaml typedKeys = .ok value ∧ value.KeysApart ∧
      value.toTree.leaves.length = value.leafCount ∧
      value.toTree = .mapping [
        ("a", .sequence [.mapping [("1", .scalar "x")], .scalar "null"]),
        ("2.0", .mapping [("true", .scalar "y"), ("null", .sequence [])])] := by
  have hshown : shown typedKeys = some
      (.mapping [("a", .sequence [.mapping [("1", .scalar "x")], .scalar "null"]),
        ("2.0", .mapping [("true", .scalar "y"), ("null", .sequence [])])],
      .mapping [("a", .sequence [.mapping [("1", .scalar "x")], .scalar "null"]),
        ("2.0", .mapping [("true", .scalar "y"), ("null", .sequence [])])], 3) := by
    decide +kernel
  obtain ⟨value, hvalue, hwhole, htree, -⟩ := exists_of_shown hshown
  obtain ⟨-, -, hkept, -, hcount, -⟩ := merged_ofYaml hvalue
  have hapart := hkept.mp (htree.trans hwhole.symm)
  exact ⟨value, hvalue, hapart, hcount hapart, htree⟩

/-- A number, a string and a labelled number as keys have one text, so of three entries one is left,
with the value of the last one. -/
theorem toTree_loses_entries :
    ∃ value, ofYaml "1: a\n'1': b\n!x 1: c\n" = .ok value ∧
      value.asTree = .mapping [("1", .scalar "a"), ("1", .scalar "b"), ("1", .scalar "c")] ∧
      value.toTree = .mapping [("1", .scalar "c")] ∧ value.leafCount = 3 :=
  exists_of_shown (by decide +kernel)

end Yaml.Value

end ConfigTree
