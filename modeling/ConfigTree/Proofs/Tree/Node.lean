import ConfigTree.Proofs.Tree.Addressing

/-! # The nodes of a tree

`NodeAt` is the way from the root to a node: a key at each mapping and an index at each sequence.
Reading at it finds the node (`NodeAt.at?`).  Unlike the paths that reading accepts, each node has
one way only, as an index is never spelled as a key.

Where no key is empty or holds a dot, a way is told by its dotted form (`NodeAt.eq_of_dotted`): the
segments can be read off the text, and each of them says which child is meant.
-/
namespace ConfigTree

instance (text : String) : Decidable (IsSegment text) :=
  inferInstanceAs (Decidable (text ≠ "" ∧ '.' ∉ text.toList))

namespace Path

/-- Each segment with a dot in front. -/
theorem cons_toList_dotted {way : Path} (h : way ≠ []) :
    '.' :: way.dotted.toList = way.flatMap fun segment => '.' :: segment.asKey.toList := by
  induction way with
  | nil => exact absurd rfl h
  | cons segment way ih =>
    by_cases hway : way = []
    · simp [hway]
    · have hcons : dotted (segment :: way) = segment.asKey ++ "." ++ dotted way := by
        rw [← dotted_singleton, ← dotted_append (by simp) hway, List.singleton_append]
      rw [List.flatMap_cons, ← ih hway, hcons]
      simp

/-- Segments without dots are read off the text in which each has a dot in front. -/
theorem map_asKey_of_flatMap {way other : Path} (hway : ∀ segment ∈ way, IsSegment segment.asKey)
    (hother : ∀ segment ∈ other, IsSegment segment.asKey)
    (h : (way.flatMap fun segment => '.' :: segment.asKey.toList) =
      other.flatMap fun segment => '.' :: segment.asKey.toList) :
    way.map Segment.asKey = other.map Segment.asKey := by
  have hstop : ∀ rest : Path, (rest.flatMap fun segment => '.' :: segment.asKey.toList) = [] ∨
      (rest.flatMap fun segment => '.' :: segment.asKey.toList).head? = some '.' := by
    intro rest
    cases rest with
    | nil => exact .inl rfl
    | cons segment rest => exact .inr rfl
  induction way generalizing other with
  | nil =>
    cases other with
    | nil => rfl
    | cons segment other => cases h
  | cons segment way ih =>
    cases other with
    | nil => cases h
    | cons next other =>
      obtain ⟨hsegment, hway⟩ := List.forall_mem_cons.mp hway
      obtain ⟨hnext, hother⟩ := List.forall_mem_cons.mp hother
      rw [List.flatMap_cons, List.flatMap_cons, List.cons_append, List.cons_append] at h
      have htexts := (List.cons.inj h).2
      have hfirst : segment.asKey.toList = next.asKey.toList :=
        eq_of_append_stop hsegment.2 hnext.2 (hstop way) (hstop other) htexts
      rw [hfirst] at htexts
      rw [List.map_cons, List.map_cons, String.toList_inj.mp hfirst,
        ih hway hother (List.append_cancel_left htexts)]

/-- Two places with one dotted form have the same keys, if none of them is empty or has a dot. -/
theorem map_asKey_of_dotted {way other : Path} (hway : ∀ segment ∈ way, IsSegment segment.asKey)
    (hother : ∀ segment ∈ other, IsSegment segment.asKey) (h : dotted way = dotted other) :
    way.map Segment.asKey = other.map Segment.asKey := by
  have hnamed : ∀ {place : Path}, place ≠ [] → (∀ segment ∈ place, IsSegment segment.asKey) →
      dotted place ≠ "" := by
    intro place hne hplace
    obtain ⟨segment, rest, rfl⟩ := List.exists_cons_of_ne_nil hne
    exact (legible_cons (hplace segment (by simp)).1 rest).resolve_left hne
  by_cases hw : way = []
  · by_cases ho : other = []
    · rw [hw, ho]
    · rw [hw] at h
      exact absurd h.symm (hnamed ho hother)
  · by_cases ho : other = []
    · rw [ho] at h
      exact absurd h (hnamed hw hway)
    · refine map_asKey_of_flatMap hway hother ?_
      rw [← cons_toList_dotted hw, ← cons_toList_dotted ho, h]

end Path

namespace Tree

/-- The way leads to the node. -/
inductive NodeAt : Tree → Path → Tree → Prop where
  | here (tree : Tree) : NodeAt tree [] tree
  | item {items : List Tree} {index : Nat} {item node : Tree} {way : Path} :
      items[index]? = some item → NodeAt item way node →
      NodeAt (.sequence items) (.index index :: way) node
  | entry {entries : List (String × Tree)} {key : String} {value node : Tree} {way : Path} :
      Entries.get? entries key = some value → NodeAt value way node →
      NodeAt (.mapping entries) (.key key :: way) node

namespace NodeAt

variable {tree node : Tree} {way : Path}

theorem at? (h : NodeAt tree way node) : tree.at? way = some node := by
  induction h with
  | here tree => exact at?_nil tree
  | item hitem _ ih => simpa [child?, Segment.asIndex?, hitem] using ih
  | entry hvalue _ ih => simpa [child?, Segment.asKey, hvalue] using ih

theorem isSegment (h : NodeAt tree way node) (hkeys : tree.AllKeys IsSegment) :
    ∀ segment ∈ way, IsSegment segment.asKey := by
  induction h with
  | here tree => simp
  | item hitem _ ih =>
    exact List.forall_mem_cons.mpr ⟨isSegment_showNat _,
      ih (allKeysItems_iff.mp hkeys _ (List.mem_of_getElem? hitem))⟩
  | entry hvalue _ ih =>
    obtain ⟨hkey, hrest⟩ := allKeysEntries_iff.mp hkeys _ (Entries.mem_of_get? hvalue)
    exact List.forall_mem_cons.mpr ⟨hkey, ih hrest⟩

/-- The keys of the segments tell the way, as the tree says which of them are indices. -/
theorem eq_of_map_asKey (h : NodeAt tree way node) {other : Path} {found : Tree}
    (h' : NodeAt tree other found) (heq : way.map Segment.asKey = other.map Segment.asKey) :
    way = other := by
  induction h generalizing other with
  | here tree =>
    rw [List.map_nil, eq_comm, List.map_eq_nil_iff] at heq
    exact heq.symm
  | item hitem _ ih =>
    cases h' with
    | here => simp at heq
    | item hitem' hrest =>
      obtain ⟨hindex, hway⟩ := List.cons.inj heq
      obtain rfl := Text.showNat_injective hindex
      rw [hitem, Option.some.injEq] at hitem'
      subst hitem'
      rw [ih hrest hway]
  | entry hvalue _ ih =>
    cases h' with
    | here => simp at heq
    | @entry _ key _ _ _ hvalue' hrest =>
      obtain ⟨hkey, hway⟩ := List.cons.inj heq
      obtain rfl : key = _ := hkey.symm
      have hsame := hvalue.symm.trans hvalue'
      rw [Option.some.injEq] at hsame
      subst hsame
      rw [ih hrest hway]

/-- **A way is told by its dotted form**, if all keys are segments. -/
theorem eq_of_dotted (h : NodeAt tree way node) {other : Path} {found : Tree}
    (h' : NodeAt tree other found) (hkeys : tree.AllKeys IsSegment)
    (heq : way.dotted = other.dotted) : way = other :=
  h.eq_of_map_asKey h' (Path.map_asKey_of_dotted (h.isSegment hkeys) (h'.isSegment hkeys) heq)

end NodeAt

end Tree

end ConfigTree
