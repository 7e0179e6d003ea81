import ConfigTree.Parameters.Basic
import ConfigTree.Proofs.Document.Comments
import ConfigTree.Proofs.Document.Reading
import ConfigTree.Proofs.Reference.Idempotence
import ConfigTree.Proofs.Tree.FlatName
import ConfigTree.Proofs.Tree.Validity

/-! # Round trips

A tree is read back from its document exactly if it is `Writable`: each of its keys and leaves is
read back by itself, each key fits on a line that the reader searches for keys, and collections are
not nested too deeply.  Parameters whose data are writable are always read back, with references
resolved once more, so they are equal to what was written exactly if no leaf refers to the table.
-/
namespace ConfigTree

namespace Tree

open Yaml

mutual
/-- How deeply the collections of a tree are nested. -/
def nesting : Tree → Nat
  | .scalar _ => 0
  | .sequence items => itemsNesting items + 1
  | .mapping entries => entriesNesting entries + 1

/-- How deeply collections are nested in the items of a sequence. -/
def itemsNesting : List Tree → Nat
  | [] => 0
  | item :: rest => max (nesting item) (itemsNesting rest)

/-- How deeply collections are nested in the values of a mapping. -/
def entriesNesting : List (String × Tree) → Nat
  | [] => 0
  | (_, value) :: rest => max (nesting value) (entriesNesting rest)
end

/-- The key is written on one line, with no more characters than the reader looks back for a key. -/
def IsWritableKey (key : String) : Prop := fitsKey (scalarChars key) = true

/-- A tree that is read back from its document. -/
structure Writable (tree : Tree) : Prop where
  texts : ∀ text ∈ tree.texts, survives text = true
  keys : tree.AllKeys IsWritableKey
  nesting : tree.nesting ≤ Value.maxDepth

instance : DecidablePred IsWritableKey := fun key =>
  inferInstanceAs (Decidable (fitsKey (scalarChars key) = true))

instance (tree : Tree) : Decidable tree.Writable :=
  decidable_of_iff ((∀ text ∈ tree.texts, survives text = true) ∧
      tree.AllKeys IsWritableKey ∧ tree.nesting ≤ Value.maxDepth)
    ⟨fun h => ⟨h.1, h.2.1, h.2.2⟩, fun h => ⟨h.texts, h.keys, h.nesting⟩⟩

/-! ### When a tree is read back -/

theorem isSome_scalarNode? (text : String) :
    (scalarNode? text).isSome = (readBack? text).isSome := by
  unfold scalarNode? readBack?
  cases scalarToken text with
  | error e => rfl
  | ok token => cases token <;> rfl

theorem isSome_keyNode?_iff (key : String) :
    (keyNode? key).isSome ↔ IsWritableKey key ∧ (readBack? key).isSome := by
  rw [keyNode?, IsWritableKey, ← isSome_scalarNode?]
  split
  · next h => simp [h]
  · next h => simp [h]

mutual
/-- A tree has a node if all texts can be read, and the keys are found to be keys. -/
theorem isSome_toNode?_iff : (tree : Tree) → (tree.toNode?.isSome ↔
    (∀ text ∈ tree.texts, (readBack? text).isSome) ∧ tree.AllKeys IsWritableKey)
  | .scalar text => by
    rw [toNode?, isSome_scalarNode?]
    simp [texts, AllKeys]
  | .sequence items => by
    rw [toNode?, Option.isSome_map, isSome_itemNodes?_iff items]
    rfl
  | .mapping entries => by
    rw [toNode?, Option.isSome_map, isSome_entryNodes?_iff entries]
    rfl

theorem isSome_itemNodes?_iff : (items : List Tree) → ((itemNodes? items).isSome ↔
    (∀ text ∈ itemTexts items, (readBack? text).isSome) ∧ AllKeysItems IsWritableKey items)
  | [] => by simp [itemNodes?, itemTexts, AllKeysItems]
  | item :: rest => by
    have hcons : (itemNodes? (item :: rest)).isSome ↔
        item.toNode?.isSome ∧ (itemNodes? rest).isSome := by
      rw [itemNodes?]
      cases item.toNode? <;> cases itemNodes? rest <;> simp
    rw [hcons, isSome_toNode?_iff item, isSome_itemNodes?_iff rest, itemTexts,
      List.forall_mem_append, AllKeysItems]
    exact and_and_and_comm

theorem isSome_entryNodes?_iff : (entries : List (String × Tree)) →
    ((entryNodes? entries).isSome ↔
      (∀ text ∈ entryTexts entries, (readBack? text).isSome) ∧
        AllKeysEntries IsWritableKey entries)
  | [] => by simp [entryNodes?, entryTexts, AllKeysEntries]
  | (key, value) :: rest => by
    have hcons : (entryNodes? ((key, value) :: rest)).isSome ↔
        (keyNode? key).isSome ∧ value.toNode?.isSome ∧ (entryNodes? rest).isSome := by
      rw [entryNodes?]
      cases keyNode? key <;> cases value.toNode? <;> cases entryNodes? rest <;> simp
    rw [hcons, isSome_keyNode?_iff, isSome_toNode?_iff value, isSome_entryNodes?_iff rest,
      entryTexts, List.forall_mem_cons, List.forall_mem_append, AllKeysEntries]
    grind
end

theorem reread?_scalar_eq_self_iff (depth : Nat) (text : String) :
    reread? depth (.scalar text) = some (.scalar text) ↔ readBack? text = some text := by
  rw [reread?, Option.map_eq_some_iff]
  simp

mutual
/-- A valid tree is what is read back if all its texts are, and it is not nested too deeply. -/
theorem reread?_eq_self_iff : (tree : Tree) → tree.Valid → ∀ depth,
    (reread? depth tree = some tree ↔
      (∀ text ∈ tree.texts, readBack? text = some text) ∧ tree.nesting ≤ depth)
  | .scalar text => fun _ depth => by
    rw [reread?_scalar_eq_self_iff]
    simp [texts, nesting]
  | .sequence items => fun h depth => by
    cases depth with
    | zero => exact iff_of_false (by rintro ⟨⟩) fun hwritable => Nat.not_succ_le_zero _ hwritable.2
    | succ depth =>
      rw [texts, nesting, Nat.succ_le_succ_iff, ← rereadItems?_eq_self_iff items h depth, reread?]
      simp
  | .mapping entries => fun h depth => by
    cases depth with
    | zero => exact iff_of_false (by rintro ⟨⟩) fun hwritable => Nat.not_succ_le_zero _ hwritable.2
    | succ depth =>
      rw [texts, nesting, Nat.succ_le_succ_iff,
        ← rereadEntries?_eq_self_iff entries h.1 h.2 depth [] (by simp), reread?]
      simp

theorem rereadItems?_eq_self_iff : (items : List Tree) → ValidItems items → ∀ depth,
    (rereadItems? depth items = some items ↔
      (∀ text ∈ itemTexts items, readBack? text = some text) ∧ itemsNesting items ≤ depth)
  | [] => fun _ depth => by simp [rereadItems?, itemTexts, itemsNesting]
  | item :: rest => fun h depth => by
    have hcons : rereadItems? depth (item :: rest) = some (item :: rest) ↔
        reread? depth item = some item ∧ rereadItems? depth rest = some rest := by
      rw [rereadItems?_cons_eq_some_iff]
      simp
    rw [hcons, reread?_eq_self_iff item h.1 depth, rereadItems?_eq_self_iff rest h.2 depth,
      itemTexts, List.forall_mem_append, itemsNesting, Nat.max_le]
    exact and_and_and_comm

theorem rereadEntries?_eq_self_iff : (entries : List (String × Tree)) →
    Entries.NodupKeys entries → ValidEntries entries → ∀ depth keys,
    (∀ key ∈ Entries.keys entries, key ∉ keys) →
    (rereadEntries? depth keys entries = some entries ↔
      (∀ text ∈ entryTexts entries, readBack? text = some text) ∧ entriesNesting entries ≤ depth)
  | [] => fun _ _ depth keys _ => by simp [rereadEntries?, entryTexts, entriesNesting]
  | (key, value) :: rest => fun hnodup h depth keys hnew => by
    obtain ⟨hkey, hkeys⟩ := List.forall_mem_cons.mp hnew
    obtain ⟨hfirst, hnodup⟩ := List.nodup_cons.mp hnodup
    have hnew' : ∀ other ∈ Entries.keys rest, other ∉ key :: keys := by
      intro other hother hmem
      rcases List.mem_cons.mp hmem with rfl | hmem
      · exact hfirst hother
      · exact hkeys other hother hmem
    have hrest := rereadEntries?_eq_self_iff rest hnodup h.2 depth (key :: keys) hnew'
    have hcons : rereadEntries? depth keys ((key, value) :: rest) = some ((key, value) :: rest) ↔
        readBack? key = some key ∧ reread? depth value = some value ∧
          rereadEntries? depth (key :: keys) rest = some rest := by
      rw [rereadEntries?_cons_eq_some_iff]
      constructor
      · rintro ⟨k, t, ts, hk, -, ht, hts, ⟨⟩⟩
        exact ⟨hk, ht, hts⟩
      · rintro ⟨hk, ht, hts⟩
        exact ⟨key, value, rest, hk, hkey, ht, hts, rfl⟩
    rw [hcons, reread?_eq_self_iff value h.1 depth, hrest, entryTexts, List.forall_mem_cons,
      List.forall_mem_append, entriesNesting, Nat.max_le]
    grind
end

theorem forbidden?_eq_none_iff (tree : Tree) : tree.forbidden? = none ↔
    ∀ text ∈ tree.texts, ∀ c ∈ (scalarLine text).toList, isAllowed c = true := by
  simp [forbidden?, written]

/-- **When a tree is read back from its document.** -/
theorem ofYaml_toYaml_eq_ok_iff {tree : Tree} (h : tree.Valid) :
    ofYaml tree.toYaml = .ok tree ↔ tree.Writable := by
  have htokens : tokens tree.toYaml = tree.documentTokens := tokens_toYamlWith oneLine_nil tree
  cases hforbidden : tree.forbidden? with
  -- A forbidden character is an error before there are tokens.
  | some c =>
    refine iff_of_false ?_ fun hwritable => ?_
    · rw [ofYaml, htokens, documentTokens, hforbidden]
      rintro ⟨⟩
    · have hnone := (forbidden?_eq_none_iff tree).mpr fun text htext =>
        ((survives_iff text).mp (hwritable.texts text htext)).1
      rw [hnone] at hforbidden
      cases hforbidden
  | none =>
    rw [documentTokens, hforbidden] at htokens
    have hallowed := (forbidden?_eq_none_iff tree).mp hforbidden
    rw [← toOption_eq_some_iff, toOption_ofYaml htokens]
    constructor
    · intro hread
      obtain ⟨node, hnode, hread⟩ := Option.bind_eq_some_iff.mp hread
      obtain ⟨htexts, hnesting⟩ := (reread?_eq_self_iff tree h _).mp hread
      obtain ⟨-, hkeys⟩ := (isSome_toNode?_iff tree).mp (by rw [hnode]; rfl)
      exact ⟨fun text htext => (survives_iff text).mpr ⟨hallowed text htext, htexts text htext⟩,
        hkeys, hnesting⟩
    · intro hwritable
      have htexts : ∀ text ∈ tree.texts, readBack? text = some text :=
        fun text htext => ((survives_iff text).mp (hwritable.texts text htext)).2
      have hnode : tree.toNode?.isSome :=
        (isSome_toNode?_iff tree).mpr ⟨fun text htext => by rw [htexts text htext]; rfl,
          hwritable.keys⟩
      obtain ⟨node, hnode⟩ := Option.isSome_iff_exists.mp hnode
      rw [hnode, Option.bind_some]
      exact (reread?_eq_self_iff tree h _).mpr ⟨htexts, hwritable.nesting⟩

/-! ### Round trips of parameters -/

/-- A resolved tree is resolved by one pass under any cap. -/
theorem resolve_of_resolve {cap cap' : Nat} {tree result : Tree} (hcap : 0 < cap')
    (h : tree.resolve cap = .ok result) : result.resolve cap' = .ok result.pass := by
  obtain ⟨-, hstands, hu⟩ := standsAt_zero_of_resolve h
  exact resolve_eq_ok_iff.mpr ⟨0, hcap, settles_zero.mpr hstands, hu, rfl⟩

end Tree

namespace Parameters

/-- **Parameters and their documents.**  The data of parameters are read back as a tree exactly if
they are writable.  Then the document is one of parameters too.  Their data are those that were
written, entry by entry and in order, exactly if no leaf, hidden ones included, refers to the table
of the data; this is so whenever no two leaves have one name. -/
theorem ofYaml_toYaml {cap : Nat} {tree : Tree} {parameters : Parameters} (hvalid : tree.Valid)
    (h : ofTree cap tree = .ok parameters) :
    (Tree.ofYaml parameters.toYaml = .ok parameters.data ↔ parameters.data.Writable) ∧
    (parameters.data.Writable →
      ∃ read, ofYaml defaultCap parameters.toYaml = .ok read ∧
        (read.data = parameters.data ↔
          ∀ leaf ∈ parameters.data.leaves, referencesIn parameters.data.flatten leaf.2 = []) ∧
        (read.data = parameters.data → read.same parameters = true) ∧
        (tree.names.Nodup → read.data = parameters.data)) := by
  cases hresolve : tree.resolve cap with
  | error cause => simp [ofTree, hresolve] at h
  | ok data =>
    simp only [ofTree, hresolve, Except.ok.injEq] at h
    subst h
    have hdata : data.Valid := hvalid.resolve hresolve
    have hiff := Tree.ofYaml_toYaml_eq_ok_iff hdata
    refine ⟨hiff, fun hwritable => ?_⟩
    -- The data are resolved, so resolving what is read makes one pass and ends.
    have hagain := Tree.resolve_of_resolve (by decide : 0 < defaultCap) hresolve
    have hread : ofYaml defaultCap data.toYaml = .ok ⟨data, data.pass, defaultCap⟩ := by
      simp [ofYaml, readTree, hiff.mpr hwritable, ofTree, hagain, bind, Except.bind]
    have hpass := Tree.pass_eq_self_iff (Tree.standsAt_zero_of_resolve hresolve).2.2
    refine ⟨_, hread, hpass, fun hsame => ?_, fun hnodup => ?_⟩
    · have hsame : data.pass = data := hsame
      rw [same, hsame]
      exact Tree.same_refl data hdata
    · exact hpass.mpr (Tree.referencesIn_eq_nil_of_resolve hnodup hresolve)

/-- Keys and leaves with indicators, line ends and references, in collections of both kinds. -/
def varied : Tree :=
  .mapping [("- a", .sequence [.scalar "x: #", .mapping [], .scalar ""]),
    ("b: #", .mapping [("'", .scalar "x\n\u2028\ty")]), ("c", .scalar "$\x7b- a.0\x7d")]

/-- All of it is read back, with the reference resolved. -/
theorem ofYaml_toYaml_varied :
    ∃ parameters, varied.Valid ∧ ofTree defaultCap varied = .ok parameters ∧
      parameters.data.Writable ∧ varied.names.Nodup ∧
      ∃ read, ofYaml defaultCap parameters.toYaml = .ok read ∧ read.data = parameters.data ∧
        read.same parameters = true := by
  let data : Tree := .mapping [("- a", .sequence [.scalar "x: #", .mapping [], .scalar ""]),
    ("b: #", .mapping [("'", .scalar "x\n\u2028\ty")]), ("c", .scalar "x: #")]
  have hvalid : varied.Valid := by
    refine ⟨by decide, ⟨trivial, ⟨?_, trivial⟩, trivial, trivial⟩, ⟨?_, trivial, trivial⟩, trivial,
      trivial⟩
    · decide
    · decide
  have hresolve : varied.resolve defaultCap = .ok data := by decide +kernel
  have hof : ofTree defaultCap varied = .ok ⟨varied, data, defaultCap⟩ := by
    rw [ofTree, hresolve]
  have hkey : ∀ key ∈ ["- a", "b: #", "'", "c"], Tree.IsWritableKey key := by
    unfold Tree.IsWritableKey
    decide +kernel
  have hwritable : data.Writable := by
    refine ⟨by decide +kernel, ?_, by decide⟩
    exact ⟨hkey "- a" (by simp), ⟨trivial, trivial, trivial, trivial⟩, hkey "b: #" (by simp),
      ⟨hkey "'" (by simp), trivial, trivial⟩, hkey "c" (by simp), trivial, trivial⟩
  have hnodup : varied.names.Nodup := by decide +kernel
  obtain ⟨read, hread, -, hsame, hdistinct⟩ := (ofYaml_toYaml hvalid hof).2 hwritable
  exact ⟨_, hvalid, hof, hwritable, hnodup, read, hread, hdistinct hnodup,
    hsame (hdistinct hnodup)⟩

/-- A leaf with a line feed and a character that no document may have. -/
def deleted : Tree := .mapping [("a", .scalar "\n\x7f")]

/-- It is written as a JSON string, in which that character stands as it is. -/
theorem ofYaml_toYaml_deleted :
    ∃ parameters, ofTree defaultCap deleted = .ok parameters ∧
      ∀ read, ofYaml defaultCap parameters.toYaml ≠ .ok read := by
  have hresolve : deleted.resolve defaultCap = .ok deleted := by decide +kernel
  refine ⟨⟨deleted, deleted, defaultCap⟩, by rw [ofTree, hresolve], fun read hread => ?_⟩
  have hnone : (ofYaml defaultCap deleted.toYaml).toOption.isNone = true := by decide +kernel
  have hsome : (ofYaml defaultCap deleted.toYaml).toOption = some read :=
    toOption_eq_some_iff.mpr hread
  rw [hsome] at hnone
  cases hnone

end Parameters

end ConfigTree
