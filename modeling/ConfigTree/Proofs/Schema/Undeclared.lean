import ConfigTree.Proofs.Schema.Agreement
import ConfigTree.Proofs.Tree.Reordering

/-! # Undeclared entries

`Catalog.Similar` relates two trees that, read at a declared type, differ only in what no schema
declares: wherever a record is read the two mappings hold similar nodes under the declared names,
and wherever a member of a family is read they also name the same member.  In which order the
entries stand, and which others there are, is left open.  Which names are declared at a place
depends on the type there, and for a member on the record that the registry finds for its name.

**Materialization answers the same on similar trees** (`materialize_similar`): the same value, or
the same error with the same message and path.
-/
namespace ConfigTree

namespace Catalog

open Schema

section Relation

variable (catalog : Catalog)

mutual
/-- **Trees that differ, at a declared type, only in undeclared entries and in the order of
entries.** -/
inductive Similar : DeclaredType → Tree → Tree → Prop where
  | same {declared : DeclaredType} {tree : Tree} : Similar declared tree tree
  | record {type : RecordType} {entries others : List (String × Tree)} :
      SimilarFields (catalog.schema type) entries others →
      Similar (.record type) (.mapping entries) (.mapping others)
  | variant {family : Family} {tree other : Tree} :
      family.kind = .single → SimilarMember family tree other → Similar (.variant family) tree other
  | variants {family : Family} {items others : List Tree} :
      family.kind = .multi → items.length = others.length →
      (∀ item other, (item, other) ∈ items.zip others → SimilarMember family item other) →
      Similar (.list (.variant family)) (.sequence items) (.sequence others)

/-- Nodes that differ so where a member of a family is read.  The name of the member is no field of
its record. -/
inductive SimilarMember : Family → Tree → Tree → Prop where
  | same {family : Family} {tree : Tree} : SimilarMember family tree tree
  | named {family : Family} {entries others : List (String × Tree)} :
      Entries.get? entries moduleNameKey = Entries.get? others moduleNameKey →
      (∀ name entry, Entries.get? entries moduleNameKey = some (.scalar name) →
        catalog.registry.Names family.home name entry → (entry.made? family).isSome = true →
        SimilarFields (catalog.schema entry.record) (Entries.erase entries moduleNameKey)
          (Entries.erase others moduleNameKey)) →
      SimilarMember family (.mapping entries) (.mapping others)

/-- Mappings that have the same fields of a schema, with similar nodes in them. -/
inductive SimilarFields : Schema → List (String × Tree) → List (String × Tree) → Prop where
  | fields {schema : Schema} {entries others : List (String × Tree)} :
      (∀ spec ∈ schema.fields,
        Entries.contains entries spec.name = Entries.contains others spec.name) →
      (∀ spec ∈ schema.fields, ∀ node other, Entries.get? entries spec.name = some node →
        Entries.get? others spec.name = some other → Similar spec.declared node other) →
      SimilarFields schema entries others
end

end Relation

variable {catalog : Catalog} {coercion : IntegerCoercion}

/-- Mappings whose declared entries are the same in whatever order have the same fields. -/
theorem similarFields_of_perm {schema : Schema} {entries others : List (String × Tree)}
    (hentries : Entries.NodupKeys entries) (hothers : Entries.NodupKeys others)
    (h : (entries.filter fun entry => (schema.fields.map FieldSpec.name).contains entry.1).Perm
      (others.filter fun entry => (schema.fields.map FieldSpec.name).contains entry.1)) :
    catalog.SimilarFields schema entries others := by
  have hget : ∀ spec ∈ schema.fields,
      Entries.get? entries spec.name = Entries.get? others spec.name := by
    intro spec hs
    ext node
    have hmem := h.mem_iff (a := (spec.name, node))
    have hname : spec.name ∈ schema.fields.map FieldSpec.name := List.mem_map_of_mem hs
    simp only [List.mem_filter, List.contains_iff_mem, hname, and_true] at hmem
    rw [Entries.get?_eq_some_iff hentries, Entries.get?_eq_some_iff hothers, hmem]
  refine .fields (fun spec hs => ?_) (fun spec hs node other hnode hother => ?_)
  · rw [Entries.contains, Entries.contains, hget spec hs]
  · rw [hget spec hs, hother] at hnode
    cases hnode
    exact .same

/-! ### What each part of the materialization depends on -/

/-- Gathering depends on the fields that are there and on what these are at their types. -/
theorem gather_congr {specs : List FieldSpec} {entries others : List (String × Tree)} {path : Path}
    (hcontains : ∀ spec ∈ specs,
      Entries.contains entries spec.name = Entries.contains others spec.name)
    (hnodes : ∀ spec ∈ specs, ∀ node other, Entries.get? entries spec.name = some node →
      Entries.get? others spec.name = some other → ∀ path,
      catalog.materializeAt coercion node spec.declared path =
        catalog.materializeAt coercion other spec.declared path)
    (fields : Fields) :
    gather (catalog.readings coercion entries) path specs fields =
      gather (catalog.readings coercion others) path specs fields := by
  induction specs generalizing fields with
  | nil => rfl
  | cons spec rest ih =>
    obtain ⟨hspec, hrest⟩ := List.forall_mem_cons.mp hcontains
    obtain ⟨hnode, hnodes⟩ := List.forall_mem_cons.mp hnodes
    cases hentry : Entries.get? entries spec.name with
    | none =>
      have hother : Entries.get? others spec.name = none := by
        simpa [Entries.contains, hentry] using hspec.symm
      simp only [gather, get?_readings, hentry, hother, Option.map_none, ih hrest hnodes]
    | some node =>
      obtain ⟨other, hother⟩ : ∃ other, Entries.get? others spec.name = some other := by
        simpa [Entries.contains, hentry, Option.isSome_iff_exists] using hspec.symm
      simp only [gather, get?_readings, hentry, hother, Option.map_some,
        hnode node other hentry hother, ih hrest hnodes]

theorem makeVariant_congr {family : Family} {entries others : List (String × Tree)} {path : Path}
    (hname : Entries.get? entries moduleNameKey = Entries.get? others moduleNameKey)
    (hfields : ∀ name entry, Entries.get? entries moduleNameKey = some (.scalar name) →
      catalog.registry.Names family.home name entry → (entry.made? family).isSome = true →
      catalog.fieldsOf entry.record
          (catalog.readings coercion (Entries.erase entries moduleNameKey)) path =
        catalog.fieldsOf entry.record
          (catalog.readings coercion (Entries.erase others moduleNameKey)) path) :
    catalog.makeVariant family entries (catalog.readings coercion entries) path =
      catalog.makeVariant family others (catalog.readings coercion others) path := by
  unfold makeVariant
  rw [← hname]
  split
  · next name hscalar =>
    cases hresolve : catalog.registry.resolve family.home name with
    | error cause => rfl
    | ok entry =>
      have hentry := Registry.resolve_eq_ok_iff.mp hresolve
      simp only [makeMember, erase_readings]
      cases hmade : entry.made? family with
      | none => rfl
      | some type => simp only [hfields name entry hscalar hentry (by rw [hmade]; rfl)]
  · rfl
  · rfl

/-- Do two nodes stand for the same member of a family, wherever they stand? -/
def SameMember (catalog : Catalog) (coercion : IntegerCoercion) (family : Family)
    (tree other : Tree) : Prop :=
  tree = other ∨ ∃ entries others, tree = .mapping entries ∧ other = .mapping others ∧
    ∀ path, catalog.makeVariant family entries (catalog.readings coercion entries) path =
      catalog.makeVariant family others (catalog.readings coercion others) path

theorem members_congr {family : Family} {path : Path} {index : Nat} {items others : List Tree}
    (h : List.Forall₂ (catalog.SameMember coercion family) items others) :
    catalog.members coercion family path index items =
      catalog.members coercion family path index others := by
  induction h generalizing index with
  | nil => rfl
  | @cons item _ _ _ hitem _ ih =>
    rcases hitem with rfl | ⟨entries, others, rfl, rfl, hsame⟩
    · cases item with
      | mapping entries => simp only [members, ih]
      | _ => rfl
    · simp only [members, hsame, ih]

/-! ### Whole trees -/

mutual
theorem Similar.materializeAt_eq {declared : DeclaredType} {tree other : Tree} (path : Path) :
    catalog.Similar declared tree other →
      catalog.materializeAt coercion tree declared path =
        catalog.materializeAt coercion other declared path
  | .same => rfl
  | .record hfields => by simp only [materializeAt, makeRecord, fieldsOf, hfields.gather_eq path _]
  | .variant hsingle hmember => by
    rcases hmember.sameMember with rfl | ⟨entries, others, rfl, rfl, hsame⟩
    · rfl
    · simp only [materializeAt, hsingle, if_true, hsame]
  | @Similar.variants _ family items others hmulti hlen hmembers => by
    have hsame : List.Forall₂ (catalog.SameMember coercion family) items others :=
      List.forall₂_iff_zip.mpr ⟨hlen, fun hpair => (hmembers _ _ hpair).sameMember⟩
    simp only [materializeAt, DeclaredType.memberList?, hmulti, if_true, members_congr hsame]

theorem SimilarMember.sameMember {family : Family} {tree other : Tree} :
    catalog.SimilarMember family tree other → catalog.SameMember coercion family tree other
  | .same => .inl rfl
  | .named hname hfields => .inr ⟨_, _, rfl, rfl, fun path =>
      makeVariant_congr hname fun name entry hn he hm =>
        (hfields name entry hn he hm).gather_eq path _⟩

theorem SimilarFields.gather_eq {schema : Schema} {entries others : List (String × Tree)}
    (path : Path) (fields : Fields) :
    catalog.SimilarFields schema entries others →
      gather (catalog.readings coercion entries) path schema.fields fields =
        gather (catalog.readings coercion others) path schema.fields fields
  | .fields hcontains hsimilar =>
    gather_congr hcontains (fun spec hs node other hnode hother path =>
      (hsimilar spec hs node other hnode hother).materializeAt_eq path) fields
end

/-- **Only declared entries matter**: trees that differ only in undeclared entries and in the order
of entries are materialized to the same value, or fail with the same error. -/
theorem materialize_similar (catalog : Catalog) (coercion : IntegerCoercion)
    (declared : DeclaredType) (tree other : Tree) (h : catalog.Similar declared tree other) :
    catalog.materialize coercion tree declared = catalog.materialize coercion other declared :=
  h.materializeAt_eq []

/-- A chain of two links, written in another order and with other notes at both links. -/
theorem materialize_similar_chain :
    ∃ (family : Family) (tree other : Tree) (value : Value),
      tree = .mapping [("next", .mapping [("size", .scalar "1*5"),
          ("module_name", .scalar "LinkConfig")]),
        ("module_name", .scalar "Link"), ("size", .scalar "2"), ("note", .sequence [])] ∧
      other = .mapping [("colour", .scalar "red"), ("size", .scalar "2"),
        ("module_name", .scalar "Link"),
        ("next", .mapping [("module_name", .scalar "LinkConfig"), ("note", .mapping []),
          ("size", .scalar "1*5")])] ∧
      (chainCatalog .single).Similar (.variant family) tree other ∧
      (chainCatalog .single).materialize .strict tree (.variant family) = .ok value ∧
      (chainCatalog .single).materialize .strict other (.variant family) = .ok value := by
  let family := linkFamily .single
  let inner : List (String × Tree) :=
    [("size", .scalar "1*5"), ("module_name", .scalar "LinkConfig")]
  let inner' : List (String × Tree) :=
    [("module_name", .scalar "LinkConfig"), ("note", .mapping []), ("size", .scalar "1*5")]
  have hinner :
      (chainCatalog .single).Similar (.variant family) (.mapping inner) (.mapping inner') :=
    .variant rfl (.named rfl fun _ _ _ _ _ =>
      similarFields_of_perm (by decide) (by decide) (List.Perm.refl _))
  have houter : (chainCatalog .single).Similar (.variant family)
      (.mapping [("next", .mapping inner), ("module_name", .scalar "Link"), ("size", .scalar "2"),
        ("note", .sequence [])])
      (.mapping [("colour", .scalar "red"), ("size", .scalar "2"), ("module_name", .scalar "Link"),
        ("next", .mapping inner')]) := by
    refine .variant rfl (.named rfl fun _ _ _ _ _ => .fields ?_ ?_)
    · exact List.forall_mem_cons.mpr ⟨rfl, List.forall_mem_cons.mpr ⟨rfl, nofun⟩⟩
    · refine List.forall_mem_cons.mpr ⟨?_, List.forall_mem_cons.mpr ⟨?_, nofun⟩⟩
      · rintro _ _ ⟨⟩ ⟨⟩
        exact .same
      · rintro _ _ ⟨⟩ ⟨⟩
        exact hinner
  refine ⟨family, _, _, _, rfl, rfl, houter, by rfl, ?_⟩
  rw [← materialize_similar (chainCatalog .single) .strict _ _ _ houter]
  rfl

end Catalog

end ConfigTree
