import ConfigTree.Proofs.Schema.Placement
import ConfigTree.Proofs.Schema.Root
import ConfigTree.Proofs.Schema.Typing

/-! # Names in front of fields

A record can be written with its name in front of its fields.  That form is tried only when the
mapping does not make a record as it stands, and as it stands its only key is one that the record
does not declare.  So the outcome rests on whether the record can be made from no fields at all:
`materializeRoot_named`.

The name in front changes the place of the fields.  No value depends on its place (`placeless`), if
no constructor does.
-/
namespace ConfigTree

open Schema

namespace Catalog

variable {catalog : Catalog} {coercion : IntegerCoercion}

/-- **The value of a tree is the same at every place.** -/
theorem placeless {own : Error → Prop} {declared : DeclaredType}
    (hanswers : catalog.ConstructorsAnswer own declared) (tree : Tree) {p : Path} {value : Value}
    (h : catalog.materializeAt coercion tree declared p = .ok value) (q : Path) :
    catalog.materializeAt coercion tree declared q = .ok value :=
  (alike tree declared hanswers p q).eq_ok h

/-! ### The record behind a name -/

/-- A key that is not declared changes nothing. -/
theorem gather_undeclared {name : String} {reading : Reading} {specs : List FieldSpec}
    {fields : Fields} {path : Path} (h : name ∉ specs.map FieldSpec.name) :
    gather [(name, reading)] path specs fields = gather [] path specs fields := by
  induction specs generalizing fields with
  | nil => rfl
  | cons spec rest ih =>
    rw [List.map_cons, List.mem_cons, not_or] at h
    simp [gather, h.1, ih h.2]

/-- As it stands, a mapping from an undeclared name is read like an empty one. -/
theorem materialize_undeclared {type : RecordType} {name : String} {node : Tree}
    (h : name ∉ (catalog.schema type).fields.map FieldSpec.name) :
    catalog.materialize coercion (.mapping [(name, node)]) (.record type) =
      catalog.materialize coercion (.mapping []) (.record type) := by
  simp only [materialize, materializeAt, makeRecord, fieldsOf, readings, gather_undeclared h]

/-- A record with a required field is not made from nothing. -/
theorem materialize_empty_ne_ok {type : RecordType} {spec : FieldSpec}
    (hs : spec ∈ (catalog.schema type).fields) (hr : spec.required = true) (value : Value) :
    catalog.materialize coercion (.mapping []) (.record type) ≠ .ok value := by
  intro h
  obtain ⟨fields, hfields, -⟩ := bind_eq_ok_iff.mp h
  have hopt := (exists_gather_eq_ok_iff.mp ⟨fields, hfields⟩ spec hs).2 rfl
  rw [hr] at hopt
  cases hopt

/-- Behind its name, a mapping makes the record that it makes on its own. -/
theorem materializeNamed_of_names {own : Error → Prop} {type : RecordType} {home : Namespace}
    {name : String} {entry : RegistryEntry} {inner : List (String × Tree)} {record : Value}
    (hanswers : catalog.ConstructorsAnswer own (.record type))
    (hnames : catalog.registry.Names home name entry) (hentry : entry.record = type)
    (h : catalog.materialize coercion (.mapping inner) (.record type) = .ok record) :
    catalog.materializeNamed coercion (.record type) home name inner = .ok record := by
  simp only [materializeNamed, Registry.resolve_eq_ok_iff.mpr hnames, hentry, if_true]
  exact placeless hanswers (.mapping inner) h [.key name]

/-- **A record with its name in front**, in a catalog whose constructors do not depend on the places
of their records.  If the record cannot be made from no fields, which is so if one of its fields is
required, a mapping with its name in front makes the same record as the mapping on its own.  If it
can, the record without fields is made and the mapping is passed over. -/
theorem materializeRoot_named (catalog : Catalog) (coercion : IntegerCoercion) (type : RecordType)
    (home : Namespace) (name : String) (entry : RegistryEntry) (inner : List (String × Tree))
    (record : Value) (declares : (catalog.schema type).home = some home)
    (names : catalog.registry.Names home name entry) (resolves : entry.record = type)
    (undeclared : name ∉ (catalog.schema type).fields.map FieldSpec.name)
    (portable : ∀ other, catalog.Produces (.record type) other →
      (catalog.definition other).construct.IsPortable)
    (made : catalog.materialize coercion (.mapping inner) (.record type) = .ok record) :
    ((∃ spec ∈ (catalog.schema type).fields, spec.required = true) →
        catalog.materializeRoot coercion (.mapping [(name, .mapping inner)]) (.record type) =
          .ok record) ∧
      ((∀ value, catalog.materialize coercion (.mapping []) (.record type) ≠ .ok value) →
        catalog.materializeRoot coercion (.mapping [(name, .mapping inner)]) (.record type) =
          .ok record) ∧
      (∀ value, catalog.materialize coercion (.mapping []) (.record type) = .ok value →
        catalog.materializeRoot coercion (.mapping [(name, .mapping inner)]) (.record type) =
          .ok value) := by
  have hnamed := materializeNamed_of_names (answers_of_isPortable portable) names resolves made
  have hfails : (∀ value, catalog.materialize coercion (.mapping []) (.record type) ≠ .ok value) →
      catalog.materializeRoot coercion (.mapping [(name, .mapping inner)]) (.record type) =
        .ok record := by
    -- The direct reading ignores the name, so it fails as the one of an empty mapping does.
    intro hempty
    rw [materializeRoot_eq_orNamed, materialize_undeclared undeclared]
    cases hdirect : catalog.materialize coercion (.mapping []) (.record type) with
    | ok value => exact absurd hdirect (hempty value)
    | error direct => exact orNamed_of_named (.record declares) hnamed
  refine ⟨?_, hfails, ?_⟩
  · rintro ⟨spec, hs, hr⟩
    exact hfails (materialize_empty_ne_ok hs hr)
  · intro value hvalue
    rw [materializeRoot_eq_orNamed, materialize_undeclared undeclared, hvalue, orNamed_of_ok]

/-- Records with one number, which may be left out unless `required`. -/
def pointCatalog (required : Bool) : Catalog :=
  let point : RecordType := ⟨"points", "PointConfig"⟩
  { definition := fun _ =>
      { schema := ⟨"PointConfig", some ⟨"points"⟩, [⟨"x", .int, required, none⟩]⟩
        construct := .ofGetters [("x", ⟨.primitive (.integer .signed64), .holds (.int 0)⟩)]
        leaf := none }
    registry := Registry.registerRecord [] ⟨"points"⟩ point }

/-- The number behind the name is taken. -/
theorem materializeRoot_named_required :
    ∃ (type : RecordType) (home : Namespace) (entry : RegistryEntry) (record : Value),
      record = .record none type [("x", .int 5)] ∧
      ((pointCatalog true).schema type).home = some home ∧
      (pointCatalog true).registry.Names home "Point" entry ∧ entry.record = type ∧
      "Point" ∉ ((pointCatalog true).schema type).fields.map FieldSpec.name ∧
      (∀ other, (pointCatalog true).Produces (.record type) other →
        ((pointCatalog true).definition other).construct.IsPortable) ∧
      (pointCatalog true).materialize .strict (.mapping [("x", .scalar "5")]) (.record type) =
        .ok record ∧
      (pointCatalog true).materializeRoot .strict
        (.mapping [("Point", .mapping [("x", .scalar "5")])]) (.record type) = .ok record := by
  let type : RecordType := ⟨"points", "PointConfig"⟩
  let entry : RegistryEntry := ⟨"PointConfig", type, []⟩
  have hnames : (pointCatalog true).registry.Names ⟨"points"⟩ "Point" entry :=
    Or.inr ⟨by decide, by decide⟩
  have hmade : (pointCatalog true).materialize .strict (.mapping [("x", .scalar "5")])
      (.record type) = .ok (.record none type [("x", .int 5)]) := by rfl
  have hportable : ∀ other, (pointCatalog true).Produces (.record type) other →
      ((pointCatalog true).definition other).construct.IsPortable :=
    fun _ _ => (Constructor.failsByGetters_ofGetters _).isPortable
  exact ⟨type, ⟨"points"⟩, entry, _, rfl, rfl, hnames, rfl, by decide, hportable, hmade,
    (materializeRoot_named _ _ type _ "Point" entry _ _ rfl hnames rfl (by decide) hportable
      hmade).1 ⟨⟨"x", .int, true, none⟩, by decide, rfl⟩⟩

/-- Records with one number that are made at the root only: their constructor asks where they
stand. -/
def rootedCatalog : Catalog :=
  { pointCatalog true with
    definition := fun _ =>
      { schema := ⟨"PointConfig", some ⟨"points"⟩, [⟨"x", .int, true, none⟩]⟩
        construct := fun fields =>
          if fields.place = "" then .ok fields.values else .error (fields.missing "x")
        leaf := none } }

/-- Where no field is required, what stands behind the name is lost.  And a constructor that depends
on the place of its record can refuse behind the name what it takes at the root. -/
theorem materializeRoot_named_dropped :
    ∃ (type : RecordType) (home : Namespace) (entry : RegistryEntry) (record : Value),
      entry.record = type ∧
      (((pointCatalog false).schema type).home = some home ∧
        (pointCatalog false).registry.Names home "Point" entry ∧
        "Point" ∉ ((pointCatalog false).schema type).fields.map FieldSpec.name ∧
        (pointCatalog false).materialize .strict (.mapping [("x", .scalar "5")])
          (.record type) = .ok record ∧
        (pointCatalog false).materializeRoot .strict
          (.mapping [("Point", .mapping [("x", .scalar "5")])]) (.record type) ≠ .ok record) ∧
      (rootedCatalog.schema type).home = some home ∧
      rootedCatalog.registry.Names home "Point" entry ∧
      "Point" ∉ (rootedCatalog.schema type).fields.map FieldSpec.name ∧
      rootedCatalog.materialize .strict (.mapping [("x", .scalar "5")]) (.record type) =
        .ok record ∧
      rootedCatalog.materializeRoot .strict
        (.mapping [("Point", .mapping [("x", .scalar "5")])]) (.record type) ≠ .ok record := by
  let type : RecordType := ⟨"points", "PointConfig"⟩
  have hdropped : (pointCatalog false).materializeRoot .strict
      (.mapping [("Point", .mapping [("x", .scalar "5")])]) (.record type) =
        .ok (.record none type [("x", .int 0)]) := by rfl
  obtain ⟨cause, hrefused⟩ : ∃ cause, rootedCatalog.materializeRoot .strict
      (.mapping [("Point", .mapping [("x", .scalar "5")])]) (.record type) = .error cause :=
    ⟨_, by rfl⟩
  refine ⟨type, ⟨"points"⟩, ⟨"PointConfig", type, []⟩, .record none type [("x", .int 5)], rfl,
    ⟨rfl, Or.inr ⟨by decide, by decide⟩, by decide, by rfl, ?_⟩,
    rfl, Or.inr ⟨by decide, by decide⟩, by decide, by rfl, ?_⟩
  · rw [hdropped]
    simp
  · rw [hrefused]
    simp

end Catalog

end ConfigTree
