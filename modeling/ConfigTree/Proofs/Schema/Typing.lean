import ConfigTree.Proofs.Schema.Gathering
import Mathlib.Data.List.Forall2

/-! # The typing of trees

`Catalog.Typed` says which value a tree has at a declared type, one constructor for each way in
which a type is written; it knows nothing of the order in which a tree is worked through and of
errors.  Two more judgements belong to it: `Member` relates a mapping to the member of a family that
it names, and `Holds` relates the entries of a mapping to the values of the fields that a record is
made from.

Constructors are told the place of their record, so a tree has its value at a place.  Places make a
difference to records only: `Typed.at_place`.

**Materialization computes exactly this relation** (`materialize_eq_ok_iff`), provided that the
records in reach of the type declare each of their fields once.
-/
namespace ConfigTree

/-! ### What the relation is made of -/

/-- No field is declared twice. -/
def Schema.DistinctFields (schema : Schema) : Prop := (schema.fields.map FieldSpec.name).Nodup

/-- What a name stands for in a namespace: the entry of that name, and if there is none, the entry
of the name with `Config` behind it. -/
def Registry.Names (registry : Registry) (home : Namespace) (name : String)
    (entry : RegistryEntry) : Prop :=
  Entries.get? registry (home, name) = some entry ∨
    Entries.get? registry (home, name) = none ∧
      Entries.get? registry (home, name ++ "Config") = some entry

theorem Registry.lookup?_eq_some_iff {registry : Registry} {home : Namespace} {name : String}
    {entry : RegistryEntry} :
    registry.lookup? home name = some entry ↔ registry.Names home name entry := by
  simp [lookup?, Names, optionalSuffix, Option.or_eq_some_iff]

theorem Registry.resolve_eq_ok_iff {registry : Registry} {home : Namespace} {name : String}
    {entry : RegistryEntry} :
    registry.resolve home name = .ok entry ↔ registry.Names home name entry := by
  rw [← lookup?_eq_some_iff, resolve]
  rcases registry.lookup? home name with _ | other <;> simp

theorem Registry.resolve_eq_error_iff {registry : Registry} {home : Namespace} {name : String}
    {cause : Schema.Cause} :
    registry.resolve home name = .error cause ↔
      (∀ entry, ¬ registry.Names home name entry) ∧ cause = .unknownModule name home := by
  simp only [← lookup?_eq_some_iff, resolve]
  rcases registry.lookup? home name with _ | other <;> simp [eq_comm]

theorem DeclaredType.memberList?_eq_some_iff {declared : DeclaredType} {family : Family} :
    declared.memberList? = some family ↔
      declared = .list (.variant family) ∧ family.kind = .multi := by
  unfold memberList?
  split
  · simp only [Option.ite_none_right_eq_some, Option.some.injEq, DeclaredType.list.injEq,
      DeclaredType.variant.injEq]
    constructor
    · rintro ⟨h, rfl⟩
      exact ⟨rfl, h⟩
    · rintro ⟨rfl, h⟩
      exact ⟨h, rfl⟩
  · next h => exact iff_of_false nofun fun ⟨he, _⟩ => h _ he

namespace Catalog

open Schema

/-- The record types in reach of a declared type: through the fields of records and through the
entries of families. -/
inductive Uses (catalog : Catalog) : DeclaredType → RecordType → Prop where
  | record (type : RecordType) : Uses catalog (.record type) type
  | list {element : DeclaredType} {type : RecordType} :
      Uses catalog element type → Uses catalog (.list element) type
  | entry {family : Family} {name : String} {entry : RegistryEntry} :
      Entries.get? catalog.registry (family.home, name) = some entry →
      (entry.made? family).isSome = true → Uses catalog (.variant family) entry.record
  | field {declared : DeclaredType} {owner type : RecordType} {spec : FieldSpec} :
      Uses catalog declared owner → spec ∈ (catalog.schema owner).fields →
      Uses catalog spec.declared type → Uses catalog declared type

/-- The record types that are made in reach of a declared type: its records, the members of its
families, and what is made for the fields of the records in reach. -/
inductive Produces (catalog : Catalog) : DeclaredType → RecordType → Prop where
  | record (type : RecordType) : Produces catalog (.record type) type
  | list {element : DeclaredType} {type : RecordType} :
      Produces catalog element type → Produces catalog (.list element) type
  | entry {family : Family} {name : String} {entry : RegistryEntry} {type : RecordType} :
      Entries.get? catalog.registry (family.home, name) = some entry →
      entry.made? family = some type → Produces catalog (.variant family) type
  | field {declared : DeclaredType} {owner type : RecordType} {spec : FieldSpec} :
      Uses catalog declared owner → spec ∈ (catalog.schema owner).fields →
      Produces catalog spec.declared type → Produces catalog declared type

theorem uses_of_names {catalog : Catalog} {family : Family} {name : String}
    {entry : RegistryEntry} (h : catalog.registry.Names family.home name entry)
    (hm : (entry.made? family).isSome = true) :
    catalog.Uses (.variant family) entry.record := by
  rcases h with h | ⟨-, h⟩
  · exact .entry h hm
  · exact .entry h hm

theorem produces_of_names {catalog : Catalog} {family : Family} {name : String}
    {entry : RegistryEntry} {type : RecordType} (h : catalog.registry.Names family.home name entry)
    (hm : entry.made? family = some type) : catalog.Produces (.variant family) type := by
  rcases h with h | ⟨-, h⟩
  · exact .entry h hm
  · exact .entry h hm

/-- At this place, the constructor of `made` makes these contents of the values that a record of
`owner` has. -/
def Constructs (catalog : Catalog) (owner made : RecordType) (place : Path)
    (values : Entries String Value) (held : List (String × Value)) : Prop :=
  (catalog.definition made).construct ⟨(catalog.schema owner).name, place.dotted, values⟩ = .ok held

section Relation

variable (catalog : Catalog) (coercion : IntegerCoercion)

mutual
/-- **The value of a tree at a declared type**, where the tree stands at this place. -/
inductive Typed : Path → Tree → DeclaredType → Value → Prop where
  /-- A leaf of a scalar type has the value that its text is read as. -/
  | scalar {place : Path} {text : String} {declared : DeclaredType} {value : Value} :
      readScalar? coercion text declared = some (.ok value) →
      Typed place (.scalar text) declared value
  /-- A list of a primitive type has the values of the items, one for each and in their order. -/
  | list {place : Path} {items : List Tree} {element : DeclaredType} {values : List Value} :
      element.isPrimitive = true → items.length = values.length →
      (∀ item index value, ((item, index), value) ∈ items.zipIdx.zip values →
        Typed (place ++ [.index index]) item element value) →
      Typed place (.sequence items) (.list element) (.list values)
  /-- A map has the values of the keys and of what stands behind them, in the order of the tree. -/
  | map {place : Path} {entries : List (String × Tree)} {key value : DeclaredType}
      {pairs : List (Value × Value)} :
      key.isScalar = true → value.isPrimitive = true → entries.length = pairs.length →
      (∀ entry pair, (entry, pair) ∈ entries.zip pairs →
        Typed (place ++ [.key entry.1]) (.scalar entry.1) key pair.1) →
      (∀ entry pair, (entry, pair) ∈ entries.zip pairs →
        Typed (place ++ [.key entry.1]) entry.2 value pair.2) →
      Typed place (.mapping entries) (.map key value) (.map pairs)
  /-- A record is what its constructor makes of its fields. -/
  | record {place : Path} {entries : List (String × Tree)} {type : RecordType}
      {values : Entries String Value} {held : List (String × Value)} :
      Holds place (catalog.schema type) entries values →
      catalog.Constructs type type place values held →
      Typed place (.mapping entries) (.record type) (.record none type held)
  | variant {place : Path} {tree : Tree} {family : Family} {value : Value} :
      family.kind = .single → Member place family tree value →
      Typed place tree (.variant family) value
  /-- A list of members of a family has a member for each item, in their order. -/
  | variants {place : Path} {items : List Tree} {family : Family} {values : List Value} :
      family.kind = .multi → items.length = values.length →
      (∀ item index value, ((item, index), value) ∈ items.zipIdx.zip values →
        Member (place ++ [.index index]) family item value) →
      Typed place (.sequence items) (.list (.variant family)) (.list values)

/-- **The member of a family that a mapping names**: a record that is registered for the family,
made from what the mapping holds besides the name. -/
inductive Member : Path → Family → Tree → Value → Prop where
  | named {place : Path} {family : Family} {entries : List (String × Tree)} {name : String}
      {entry : RegistryEntry} {type : RecordType} {values : Entries String Value}
      {held : List (String × Value)} :
      Entries.get? entries moduleNameKey = some (.scalar name) →
      catalog.registry.Names family.home name entry → entry.made? family = some type →
      Holds place (catalog.schema entry.record) (Entries.erase entries moduleNameKey) values →
      catalog.Constructs entry.record type place values held →
      Member place family (.mapping entries) (.record (some family) type held)

/-- **The values of the fields of a record**: exactly for the declared fields that the mapping has,
in the order of their declarations and among them all required ones, and for each of them the value
of what stands behind it. -/
inductive Holds : Path → Schema → List (String × Tree) → Entries String Value → Prop where
  | fields {place : Path} {schema : Schema} {entries : List (String × Tree)}
      {values : Entries String Value} :
      Entries.keys values = (schema.fields.map FieldSpec.name).filter (Entries.contains entries) →
      (∀ spec ∈ schema.fields, spec.required = true → Entries.contains entries spec.name = true) →
      (∀ spec ∈ schema.fields, ∀ child value, Entries.get? entries spec.name = some child →
        Entries.get? values spec.name = some value →
        Typed (place ++ [.key spec.name]) child spec.declared value) →
      Holds place schema entries values
end

end Relation

/-! ### Conversion -/

variable {catalog : Catalog} {coercion : IntegerCoercion} {place : Path}

theorem typed_scalar_iff {text : String} {declared : DeclaredType} {value : Value} :
    catalog.Typed coercion place (.scalar text) declared value ↔
      readScalar? coercion text declared = some (.ok value) := by
  constructor
  · intro h
    cases h with
    | scalar read => exact read
    | variant _ member => cases member
  · exact .scalar

theorem convert_scalar_eq_ok_iff {declared : DeclaredType} {text : String} {path : Path}
    {value : Value} :
    convert coercion declared (.scalar text) path = .ok value ↔
      catalog.Typed coercion place (.scalar text) declared value := by
  rw [typed_scalar_iff]
  cases hread : readScalar? coercion text declared with
  | none => cases declared <;> simp [convert, hread]
  | some outcome => cases outcome <;> cases declared <;> simp [convert, hread]

theorem convertItems_eq_ok_iff {item : Conversion} {path : Path} {index : Nat} {items : List Tree}
    {values : List Value} {R : Tree → Value → Prop}
    (h : ∀ tree path value, item tree path = .ok value ↔ R tree value) :
    convertItems item path index items = .ok values ↔ List.Forall₂ R items values := by
  induction items generalizing index values with
  | nil => cases values <;> simp [convertItems]
  | cons first rest ih =>
    simp only [convertItems, bind_eq_ok_iff, h, ih, pure, Except.pure, Except.ok.injEq,
      List.forall₂_cons_left_iff]
    constructor
    · rintro ⟨value, hv, more, hm, rfl⟩
      exact ⟨value, more, hv, hm, rfl⟩
    · rintro ⟨value, more, hv, hm, rfl⟩
      exact ⟨value, hv, more, hm, rfl⟩

theorem convertEntries_eq_ok_iff {key value : Conversion} {path : Path}
    {entries : List (String × Tree)} {pairs : List (Value × Value)} :
    convertEntries key value path entries = .ok pairs ↔
      List.Forall₂ (fun entry pair =>
        key (.scalar entry.1) (path ++ [.key entry.1]) = .ok pair.1 ∧
          value entry.2 (path ++ [.key entry.1]) = .ok pair.2) entries pairs := by
  induction entries generalizing pairs with
  | nil => cases pairs <;> simp [convertEntries]
  | cons first rest ih =>
    simp only [convertEntries, bind_eq_ok_iff, ih, pure, Except.pure, Except.ok.injEq,
      List.forall₂_cons_left_iff]
    constructor
    · rintro ⟨k, hk, v, hv, more, hm, rfl⟩
      exact ⟨(k, v), more, ⟨hk, hv⟩, hm, rfl⟩
    · rintro ⟨⟨k, v⟩, more, ⟨hk, hv⟩, hm, rfl⟩
      exact ⟨k, hk, v, hv, more, hm, rfl⟩

/-- **Values of primitive types are the same at all places.** -/
theorem Typed.at_place {declared : DeclaredType} (hp : declared.isPrimitive = true) {tree : Tree}
    {value : Value} {place : Path} (h : catalog.Typed coercion place tree declared value)
    (other : Path) : catalog.Typed coercion other tree declared value := by
  induction declared generalizing tree value place other with
  | list element ih =>
    cases h with
    | scalar hread => exact .scalar hread
    | list he hlen hitems =>
      exact .list he hlen fun item index value h => ih he (hitems item index value h) _
    | variants _ _ _ => cases hp
  | map key element ihk ihv =>
    cases h with
    | scalar hread => exact .scalar hread
    | map hk hv hlen hkeys hvalues =>
      exact .map hk hv hlen
        (fun entry pair h => ihk (DeclaredType.isPrimitive_of_isScalar hk) (hkeys entry pair h) _)
        fun entry pair h => ihv hv (hvalues entry pair h) _
  | record type => cases hp
  | variant family => cases hp
  | _ =>
    cases h with
    | scalar hread => exact .scalar hread

/-- What is said of items with their indices, and not of these, is said of the items. -/
theorem forall₂_zipIdx_iff {α β : Type} {R : α → β → Prop} {as : List α} {bs : List β} (n : Nat) :
    List.Forall₂ (fun item b => R item.1 b) (as.zipIdx n) bs ↔ List.Forall₂ R as bs := by
  rw [← List.forall₂_map_left_iff, List.zipIdx_map_fst]

theorem typed_list_iff {items : List Tree} {element : DeclaredType} {value : Value}
    (hp : element.isPrimitive = true) :
    catalog.Typed coercion place (.sequence items) (.list element) value ↔
      ∃ values, List.Forall₂ (catalog.Typed coercion place · element ·) items values ∧
        .list values = value := by
  constructor
  · intro h
    cases h with
    | list _ hlen htyped =>
      refine ⟨_, (forall₂_zipIdx_iff 0).mp (List.forall₂_iff_zip.mpr ⟨by simpa, ?_⟩), rfl⟩
      exact fun h => (htyped _ _ _ h).at_place hp place
    | variants _ _ _ => cases hp
  · rintro ⟨values, h, rfl⟩
    obtain ⟨hlen, htyped⟩ := List.forall₂_iff_zip.mp ((forall₂_zipIdx_iff 0).mpr h)
    exact .list hp (by simpa using hlen) fun _ _ _ h => (htyped h).at_place hp _

theorem typed_map_iff {entries : List (String × Tree)} {key element : DeclaredType} {value : Value}
    (hk : key.isScalar = true) (hv : element.isPrimitive = true) :
    catalog.Typed coercion place (.mapping entries) (.map key element) value ↔
      ∃ pairs, List.Forall₂ (fun entry pair =>
        catalog.Typed coercion place (.scalar entry.1) key pair.1 ∧
          catalog.Typed coercion place entry.2 element pair.2) entries pairs ∧
        .map pairs = value := by
  have hkey : key.isPrimitive = true := DeclaredType.isPrimitive_of_isScalar hk
  constructor
  · intro h
    cases h with
    | map _ _ hlen hkeys hvalues =>
      refine ⟨_, List.forall₂_iff_zip.mpr ⟨hlen, fun h => ?_⟩, rfl⟩
      exact ⟨(hkeys _ _ h).at_place hkey place, (hvalues _ _ h).at_place hv place⟩
  · rintro ⟨pairs, h, rfl⟩
    obtain ⟨hlen, htyped⟩ := List.forall₂_iff_zip.mp h
    exact .map hk hv hlen (fun _ _ h => (htyped h).1.at_place hkey _)
      fun _ _ h => (htyped h).2.at_place hv _

theorem typed_variants_iff {items : List Tree} {family : Family} {value : Value}
    (hmulti : family.kind = .multi) :
    catalog.Typed coercion place (.sequence items) (.list (.variant family)) value ↔
      ∃ values, List.Forall₂
          (fun item value => catalog.Member coercion (place ++ [.index item.2]) family item.1 value)
          items.zipIdx values ∧
        .list values = value := by
  constructor
  · intro h
    cases h with
    | list hp _ _ => cases hp
    | variants _ hlen hmembers =>
      exact ⟨_, List.forall₂_iff_zip.mpr ⟨by simpa, fun h => hmembers _ _ _ h⟩, rfl⟩
  · rintro ⟨values, h, rfl⟩
    obtain ⟨hlen, hmembers⟩ := List.forall₂_iff_zip.mp h
    exact .variants hmulti (by simpa using hlen) fun _ _ _ h => hmembers h

/-- Conversion computes the typing at primitive types. -/
theorem convert_eq_ok_iff {declared : DeclaredType} (hp : declared.isPrimitive = true)
    (tree : Tree) (path : Path) (value : Value) :
    convert coercion declared tree path = .ok value ↔
      catalog.Typed coercion place tree declared value := by
  induction declared generalizing tree path value with
  | list element ih =>
    have he : element.isPrimitive = true := hp
    cases tree with
    | scalar text => exact convert_scalar_eq_ok_iff
    | sequence items =>
      rw [typed_list_iff he, convert, if_pos he, map_eq_ok_iff]
      simp only [convertItems_eq_ok_iff (ih he)]
    | mapping entries => exact iff_of_false (by simp [convert]) (by rintro ⟨⟩)
  | map key element ihk ihv =>
    obtain ⟨hk, he⟩ : key.isScalar = true ∧ element.isPrimitive = true := by
      simpa [DeclaredType.isPrimitive] using hp
    cases tree with
    | scalar text => exact convert_scalar_eq_ok_iff
    | sequence items => exact iff_of_false (by simp [convert]) (by rintro ⟨⟩)
    | mapping entries =>
      rw [typed_map_iff hk he, convert, if_pos (by rw [hk, he]; rfl), map_eq_ok_iff]
      simp only [convertEntries_eq_ok_iff, ihk (DeclaredType.isPrimitive_of_isScalar hk), ihv he]
  | record type => cases hp
  | variant family => cases hp
  | _ =>
    cases tree with
    | scalar text => exact convert_scalar_eq_ok_iff
    | sequence items => exact iff_of_false (by simp [convert]) (by rintro ⟨⟩)
    | mapping entries => exact iff_of_false (by simp [convert]) (by rintro ⟨⟩)

/-- No node is converted to another type. -/
theorem convert_ne_ok {declared : DeclaredType} (hp : declared.isPrimitive = false)
    (tree : Tree) (path : Path) (value : Value) :
    convert coercion declared tree path ≠ .ok value := by
  cases declared with
  | list element =>
    have he : element.isPrimitive = false := hp
    cases tree <;> simp [convert, he, readScalar?]
  | map key element =>
    have he : (key.isScalar && element.isPrimitive) = false := hp
    cases tree <;> simp [convert, he, readScalar?]
  | record type => cases tree <;> simp [convert, readScalar?]
  | variant family => cases tree <;> simp [convert, readScalar?]
  | _ => cases hp

end Catalog

end ConfigTree
