import ConfigTree.Proofs.Schema.Agreement
import ConfigTree.Proofs.Schema.Holding
import ConfigTree.Proofs.Tree.Validity

/-! # Records that are held

A catalog is `Regular` if its records are made as they are declared: each constructor takes its
fields by getters, and these fields are those of the schema, in their types; a field that is left
out has a default that it could have been given as well; and the name of a record type leads back to
this type in each of its families.

`Catalog.Held` says of a record, of a member of a family and of a list of members that all their
fields are held as the constructor asks for them.  In a regular catalog **what a tree is read as is
held** (`secures`), down to the members of families at any depth.
-/
namespace ConfigTree

open Schema

/-- Are values for this request written and read back as they are?  Whether a family is used one
member at a time or as a list is up to the family. -/
def Request.IsPlain : Request → Bool
  | .primitive type => type.IsPlain
  | .record _ => true
  | .variant family => family.kind = .single
  | .variants family => family.kind = .multi

namespace Catalog

/-- The name of the record type stands for it in the family. -/
def Enrolled (catalog : Catalog) (family : Family) (type : RecordType) : Prop :=
  ∃ entry, catalog.registry.Names family.home type.name entry ∧
    entry.made? family = some type ∧ entry.record = type

/-- **The values that are held**, of whatever is asked for.  A record has the fields of its
constructor, and each of them holds what its getter asks for. -/
inductive Held (catalog : Catalog) (getters : RecordType → Entries String Getter) :
    Request → Value → Prop where
  | primitive {type : FieldType} {value : Value} :
      type.Holds value → Held catalog getters (.primitive type) value
  | record {type : RecordType} {fields : Entries String Value} :
      Entries.keys fields = Entries.keys (getters type) →
      (∀ name getter value, (name, getter) ∈ getters type →
        (name, value) ∈ fields → Held catalog getters getter.request value) →
      Held catalog getters (.record type) (.record none type fields)
  | member {family : Family} {type : RecordType} {fields : Entries String Value} :
      catalog.Enrolled family type →
      Entries.keys fields = Entries.keys (getters type) →
      (∀ name getter value, (name, getter) ∈ getters type →
        (name, value) ∈ fields → Held catalog getters getter.request value) →
      Held catalog getters (.variant family) (.record (some family) type fields)
  | members {family : Family} {items : List Value} :
      family.kind = .multi → (∀ item ∈ items, Held catalog getters (.variant family) item) →
      Held catalog getters (.variants family) (.list items)

/-- **The record is made as it is declared**, by these getters, in a catalog of which it is part. -/
structure RegularDefinition (catalog : Catalog) (getters : RecordType → Entries String Getter)
    (definition : RecordDefinition) (own : Entries String Getter) : Prop where
  leaf : definition.leaf = none
  construct : definition.construct = .ofGetters own
  declared : definition.schema.fields.map (fun spec => (spec.name, spec.declared)) =
    own.map fun getter => (getter.1, getter.2.request.declared)
  /-- No name is used twice, and none is that of the key for names of members. -/
  names : (moduleNameKey :: Entries.keys own).Nodup
  plain : ∀ getter ∈ own, getter.2.request.IsPlain = true
  kept : ∀ getter ∈ own, getter.2.absence ≠ .isSkipped
  defaults : ∀ getter ∈ own, ∀ value, getter.2.absence = .holds value →
    catalog.Held getters getter.2.request value

/-- **Records are made as they are declared, and their names lead back to them.** -/
structure Regular (catalog : Catalog) (getters : RecordType → Entries String Getter) : Prop where
  definition : ∀ type,
    catalog.RegularDefinition getters (catalog.definition type) (getters type)
  members : ∀ family name entry type, catalog.registry.Names family.home name entry →
    entry.made? family = some type → entry.record = type ∧ catalog.Enrolled family type

variable {catalog : Catalog} {getters : RecordType → Entries String Getter}
  {coercion : IntegerCoercion}

/-! ### Fields and their declarations -/

/-- Each field of a record has its getter. -/
theorem exists_getter_of_mem {type : RecordType} {fields : Entries String Value}
    {field : String × Value}
    (hkeys : Entries.keys fields = Entries.keys (getters type))
    (h : field ∈ fields) : ∃ getter, (field.1, getter) ∈ getters type := by
  have hname : field.1 ∈ Entries.keys fields := List.mem_map_of_mem h
  rw [hkeys] at hname
  obtain ⟨⟨_, getter⟩, hg, rfl⟩ := List.mem_map.mp hname
  exact ⟨getter, hg⟩

namespace Regular

variable (hc : catalog.Regular getters)
include hc

theorem nodupKeys_getters (type : RecordType) :
    Entries.NodupKeys (getters type) :=
  (List.nodup_cons.mp (hc.definition type).names).2

theorem fieldNames_eq (type : RecordType) :
    (catalog.schema type).fields.map FieldSpec.name =
      Entries.keys (getters type) := by
  have h := congrArg (List.map Prod.fst) (hc.definition type).declared
  rwa [List.map_map, List.map_map] at h

theorem wellDeclared (declared : DeclaredType) : catalog.WellDeclared declared := by
  intro type _
  rw [DistinctFields, hc.fieldNames_eq]
  exact hc.nodupKeys_getters type

theorem exists_spec {type : RecordType} {name : String} {getter : Getter}
    (h : (name, getter) ∈ getters type) :
    ∃ spec ∈ (catalog.schema type).fields,
      spec.name = name ∧ spec.declared = getter.request.declared := by
  have hmem : (name, getter.request.declared) ∈
      (catalog.schema type).fields.map fun spec => (spec.name, spec.declared) := by
    rw [schema, (hc.definition type).declared]
    exact List.mem_map_of_mem h
  obtain ⟨spec, hs, he⟩ := List.mem_map.mp hmem
  exact ⟨spec, hs, congrArg Prod.fst he, congrArg Prod.snd he⟩

theorem exists_getter {type : RecordType} {spec : FieldSpec}
    (h : spec ∈ (catalog.schema type).fields) :
    ∃ getter, (spec.name, getter) ∈ getters type ∧
      getter.request.declared = spec.declared := by
  have hmem : (spec.name, spec.declared) ∈
      (getters type).map fun getter => (getter.1, getter.2.request.declared) := by
    rw [← (hc.definition type).declared]
    exact List.mem_map_of_mem h
  obtain ⟨⟨name, getter⟩, hg, he⟩ := List.mem_map.mp hmem
  obtain rfl : name = spec.name := congrArg Prod.fst he
  exact ⟨getter, hg, congrArg Prod.snd he⟩

/-- What a constructor makes: all its fields, each as its getter takes it. -/
theorem constructs_iff {owner type : RecordType} {place : Path} {values held : Entries String Value}
    (hnodup : Entries.NodupKeys values) :
    catalog.Constructs owner type place values held ↔
      Entries.keys held = Entries.keys (getters type) ∧
        ∀ name getter value, (name, getter) ∈ getters type →
          (name, value) ∈ held → Fields.Takes values name getter value := by
  rw [Constructs, (hc.definition type).construct]
  exact Fields.takeAll_eq_ok_iff (hc.nodupKeys_getters type) (hc.definition type).kept hnodup

end Regular

/-! ### What is read is held -/

/-- **What is held is read as itself.** -/
theorem Held.read_self {request : Request} {value : Value}
    (h : catalog.Held getters request value) : request.read value = .ok value := by
  induction h with
  | primitive hvalue => exact hvalue.read_self
  | record _ _ _ => simp [Request.read, Request.unbox]
  | member _ _ _ _ => simp [Request.read, Request.member, Request.unbox]
  | members _ _ ih =>
    have hitems := mapM_eq_ok_iff.mpr (List.forall₂_same.mpr ih)
    rw [Request.read]
    exact map_eq_ok_iff.mpr ⟨_, hitems, rfl⟩

/-- Is whatever this tree is read as held, where it is taken for what is asked for? -/
def Secures (catalog : Catalog) (getters : RecordType → Entries String Getter)
    (coercion : IntegerCoercion) (tree : Tree) : Prop :=
  ∀ place request value held, catalog.Typed coercion place tree request.declared value →
    request.IsPlain = true → request.read value = .ok held → catalog.Held getters request held

theorem secures_scalar (text : String) : catalog.Secures getters coercion (.scalar text) := by
  intro place request value held ht hp hr
  cases request with
  | primitive type => exact .primitive (FieldType.holds_of_read hp ht hr)
  | _ => cases typed_scalar_iff.mp ht

section Tree

variable (hc : catalog.Regular getters)
include hc

theorem held_of_constructs {type : RecordType} {place : Path} {entries : List (String × Tree)}
    {values held : Entries String Value}
    (secures : ∀ entry ∈ entries, catalog.Secures getters coercion entry.2)
    (hholds : catalog.Holds coercion place (catalog.schema type) entries values)
    (hm : catalog.Constructs type type place values held) :
    Entries.keys held = Entries.keys (getters type) ∧
      ∀ name getter value, (name, getter) ∈ getters type →
        (name, value) ∈ held → catalog.Held getters getter.request value := by
  have hnodup := hholds.nodupKeys (hc.wellDeclared (.record type) type (.record type))
  have hkeys := hholds.contains_iff
  obtain ⟨-, -, htyped⟩ := hholds
  obtain ⟨hnames, htakes⟩ := (hc.constructs_iff hnodup).mp hm
  refine ⟨hnames, fun name getter value hg hv => ?_⟩
  cases htakes name getter value hg hv with
  | absent _ habsence => exact (hc.definition type).defaults _ hg _ habsence
  | given hget hread =>
    obtain ⟨spec, hspec, rfl, hdeclared⟩ := hc.exists_spec hg
    obtain ⟨child, hchild⟩ := Option.isSome_iff_exists.mp
      ((hkeys spec.name).mp (by simp [Entries.contains, hget])).2
    exact secures _ (Entries.mem_of_get? hchild) _ _ _ _
      (hdeclared ▸ htyped spec hspec child _ hchild hget) ((hc.definition type).plain _ hg) hread

theorem held_of_member {place : Path} {family : Family} {entries : List (String × Tree)}
    {value : Value}
    (secures : ∀ entry ∈ entries, catalog.Secures getters coercion entry.2)
    (h : catalog.Member coercion place family (.mapping entries) value) :
    catalog.Held getters (.variant family) value := by
  obtain ⟨-, hentry, hmade, hholds, hconstructs⟩ := h
  obtain ⟨hrecord, henrolled⟩ := hc.members _ _ _ _ hentry hmade
  rw [hrecord] at hholds hconstructs
  obtain ⟨hkeys, hfields⟩ := held_of_constructs hc
    (fun entry he => secures entry (Entries.mem_of_mem_erase he)) hholds hconstructs
  exact .member henrolled hkeys hfields

theorem secures_sequence {items : List Tree}
    (secures : ∀ item ∈ items, ∀ entry ∈ item.entries?.getD [],
      catalog.Secures getters coercion entry.2) :
    catalog.Secures getters coercion (.sequence items) := by
  intro place request value held ht hp hr
  cases request with
  | primitive type => exact .primitive (FieldType.holds_of_read hp ht hr)
  | record type => cases ht
  | variant family =>
    cases ht with
    | variant _ hmember => cases hmember
  | variants family =>
    have hmulti : family.kind = .multi := by simpa [Request.IsPlain] using hp
    obtain ⟨values, hmembers, rfl⟩ := (typed_variants_iff hmulti).mp ht
    have hheld : catalog.Held getters (.variants family) (.list values) := by
      refine .members hmulti (forall_mem_of_forall₂ ?_ hmembers)
      rintro ⟨item, index⟩ hitem value hmember
      cases item with
      | mapping entries =>
        exact held_of_member hc (secures _ (List.fst_mem_of_mem_zipIdx hitem)) hmember
      | _ => cases hmember
    rw [hheld.read_self] at hr
    cases hr
    exact hheld

theorem secures_mapping {entries : List (String × Tree)}
    (secures : ∀ entry ∈ entries, catalog.Secures getters coercion entry.2) :
    catalog.Secures getters coercion (.mapping entries) := by
  intro place request value held ht hp hr
  have hheld : (∃ type, request = .primitive type) ∨ catalog.Held getters request value := by
    cases request with
    | primitive type => exact .inl ⟨type, rfl⟩
    | record type =>
      cases ht with
      | record hholds hconstructs =>
        obtain ⟨hkeys, hfields⟩ := held_of_constructs hc secures hholds hconstructs
        exact .inr (.record hkeys hfields)
    | variant family =>
      cases ht with
      | variant _ hmember => exact .inr (held_of_member hc secures hmember)
    | variants family => cases ht
  rcases hheld with ⟨type, rfl⟩ | hheld
  · exact .primitive (FieldType.holds_of_read hp ht hr)
  · rw [hheld.read_self] at hr
    cases hr
    exact hheld

/-- **What a tree is read as is held**, in a regular catalog. -/
theorem secures (tree : Tree) : catalog.Secures getters coercion tree := by
  -- The members in a sequence are mappings, of which the entries are needed.
  suffices h : catalog.Secures getters coercion tree ∧
      ∀ entry ∈ tree.entries?.getD [], catalog.Secures getters coercion entry.2 from h.1
  induction tree using Tree.induction with
  | scalar text => exact ⟨secures_scalar text, by simp [Tree.entries?]⟩
  | sequence items ih =>
    exact ⟨secures_sequence hc fun item hitem => (ih item hitem).2, by simp [Tree.entries?]⟩
  | mapping entries ih =>
    have hentries := fun entry hentry => (ih entry hentry).1
    exact ⟨secures_mapping hc hentries, hentries⟩

end Tree

end Catalog

end ConfigTree
