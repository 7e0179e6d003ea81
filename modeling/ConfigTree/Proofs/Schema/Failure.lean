import ConfigTree.Proofs.Schema.Agreement
import ConfigTree.Proofs.Schema.Constructor
import ConfigTree.Proofs.Tree.Validity

/-! # First failures

`Catalog.Fails` says what the first failure of a tree at a declared type is: a cause, and the way
from the tree to the node that it is about.  First means in the order of the schema in a record, of
the index in a sequence and of the entries in a map: what stands before the failing part succeeds on
its own.  The relation knows nothing of places; its ways lead to nodes of the tree (`Fails.leads`).
-/
namespace ConfigTree

open Schema

/-! ### First failures -/

/-- Does the type take nodes of this kind? -/
def DeclaredType.takes : DeclaredType → Kind → Bool
  | .list element, .sequence =>
    element.isPrimitive || (DeclaredType.list element).memberList?.isSome
  | .map key value, .mapping => key.isScalar && value.isPrimitive
  | .record _, .mapping => true
  | .variant family, .mapping => family.kind = .single
  | declared, .scalar => declared.isScalar
  | _, _ => false

theorem DeclaredType.memberList?_of_isPrimitive {declared : DeclaredType}
    (hp : declared.isPrimitive = true) : declared.memberList? = none := by
  unfold memberList?
  split
  · cases hp
  · rfl

namespace Catalog

section Relation

variable (catalog : Catalog) (coercion : IntegerCoercion)

/-- The tree has a value at the type. -/
def Succeeds (tree : Tree) (declared : DeclaredType) : Prop :=
  ∃ value, catalog.materialize coercion tree declared = .ok value

/-- The tree is a mapping that makes a member of the family. -/
def MakesMember (family : Family) (tree : Tree) : Prop :=
  ∃ entries value, tree = .mapping entries ∧
    catalog.makeVariant family entries (catalog.readings coercion entries) [] = .ok value

/-- The field succeeds if the mapping has it, and it is not required if the mapping has it not. -/
def Settled (entries : List (String × Tree)) (spec : FieldSpec) : Prop :=
  (∀ child, Entries.get? entries spec.name = some child →
      catalog.Succeeds coercion child spec.declared) ∧
    (Entries.get? entries spec.name = none → spec.required = false)

mutual
/-- **The first failure of a tree at a declared type**: its cause and the way to its place. -/
inductive Fails : Tree → DeclaredType → Cause → Path → Prop where
  | shape {tree : Tree} {declared : DeclaredType} :
      declared.takes tree.kind = false →
      Fails tree declared (.unsupportedConversion tree declared) []
  | text {text : String} {declared : DeclaredType} {cause : Cause} :
      readScalar? coercion text declared = some (.error cause) →
      Fails (.scalar text) declared cause []
  /-- In a list, the first item that fails. -/
  | item {before after : List Tree} {item : Tree} {element : DeclaredType} {cause : Cause}
      {way : Path} :
      element.isPrimitive = true →
      (∀ earlier ∈ before, catalog.Succeeds coercion earlier element) →
      Fails item element cause way →
      Fails (.sequence (before ++ item :: after)) (.list element) cause
        (.index before.length :: way)
  /-- In a map, the first entry that fails, in its key -/
  | key {before after : List (String × Tree)} {name : String} {node : Tree}
      {key value : DeclaredType} {cause : Cause} {way : Path} :
      key.isScalar = true → value.isPrimitive = true →
      (∀ earlier ∈ before, catalog.Succeeds coercion (.scalar earlier.1) key ∧
        catalog.Succeeds coercion earlier.2 value) →
      Fails (.scalar name) key cause way →
      Fails (.mapping (before ++ (name, node) :: after)) (.map key value) cause (.key name :: way)
  /-- or else behind it. -/
  | entry {before after : List (String × Tree)} {name : String} {node : Tree}
      {key value : DeclaredType} {cause : Cause} {way : Path} :
      key.isScalar = true → value.isPrimitive = true →
      (∀ earlier ∈ before, catalog.Succeeds coercion (.scalar earlier.1) key ∧
        catalog.Succeeds coercion earlier.2 value) →
      catalog.Succeeds coercion (.scalar name) key → Fails node value cause way →
      Fails (.mapping (before ++ (name, node) :: after)) (.map key value) cause (.key name :: way)
  | record {entries : List (String × Tree)} {type : RecordType} {cause : Cause} {way : Path} :
      RecordFails type type entries cause way →
      Fails (.mapping entries) (.record type) cause way
  | variant {entries : List (String × Tree)} {family : Family} {cause : Cause} {way : Path} :
      family.kind = .single → MemberFails family entries cause way →
      Fails (.mapping entries) (.variant family) cause way
  /-- In a list of members, the first item that is no mapping or makes no member. -/
  | element {before after : List Tree} {item : Tree} {family : Family} :
      family.kind = .multi → (∀ earlier ∈ before, catalog.MakesMember coercion family earlier) →
      item.kind ≠ .mapping →
      Fails (.sequence (before ++ item :: after)) (.list (.variant family))
        (.elementNotMapping before.length family item.kind) [.index before.length]
  | member {before after : List Tree} {entries : List (String × Tree)} {family : Family}
      {cause : Cause} {way : Path} :
      family.kind = .multi → (∀ earlier ∈ before, catalog.MakesMember coercion family earlier) →
      MemberFails family entries cause way →
      Fails (.sequence (before ++ .mapping entries :: after)) (.list (.variant family)) cause
        (.index before.length :: way)

/-- The first failure of a mapping as the fields of `owner`, from which `made` is made. -/
inductive RecordFails : RecordType → RecordType → List (String × Tree) → Cause → Path → Prop where
  /-- The first declared field that fails -/
  | field {owner made : RecordType} {entries : List (String × Tree)}
      {before after : List FieldSpec} {spec : FieldSpec} {child : Tree} {cause : Cause}
      {way : Path} :
      (catalog.schema owner).fields = before ++ spec :: after →
      (∀ earlier ∈ before, catalog.Settled coercion entries earlier) →
      Entries.get? entries spec.name = some child → Fails child spec.declared cause way →
      RecordFails owner made entries cause (.key spec.name :: way)
  /-- or is not there -/
  | missing {owner made : RecordType} {entries : List (String × Tree)}
      {before after : List FieldSpec} {spec : FieldSpec} :
      (catalog.schema owner).fields = before ++ spec :: after →
      (∀ earlier ∈ before, catalog.Settled coercion entries earlier) →
      Entries.get? entries spec.name = none → spec.required = true →
      RecordFails owner made entries (.missingField spec.name (catalog.schema owner).name) []
  /-- and if there is none, what the constructor refuses. -/
  | refused {owner made : RecordType} {entries : List (String × Tree)} {fields : Fields}
      {cause : Cause} {way : Path} :
      catalog.fieldsOf owner (catalog.readings coercion entries) [] = .ok fields →
      (catalog.definition made).construct.Refuses (catalog.schema owner).name fields.values cause
        way →
      RecordFails owner made entries cause way

/-- The first failure of a mapping as a member of a family. -/
inductive MemberFails : Family → List (String × Tree) → Cause → Path → Prop where
  | unnamed {family : Family} {entries : List (String × Tree)} :
      Entries.get? entries moduleNameKey = none →
      MemberFails family entries (.missingModuleName family) []
  | name {family : Family} {entries : List (String × Tree)} {node : Tree} :
      Entries.get? entries moduleNameKey = some node → node.kind ≠ .scalar →
      MemberFails family entries (.unsupportedConversion node .str) [.key moduleNameKey]
  | unknown {family : Family} {entries : List (String × Tree)} {name : String} :
      Entries.get? entries moduleNameKey = some (.scalar name) →
      (∀ entry, ¬catalog.registry.Names family.home name entry) →
      MemberFails family entries (.unknownModule name family.home) []
  | foreign {family : Family} {entries : List (String × Tree)} {name : String}
      {entry : RegistryEntry} :
      Entries.get? entries moduleNameKey = some (.scalar name) →
      catalog.registry.Names family.home name entry → entry.made? family = none →
      MemberFails family entries (.notAVariant entry.name family.home (.variant family)) []
  | record {family : Family} {entries : List (String × Tree)} {name : String}
      {entry : RegistryEntry} {type : RecordType} {cause : Cause} {way : Path} :
      Entries.get? entries moduleNameKey = some (.scalar name) →
      catalog.registry.Names family.home name entry → entry.made? family = some type →
      RecordFails entry.record type (Entries.erase entries moduleNameKey) cause way →
      MemberFails family entries cause way
end

end Relation

variable {catalog : Catalog} {coercion : IntegerCoercion}

/-! ### Where the way leads -/

/-- Fields are gathered under keys of the mapping only. -/
theorem mem_keys_of_gather {entries : Entries String Reading} {place : Path}
    {specs : List FieldSpec} {fields result : Fields}
    (h : gather entries place specs fields = .ok result) :
    ∀ name ∈ Entries.keys result.values,
      name ∈ Entries.keys fields.values ∨ name ∈ Entries.keys entries := by
  induction specs generalizing fields with
  | nil =>
    cases h
    exact fun name hname => .inl hname
  | cons spec rest ih =>
    intro name hname
    unfold gather at h
    split at h
    · next reading hget =>
      obtain ⟨value, -, h⟩ := bind_eq_ok_iff.mp h
      rcases ih h name hname with hm | hm
      · obtain ⟨entry, hentry, rfl⟩ := List.mem_map.mp hm
        rcases Entries.mem_of_mem_insert hentry with rfl | hentry
        · exact .inr (List.mem_map_of_mem (Entries.mem_of_get? hget))
        · exact .inl (List.mem_map_of_mem hentry)
      · exact .inr hm
    · split at h
      · cases h
      · exact ih h name hname

theorem at?_item {before after : List Tree} {item : Tree} {way : Path} :
    (Tree.sequence (before ++ item :: after)).at? (.index before.length :: way) = item.at? way := by
  simp [Tree.child?, Segment.asIndex?]

theorem at?_entry {entries : List (String × Tree)} {name : String} {child : Tree} {way : Path}
    (hget : Entries.get? entries name = some child) :
    (Tree.mapping entries).at? (.key name :: way) = child.at? way := by
  simp [Tree.child?, Segment.asKey, hget]

/-- What is found without an entry is found with it. -/
theorem at?_of_erase {entries : List (String × Tree)} {key : String} {way : Path} {node : Tree}
    (hnodup : Entries.NodupKeys entries) (hway : way ≠ [])
    (h : (Tree.mapping (Entries.erase entries key)).at? way = some node) :
    (Tree.mapping entries).at? way = some node := by
  cases way with
  | nil => exact absurd rfl hway
  | cons segment rest =>
    rw [Tree.at?_cons, Tree.child?, Entries.get?_erase hnodup] at h
    rw [Tree.at?_cons, Tree.child?]
    split at h
    · cases h
    · exact h

/-- The way leads to a node of the tree. -/
def Leads (tree : Tree) (way : Path) : Prop := (tree.at? way).isSome = true

theorem leads_nil (tree : Tree) : Leads tree [] := by
  rw [Leads, Tree.at?_nil]
  rfl

theorem leads_item {before after : List Tree} {item : Tree} {way : Path} (h : Leads item way) :
    Leads (.sequence (before ++ item :: after)) (.index before.length :: way) := by
  rwa [Leads, at?_item]

theorem leads_entry {entries : List (String × Tree)} {name : String} {child : Tree} {way : Path}
    (hget : Entries.get? entries name = some child) (h : Leads child way) :
    Leads (.mapping entries) (.key name :: way) := by
  rwa [Leads, at?_entry hget]

theorem leads_of_mem {entries : List (String × Tree)} {name : String} {child : Tree} {way : Path}
    (hvalid : (Tree.mapping entries).Valid) (hmem : (name, child) ∈ entries)
    (h : child.Valid → Leads child way) : Leads (.mapping entries) (.key name :: way) :=
  leads_entry ((Entries.get?_eq_some_iff hvalid.1).mpr hmem)
    (h (Tree.validEntries_iff.mp hvalid.2 _ hmem))

theorem leads_key {entries : List (String × Tree)} {name : String}
    (h : name ∈ Entries.keys entries) : Leads (.mapping entries) [.key name] := by
  cases hget : Entries.get? entries name with
  | none => exact absurd h (Entries.get?_eq_none_iff.mp hget)
  | some child => exact leads_entry hget (leads_nil child)

theorem leads_of_erase {entries : List (String × Tree)} {key : String} {way : Path}
    (hnodup : Entries.NodupKeys entries) (h : Leads (.mapping (Entries.erase entries key)) way) :
    Leads (.mapping entries) way := by
  by_cases hway : way = []
  · rw [hway]
    exact leads_nil _
  · obtain ⟨node, hnode⟩ := Option.isSome_iff_exists.mp h
    rw [Leads, at?_of_erase hnodup hway hnode]
    rfl

theorem eq_nil_of_leads_scalar {text : String} {way : Path} (h : Leads (.scalar text) way) :
    way = [] := by
  cases way with
  | nil => rfl
  | cons segment rest => cases h

theorem valid_erase {entries : List (String × Tree)} (key : String)
    (h : (Tree.mapping entries).Valid) : (Tree.mapping (Entries.erase entries key)).Valid :=
  ⟨h.1.erase key, Tree.validEntries_iff.mpr fun entry hentry =>
    Tree.validEntries_iff.mp h.2 entry (Entries.mem_of_mem_erase hentry)⟩

mutual
/-- **The way of a failure leads to a node.** -/
theorem Fails.leads {tree : Tree} {declared : DeclaredType} {cause : Cause} {way : Path} :
    catalog.Fails coercion tree declared cause way → tree.Valid → Leads tree way
  | .shape _, _ => leads_nil _
  | .text _, _ => leads_nil _
  | .item _ _ hfails, hvalid =>
    leads_item (hfails.leads (Tree.validItems_iff.mp hvalid _ (by simp)))
  | .key _ _ _ hfails, _ => by
    -- What fails is the text of the key itself, which has no parts.
    rw [eq_nil_of_leads_scalar (hfails.leads trivial)]
    exact leads_key (List.mem_map_of_mem (List.mem_append_right _ (List.mem_cons_self ..)))
  | .entry _ _ _ _ hfails, hvalid =>
    leads_of_mem hvalid (List.mem_append_right _ (List.mem_cons_self ..)) hfails.leads
  | .record hfails, hvalid => hfails.leads hvalid
  | .variant _ hfails, hvalid => hfails.leads hvalid
  | .element _ _ _, _ => leads_item (leads_nil _)
  | .member _ _ hfails, hvalid =>
    leads_item (hfails.leads (Tree.validItems_iff.mp hvalid _ (by simp)))

theorem RecordFails.leads {owner made : RecordType} {entries : List (String × Tree)}
    {cause : Cause} {way : Path} :
    catalog.RecordFails coercion owner made entries cause way → (Tree.mapping entries).Valid →
      Leads (.mapping entries) way
  | .field _ _ hget hfails, hvalid =>
    leads_of_mem hvalid (Entries.mem_of_get? hget) hfails.leads
  | .missing _ _ _ _, _ => leads_nil _
  | .refused _ (.missing _), _ => leads_nil _
  | .refused hfields (.mismatch hname _), _ => by
    rcases mem_keys_of_gather hfields _ hname with hm | hm
    · cases hm
    · rw [readings_eq_mapValues, Entries.keys_mapValues] at hm
      exact leads_key hm

theorem MemberFails.leads {family : Family} {entries : List (String × Tree)}
    {cause : Cause} {way : Path} :
    catalog.MemberFails coercion family entries cause way → (Tree.mapping entries).Valid →
      Leads (.mapping entries) way
  | .unnamed _, _ => leads_nil _
  | .name hget _, _ => leads_entry hget (leads_nil _)
  | .unknown _ _, _ => leads_nil _
  | .foreign _ _ _, _ => leads_nil _
  | .record _ _ _ hfails, hvalid => leads_of_erase hvalid.1 (hfails.leads (valid_erase _ hvalid))
end

end Catalog

end ConfigTree
