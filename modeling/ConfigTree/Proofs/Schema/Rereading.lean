import ConfigTree.Proofs.Schema.Regular
import ConfigTree.Proofs.Schema.Root
import ConfigTree.Schema.Document

/-! # Written records are read back

What a record is written as is a tree of its own type: each field stands under its name, and a
member of a family has the name of its type in front, which leads back to this type.  So in a
regular catalog **the tree that is written for what is held has this value and no other**
(`Held.answers_write_iff`), unless the least integer is somewhere in it: then it has none.
-/
namespace ConfigTree

open Schema

/-- A name stands for one entry only. -/
theorem Registry.names_unique {registry : Registry} {home : Namespace} {name : String}
    {entry other : RegistryEntry} (h : registry.Names home name entry)
    (ho : registry.Names home name other) : entry = other :=
  Option.some.inj
    ((Registry.lookup?_eq_some_iff.mpr h).symm.trans (Registry.lookup?_eq_some_iff.mpr ho))

namespace Catalog

variable {catalog : Catalog} {getters : RecordType → Entries String Getter}
  {coercion : IntegerCoercion} {place : Path}

/-! ### Written records -/

namespace Regular

variable (hc : catalog.Regular getters) {type : RecordType} {fields : Entries String Value}
include hc

theorem nodupKeys_of_keys_eq
    (hkeys : Entries.keys fields = Entries.keys (getters type)) :
    Entries.NodupKeys fields := by
  rw [Entries.NodupKeys, hkeys]
  exact hc.nodupKeys_getters type

theorem recordTree_eq
    (hkeys : Entries.keys fields = Entries.keys (getters type)) :
    catalog.recordTree type (catalog.writeFields fields) =
      .mapping (Entries.mapValues catalog.write fields) := by
  have hnodup : Entries.NodupKeys (Entries.mapValues catalog.write fields) := by
    rw [Entries.NodupKeys, Entries.keys_mapValues]
    exact hc.nodupKeys_of_keys_eq hkeys
  unfold recordTree
  rw [(hc.definition type).leaf, writeFields_eq]
  exact congrArg Tree.mapping (Entries.ofList_eq_self hnodup)

/-- A record on its own is written as the mapping of its fields. -/
theorem write_record
    (hkeys : Entries.keys fields = Entries.keys (getters type)) :
    catalog.write (.record none type fields) =
      .mapping (Entries.mapValues catalog.write fields) := by
  rw [write, hc.recordTree_eq hkeys]

/-- A member of a family has its name in front. -/
theorem write_member (family : Family)
    (hkeys : Entries.keys fields = Entries.keys (getters type)) :
    catalog.write (.record (some family) type fields) =
      .mapping ((moduleNameKey, .scalar type.name) ::
        Entries.mapValues catalog.write fields) := by
  have hname : ∀ entry ∈ Entries.mapValues catalog.write fields, entry.1 ≠ moduleNameKey := by
    intro entry he hname
    have hmem : moduleNameKey ∈ Entries.keys (Entries.mapValues catalog.write fields) :=
      hname ▸ List.mem_map_of_mem he
    rw [Entries.keys_mapValues, hkeys] at hmem
    exact (List.nodup_cons.mp (hc.definition type).names).1 hmem
  have hfilter : (Entries.mapValues catalog.write fields).filter
      (fun entry => entry.1 != moduleNameKey) = Entries.mapValues catalog.write fields :=
    List.filter_eq_self.mpr fun entry he => by simpa using hname entry he
  rw [write, hc.recordTree_eq hkeys, memberTree]
  simp only [Tree.entries?, Option.getD_some, hfilter]

end Regular

/-! ### What is written has one value -/

/-- What a tree is read as for a request, where a member of a family is read as such even if the
family is used as a list. -/
def Answers (catalog : Catalog) (coercion : IntegerCoercion) (place : Path) :
    Request → Tree → Value → Prop
  | .variant family, tree, value => catalog.Member coercion place family tree value
  | request, tree, value => catalog.Typed coercion place tree request.declared value

theorem typed_iff_answers {request : Request} (hp : request.IsPlain = true) {tree : Tree}
    {value : Value} :
    catalog.Typed coercion place tree request.declared value ↔
      catalog.Answers coercion place request tree value := by
  cases request with
  | variant family =>
    have hsingle : family.kind = .single := by simpa [Request.IsPlain] using hp
    refine ⟨fun h => ?_, .variant hsingle⟩
    cases h with
    | scalar hread => cases hread
    | variant _ hmember => exact hmember
  | _ => exact Iff.rfl

section Record

variable (hc : catalog.Regular getters) {type : RecordType} {fields : Entries String Value}
  (hkeys : Entries.keys fields = Entries.keys (getters type))
  (hheld : ∀ name getter value, (name, getter) ∈ getters type →
    (name, value) ∈ fields → catalog.Held getters getter.request value)
  (answers : ∀ name getter value, (name, getter) ∈ getters type →
    (name, value) ∈ fields → ∀ {place : Path} {other : Value},
      catalog.Answers coercion place getter.request (catalog.write value) other ↔
        IntegerRange.signed64.least ∉ value.integers ∧ other = value)
include hc hkeys hheld answers

/-- From the written fields of a record this record is made and no other, if each field has its
value and no other. -/
theorem made_write_iff (place : Path) {family : Option Family} {other : Value} :
    (∃ values held,
        catalog.Holds coercion place (catalog.schema type) (Entries.mapValues catalog.write fields)
          values ∧
        catalog.Constructs type type place values held ∧ other = .record family type held) ↔
      IntegerRange.signed64.least ∉ (Value.record family type fields).integers ∧
        other = .record family type fields := by
  have hnodup : Entries.NodupKeys fields := hc.nodupKeys_of_keys_eq hkeys
  have hwritten : ∀ {name value}, (name, value) ∈ fields →
      Entries.get? (Entries.mapValues catalog.write fields) name = some (catalog.write value) := by
    intro name value hv
    rw [Entries.get?_mapValues, (Entries.get?_eq_some_iff hnodup).mpr hv, Option.map_some]
  have htyped : ∀ {name getter value}, (name, getter) ∈ getters type →
      (name, value) ∈ fields → ∀ {place v}, catalog.Typed coercion place (catalog.write value)
        getter.request.declared v ↔ IntegerRange.signed64.least ∉ value.integers ∧ v = value := by
    intro name getter value hg hv place v
    rw [typed_iff_answers ((hc.definition type).plain _ hg), answers name getter value hg hv]
  constructor
  · rintro ⟨values, held, hholds, hconstructs, rfl⟩
    have hvalues := hholds.nodupKeys (hc.wellDeclared (.record type) type (.record type))
    have hcontains := hholds.contains_iff
    obtain ⟨-, -, hreads⟩ := hholds
    have hgiven : ∀ {name getter value}, (name, getter) ∈ getters type →
        (name, value) ∈ fields →
        Entries.get? values name = some value ∧ IntegerRange.signed64.least ∉ value.integers := by
      intro name getter value hg hv
      obtain ⟨spec, hs, rfl, hdeclared⟩ := hc.exists_spec hg
      obtain ⟨v, hget⟩ := Option.isSome_iff_exists.mp ((hcontains spec.name).mpr
        ⟨List.mem_map_of_mem hs, by simp [Entries.contains, hwritten hv]⟩)
      obtain ⟨hleast, rfl⟩ := (htyped hg hv).mp
        (hdeclared ▸ hreads spec hs _ v (hwritten hv) hget)
      exact ⟨hget, hleast⟩
    have hfields : catalog.Constructs type type place values fields :=
      (hc.constructs_iff hvalues).mpr ⟨hkeys, fun name getter value hg hv =>
        .given (hgiven hg hv).1 (hheld name getter value hg hv).read_self⟩
    obtain rfl : held = fields := Except.ok.inj (hconstructs.symm.trans hfields)
    refine ⟨fun hleast => ?_, rfl⟩
    obtain ⟨⟨name, value⟩, hv, hleast⟩ := Value.mem_integers_record.mp hleast
    obtain ⟨getter, hg⟩ := exists_getter_of_mem hkeys hv
    exact (hgiven hg hv).2 hleast
  · rintro ⟨hleast, rfl⟩
    have hcontains : ∀ spec ∈ (catalog.schema type).fields,
        Entries.contains (Entries.mapValues catalog.write fields) spec.name = true := by
      intro spec hs
      have hname : spec.name ∈ Entries.keys fields := by
        rw [hkeys, ← hc.fieldNames_eq]
        exact List.mem_map_of_mem hs
      obtain ⟨⟨name, value⟩, hv, rfl⟩ := List.mem_map.mp hname
      simp [Entries.contains, hwritten hv]
    refine ⟨fields, fields, .fields ?_ (fun spec hs _ => hcontains spec hs)
      (fun spec hs child value hchild hvalue => ?_), ?_, rfl⟩
    · rw [hkeys, ← hc.fieldNames_eq, List.filter_eq_self.mpr]
      exact List.forall_mem_map.mpr hcontains
    · have hv := Entries.mem_of_get? hvalue
      obtain rfl := Option.some.inj (hchild.symm.trans (hwritten hv))
      obtain ⟨getter, hg, hdeclared⟩ := hc.exists_getter hs
      rw [← hdeclared, htyped hg hv]
      exact ⟨fun h => hleast (Value.mem_integers_record.mpr ⟨_, hv, h⟩), rfl⟩
    · exact (hc.constructs_iff hnodup).mpr ⟨hkeys, fun name getter value hg hv =>
        .given ((Entries.get?_eq_some_iff hnodup).mpr hv)
          (hheld name getter value hg hv).read_self⟩

end Record

/-- **The only value of what is written** for what is held is this value, and it has one unless the
least integer is in it. -/
theorem Held.answers_write_iff (hc : catalog.Regular getters) {request : Request} {value : Value}
    (h : catalog.Held getters request value) {other : Value} :
    catalog.Answers coercion place request (catalog.write value) other ↔
      IntegerRange.signed64.least ∉ value.integers ∧ other = value := by
  induction h generalizing place other with
  | primitive hvalue => exact hvalue.typed_write_iff
  | @record type fields hkeys hheld ih =>
    rw [← made_write_iff hc hkeys hheld ih place, hc.write_record hkeys]
    constructor
    · rintro (⟨⟩ | ⟨⟩ | ⟨⟩ | ⟨hholds, hconstructs⟩)
      exact ⟨_, _, hholds, hconstructs, rfl⟩
    · rintro ⟨values, held, hholds, hconstructs, rfl⟩
      exact .record hholds hconstructs
  | @member family type fields henrolled hkeys hheld ih =>
    obtain ⟨entry, hnames, hmade, rfl⟩ := henrolled
    rw [← made_write_iff hc hkeys hheld ih place, hc.write_member family hkeys]
    have herase : Entries.erase ((moduleNameKey, Tree.scalar entry.record.name) ::
        Entries.mapValues catalog.write fields) moduleNameKey =
          Entries.mapValues catalog.write fields := if_pos rfl
    constructor
    · rintro ⟨hname, hentry, htype, hholds, hconstructs⟩
      obtain rfl : entry.record.name = _ :=
        Tree.scalar.inj (Option.some.inj ((if_pos rfl).symm.trans hname))
      obtain rfl := Registry.names_unique hnames hentry
      obtain rfl := Option.some.inj (hmade.symm.trans htype)
      rw [herase] at hholds
      exact ⟨_, _, hholds, hconstructs, rfl⟩
    · rintro ⟨values, held, hholds, hconstructs, rfl⟩
      refine .named (if_pos rfl) hnames hmade ?_ hconstructs
      rw [herase]
      exact hholds
  | @members family items hmulti _ ih =>
    show catalog.Typed coercion place (.sequence (catalog.writeItems items))
      (.list (.variant family)) other ↔ _
    have hitems : ∀ item ∈ items.zipIdx, ∀ other,
        catalog.Member coercion (place ++ [.index item.2]) family (catalog.write item.1) other ↔
          IntegerRange.signed64.least ∉ item.1.integers ∧ other = item.1 :=
      fun item hitem other => ih item.1 (List.fst_mem_of_mem_zipIdx hitem)
    have hinteger : (∀ item ∈ items.zipIdx, IntegerRange.signed64.least ∉ item.1.integers) ↔
        IntegerRange.signed64.least ∉ (Value.list items).integers := by
      have hitem : ∀ item : Value, (∃ index, (item, index) ∈ items.zipIdx) ↔ item ∈ items := by
        simp [List.mem_iff_getElem?]
      simp [Value.mem_integers_list, ← hitem]
    rw [typed_variants_iff hmulti, writeItems_eq, List.zipIdx_map, ← hinteger]
    simp only [List.forall₂_map_left_iff, Prod.map, id, forall₂_iff_eq_map hitems,
      List.zipIdx_map_fst]
    constructor
    · rintro ⟨_, ⟨hleast, rfl⟩, rfl⟩
      exact ⟨hleast, rfl⟩
    · rintro ⟨hleast, rfl⟩
      exact ⟨_, ⟨hleast, rfl⟩, rfl⟩

/-! ### Whole records -/

section Root

variable (hc : catalog.Regular getters) {type : RecordType} {record other : Value}
include hc

theorem typed_of_materializeAt {tree : Tree} {path : Path}
    (h : catalog.materializeAt coercion tree (.record type) path = .ok record) :
    catalog.Typed coercion path tree (.record type) record :=
  (agrees tree (.record type) (hc.wellDeclared _) path record).mp h

/-- A record of a whole document is that of the tree, or of the fields behind its name. -/
theorem exists_typed_of_materializeRoot {raw : Tree}
    (h : catalog.materializeRoot coercion raw (.record type) = .ok record) :
    ∃ place tree, catalog.Typed coercion place tree (.record type) record := by
  rcases materializeRoot_eq_ok_iff.mp h with hvalue | ⟨_, home, name, inner, _, _, _, hnamed⟩
  · exact ⟨[], raw, typed_of_materializeAt hc hvalue⟩
  · unfold materializeNamed at hnamed
    split at hnamed
    · cases hnamed
    · dsimp only at hnamed
      split at hnamed
      · have hvalue : catalog.materializeAt coercion (.mapping inner) (.record type)
            [.key name] = .ok record := hnamed
        exact ⟨_, .mapping inner, typed_of_materializeAt hc hvalue⟩
      · cases hnamed

theorem recordOfTree_eq_ok_iff {raw : Tree} :
    catalog.recordOfTree coercion type raw = .ok record ↔
      catalog.materializeRoot coercion raw (.record type) = .ok record := by
  have hread : ∀ {value}, catalog.materializeRoot coercion raw (.record type) = .ok value →
      rootAs (.record type) value = .ok value := by
    intro value hvalue
    obtain ⟨place, tree, ht⟩ := exists_typed_of_materializeRoot hc hvalue
    cases ht with
    | scalar hread => cases hread
    | record _ _ => simp [rootAs, Request.read, Request.unbox]
  rw [recordOfTree, bind_eq_ok_iff]
  constructor
  · rintro ⟨value, hvalue, h⟩
    rw [hread hvalue] at h
    cases h
    exact hvalue
  · exact fun h => ⟨record, h, hread h⟩

/-- **The records of trees are held.** -/
theorem held_of_recordOfTree {raw : Tree}
    (h : catalog.recordOfTree coercion type raw = .ok record) :
    catalog.Held getters (.record type) record := by
  obtain ⟨place, tree, ht⟩ := exists_typed_of_materializeRoot hc ((recordOfTree_eq_ok_iff hc).mp h)
  refine secures hc tree place (.record type) record record ht rfl ?_
  cases ht with
  | scalar hread => cases hread
  | record _ _ => simp [Request.read, Request.unbox]

theorem materialize_write_eq_ok_iff (h : catalog.Held getters (.record type) record) :
    catalog.materialize coercion (catalog.write record) (.record type) = .ok other ↔
      IntegerRange.signed64.least ∉ record.integers ∧ other = record := by
  rw [materialize, agrees _ (.record type) (hc.wellDeclared _)]
  exact h.answers_write_iff hc

/-- **A record is read back from its tree**, unless the least integer is in it. -/
theorem recordOfTree_write_of_held (h : catalog.Held getters (.record type) record)
    (hleast : IntegerRange.signed64.least ∉ record.integers) :
    catalog.recordOfTree coercion type (catalog.write record) = .ok record := by
  have hdirect : catalog.materialize coercion (catalog.write record) (.record type) = .ok record :=
    (materialize_write_eq_ok_iff hc h).mpr ⟨hleast, rfl⟩
  rw [recordOfTree_eq_ok_iff hc, materializeRoot_eq_orNamed, hdirect, orNamed_of_ok]

/-- Where a record is not taken for the name of a record with fields behind it, no other record is
read, and none if the least integer is in it. -/
theorem recordOfTree_write_iff (h : catalog.Held getters (.record type) record)
    (hroot : (catalog.schema type).home = none ∨ (getters type).length ≠ 1) :
    catalog.recordOfTree coercion type (catalog.write record) = .ok other ↔
      IntegerRange.signed64.least ∉ record.integers ∧ other = record := by
  have hdirect :
      catalog.materialize coercion (catalog.write record) (.record type) = .ok other ↔ _ :=
    materialize_write_eq_ok_iff hc h
  rw [recordOfTree_eq_ok_iff hc, ← hdirect]
  cases h with
  | @record type fields hkeys hheld =>
    -- The tree of the record is no name with a mapping behind it.
    have hnamed : ∀ home entry, catalog.TakesName (.record type) home →
        Entries.mapValues catalog.write fields ≠ [entry] := by
      rintro home entry (hhome | _) he
      rcases hroot with hnone | hmany
      · rw [hnone] at hhome
        cases hhome
      · have hlen := congrArg List.length he
        have hnames := congrArg List.length hkeys
        simp only [Entries.mapValues, Entries.keys, List.length_map, List.length_singleton]
          at hlen hnames
        exact hmany (hnames.symm.trans hlen)
    rw [hc.write_record hkeys, materializeRoot_eq_ok_iff, or_iff_left]
    rintro ⟨_, home, name, inner, _, htakes, hraw, _⟩
    exact hnamed home _ htakes (Tree.mapping.inj hraw)

end Root

end Catalog

end ConfigTree
