import ConfigTree.Proofs.Entries
import ConfigTree.Proofs.Schema.Typing

/-! # Materialization computes the typing

`Catalog.Agrees` says of one tree that materialization and typing agree on it, whatever the type and
the place.  Both relate a tree to its value through the same parts of the tree, so trees agree if
the trees in them do: `agrees_sequence` and `agrees_mapping`.
-/
namespace ConfigTree

namespace Catalog

open Schema

variable {catalog : Catalog} {coercion : IntegerCoercion}

/-- Every record in reach of the type declares each of its fields once. -/
def WellDeclared (catalog : Catalog) (declared : DeclaredType) : Prop :=
  ∀ type, catalog.Uses declared type → (catalog.schema type).DistinctFields

/-- Does materialization compute the typing of this tree, at all types and all places? -/
def Agrees (catalog : Catalog) (coercion : IntegerCoercion) (tree : Tree) : Prop :=
  ∀ declared, catalog.WellDeclared declared → ∀ path value,
    catalog.materializeAt coercion tree declared path = .ok value ↔
      catalog.Typed coercion path tree declared value

theorem WellDeclared.field {declared : DeclaredType} {owner : RecordType} {spec : FieldSpec}
    (h : catalog.WellDeclared declared) (hu : catalog.Uses declared owner)
    (hs : spec ∈ (catalog.schema owner).fields) : catalog.WellDeclared spec.declared :=
  fun type ht => h type (.field hu hs ht)

/-! ### Records -/

theorem readings_eq_mapValues (entries : List (String × Tree)) :
    catalog.readings coercion entries =
      Entries.mapValues (catalog.materializeAt coercion) entries := by
  induction entries with
  | nil => rfl
  | cons entry rest ih =>
    obtain ⟨key, node⟩ := entry
    rw [readings, ih]
    rfl

section Holds

variable {place : Path} {schema : Schema} {raw : List (String × Tree)}
  {a b values : Entries String Value}

/-- The fields that have a value are the declared ones that the mapping has. -/
theorem Holds.contains_iff (h : catalog.Holds coercion place schema raw values) (name : String) :
    Entries.contains values name = true ↔
      name ∈ schema.fields.map FieldSpec.name ∧ Entries.contains raw name = true := by
  obtain ⟨hkeys, -, -⟩ := h
  rw [Entries.contains, Option.isSome_iff_ne_none, ne_eq, Entries.get?_eq_none_iff, not_not, hkeys,
    List.mem_filter]

theorem Holds.nodupKeys (hdistinct : schema.DistinctFields)
    (h : catalog.Holds coercion place schema raw values) : Entries.NodupKeys values := by
  obtain ⟨hkeys, -, -⟩ := h
  rw [Entries.NodupKeys, hkeys]
  exact hdistinct.filter _

/-- What a mapping holds for a record is determined by the mapping, if the values of its entries
are. -/
theorem Holds.unique (hdistinct : schema.DistinctFields)
    (unique : ∀ entry ∈ raw, ∀ spec ∈ schema.fields, ∀ v w,
      catalog.Typed coercion (place ++ [.key spec.name]) entry.2 spec.declared v →
      catalog.Typed coercion (place ++ [.key spec.name]) entry.2 spec.declared w → v = w)
    (ha : catalog.Holds coercion place schema raw a)
    (hb : catalog.Holds coercion place schema raw b) : a = b := by
  have hcontains : ∀ name, Entries.contains a name = Entries.contains b name :=
    fun name => Bool.eq_iff_iff.mpr ((ha.contains_iff name).trans (hb.contains_iff name).symm)
  have hdeclared := ha.contains_iff
  have hnodup := ha.nodupKeys hdistinct
  obtain ⟨hkeysa, -, hta⟩ := ha
  obtain ⟨hkeysb, -, htb⟩ := hb
  refine Entries.eq_of_get?_eq (hkeysa.trans hkeysb.symm) hnodup fun name => ?_
  have hthere := hcontains name
  cases hv : Entries.get? a name with
  | none =>
    rw [Entries.contains, Entries.contains, hv] at hthere
    exact (Option.not_isSome_iff_eq_none.mp (by simp [← hthere])).symm
  | some v =>
    obtain ⟨hname, hchild⟩ := (hdeclared name).mp (by simp [Entries.contains, hv])
    obtain ⟨spec, hs, rfl⟩ := List.mem_map.mp hname
    obtain ⟨child, hc⟩ := Option.isSome_iff_exists.mp hchild
    rw [Entries.contains, Entries.contains, hv] at hthere
    obtain ⟨w, hw⟩ := Option.isSome_iff_exists.mp hthere.symm
    rw [hw, unique _ (Entries.mem_of_get? hc) spec hs v w (hta spec hs child v hc hv)
      (htb spec hs child w hc hw)]

end Holds

section Record

variable {owner : RecordType} {raw : List (String × Tree)} {path : Path}

theorem get?_readings (name : String) :
    Entries.get? (catalog.readings coercion raw) name =
      (Entries.get? raw name).map (catalog.materializeAt coercion) := by
  rw [readings_eq_mapValues, Entries.get?_mapValues]

theorem contains_readings (name : String) :
    Entries.contains (catalog.readings coercion raw) name = Entries.contains raw name := by
  rw [Entries.contains, get?_readings, Option.isSome_map, Entries.contains]

/-- What is gathered from a mapping is what the mapping holds. -/
theorem holds_of_fieldsOf {fields : Fields} (hdistinct : (catalog.schema owner).DistinctFields)
    (agrees : ∀ entry ∈ raw, ∀ spec ∈ (catalog.schema owner).fields, ∀ path value,
      catalog.materializeAt coercion entry.2 spec.declared path = .ok value ↔
        catalog.Typed coercion path entry.2 spec.declared value)
    (h : catalog.fieldsOf owner (catalog.readings coercion raw) path = .ok fields) :
    catalog.Holds coercion path (catalog.schema owner) raw fields.values := by
  obtain ⟨-, hspecs⟩ := gather_spec hdistinct h
  have hexists := exists_gather_eq_ok_iff.mp ⟨fields, h⟩
  refine .fields ?_ (fun spec hs hreq => ?_) (fun spec hs child v hc hv => ?_)
  · rw [keys_fieldsOf hdistinct h]
    exact List.filter_congr fun name _ => contains_readings name
  · cases hc : Entries.get? raw spec.name with
    | some child => simp [Entries.contains, hc]
    | none =>
      have hopt := (hexists spec hs).2 (by rw [get?_readings, hc]; rfl)
      rw [hopt] at hreq
      cases hreq
  · obtain ⟨w, hw, hget⟩ := (hspecs spec hs).1 _ (by rw [get?_readings, hc]; rfl)
    rw [hget] at hv
    cases hv
    exact (agrees _ (Entries.mem_of_get? hc) spec hs _ _).mp hw

/-- A mapping that holds the values of the fields is gathered from. -/
theorem exists_fieldsOf_of_holds {values : Entries String Value}
    (agrees : ∀ entry ∈ raw, ∀ spec ∈ (catalog.schema owner).fields, ∀ path value,
      catalog.materializeAt coercion entry.2 spec.declared path = .ok value ↔
        catalog.Typed coercion path entry.2 spec.declared value)
    (h : catalog.Holds coercion path (catalog.schema owner) raw values) :
    ∃ fields, catalog.fieldsOf owner (catalog.readings coercion raw) path = .ok fields := by
  have hcontains := h.contains_iff
  obtain ⟨-, hrequired, htyped⟩ := h
  refine exists_gather_eq_ok_iff.mpr fun spec hs => ⟨fun reading hr => ?_, fun hn => ?_⟩
  · rw [get?_readings] at hr
    obtain ⟨child, hc, rfl⟩ := Option.map_eq_some_iff.mp hr
    obtain ⟨v, hv⟩ := Option.isSome_iff_exists.mp ((hcontains spec.name).mpr
      ⟨List.mem_map_of_mem hs, by simp [Entries.contains, hc]⟩)
    exact ⟨v, (agrees _ (Entries.mem_of_get? hc) spec hs _ _).mpr (htyped spec hs child v hc hv)⟩
  · rw [get?_readings, Option.map_eq_none_iff] at hn
    by_contra hreq
    have hthere := hrequired spec hs (by simpa using hreq)
    simp [Entries.contains, hn] at hthere

/-- The entries of a mapping make a record exactly if they hold the values of its fields and its
constructor makes it of these. -/
theorem made_iff (path : Path) (family : Option Family) (type : RecordType) (value : Value)
    (hdistinct : (catalog.schema owner).DistinctFields)
    (agrees : ∀ entry ∈ raw, ∀ spec ∈ (catalog.schema owner).fields, ∀ path value,
      catalog.materializeAt coercion entry.2 spec.declared path = .ok value ↔
        catalog.Typed coercion path entry.2 spec.declared value) :
    (∃ fields, catalog.fieldsOf owner (catalog.readings coercion raw) path = .ok fields ∧
        catalog.make family type fields path = .ok value) ↔
      ∃ values held, catalog.Holds coercion path (catalog.schema owner) raw values ∧
        catalog.Constructs owner type path values held ∧ value = .record family type held := by
  have hgathered : ∀ {fields},
      catalog.fieldsOf owner (catalog.readings coercion raw) path = .ok fields →
      catalog.Holds coercion path (catalog.schema owner) raw fields.values ∧
        ∀ held, (catalog.definition type).construct fields = .ok held ↔
          catalog.Constructs owner type path fields.values held := by
    intro fields h
    refine ⟨holds_of_fieldsOf hdistinct agrees h, fun held => ?_⟩
    rw [Constructs, ← eq_of_fieldsOf h]
  constructor
  · rintro ⟨fields, hfields, hmake⟩
    obtain ⟨hholds, hconstructs⟩ := hgathered hfields
    obtain ⟨held, hheld, hvalue⟩ := make_eq_ok_iff.mp hmake
    exact ⟨fields.values, held, hholds, (hconstructs held).mp hheld, hvalue⟩
  · rintro ⟨values, held, hholds, hheld, rfl⟩
    obtain ⟨fields, hfields⟩ := exists_fieldsOf_of_holds agrees hholds
    obtain ⟨hsame, hconstructs⟩ := hgathered hfields
    have hunique : ∀ entry ∈ raw, ∀ spec ∈ (catalog.schema owner).fields, ∀ v w,
        catalog.Typed coercion (path ++ [.key spec.name]) entry.2 spec.declared v →
        catalog.Typed coercion (path ++ [.key spec.name]) entry.2 spec.declared w → v = w := by
      intro entry he spec hs v w hv hw
      have hv := (agrees entry he spec hs _ v).mpr hv
      have hw := (agrees entry he spec hs _ w).mpr hw
      exact Except.ok.inj (hv.symm.trans hw)
    obtain rfl := hholds.unique hdistinct hunique hsame
    exact ⟨fields, hfields, make_eq_ok_iff.mpr ⟨held, (hconstructs held).mpr hheld, rfl⟩⟩

end Record

/-! ### Members of families -/

theorem erase_readings (entries : List (String × Tree)) (key : String) :
    Entries.erase (catalog.readings coercion entries) key =
      catalog.readings coercion (Entries.erase entries key) := by
  simp only [readings_eq_mapValues, Entries.erase_mapValues]

theorem makeVariant_eq_ok_iff {family : Family} {raw : List (String × Tree)} {path : Path}
    {value : Value} (hwell : catalog.WellDeclared (.variant family))
    (agrees : ∀ entry ∈ raw, catalog.Agrees coercion entry.2) :
    catalog.makeVariant family raw (catalog.readings coercion raw) path = .ok value ↔
      catalog.Member coercion path family (.mapping raw) value := by
  have hmade : ∀ {name entry type},
      catalog.registry.Names family.home name entry → entry.made? family = some type →
      (catalog.makeMember entry family
          (Entries.erase (catalog.readings coercion raw) moduleNameKey) path = .ok value ↔
        ∃ values held,
          catalog.Holds coercion path (catalog.schema entry.record)
            (Entries.erase raw moduleNameKey) values ∧
          catalog.Constructs entry.record type path values held ∧
          value = .record (some family) type held) := by
    intro name entry type hentry htype
    have huses : catalog.Uses (.variant family) entry.record :=
      uses_of_names hentry (by rw [htype]; rfl)
    rw [← made_iff path (some family) type value (hwell _ huses) fun e he spec hs =>
      agrees e (Entries.mem_of_mem_erase he) _ (hwell.field huses hs), erase_readings]
    simp only [makeMember, htype, bind_eq_ok_iff]
  constructor
  · intro h
    unfold makeVariant at h
    split at h
    · next name hname =>
      cases hlookup : catalog.registry.lookup? family.home name with
      | none => simp [Registry.resolve, hlookup] at h
      | some entry =>
        simp only [Registry.resolve, hlookup] at h
        have hentry := Registry.lookup?_eq_some_iff.mp hlookup
        cases htype : entry.made? family with
        | none => simp [makeMember, htype] at h
        | some type =>
          obtain ⟨values, held, hholds, hheld, rfl⟩ := (hmade hentry htype).mp h
          exact .named hname hentry htype hholds hheld
    · cases h
    · cases h
  · rintro (⟨hname, hentry, htype, hholds, hheld⟩)
    have hresolve := Registry.lookup?_eq_some_iff.mpr hentry
    simp only [makeVariant, hname, Registry.resolve, hresolve]
    exact (hmade hentry htype).mpr ⟨_, _, hholds, hheld, rfl⟩

theorem members_eq_ok_iff {family : Family} {path : Path} {index : Nat} {items : List Tree}
    {values : List Value} (hwell : catalog.WellDeclared (.variant family))
    (agrees : ∀ item ∈ items, ∀ entry ∈ item.entries?.getD [], catalog.Agrees coercion entry.2) :
    catalog.members coercion family path index items = .ok values ↔
      List.Forall₂
        (fun item value => catalog.Member coercion (path ++ [.index item.2]) family item.1 value)
        (items.zipIdx index) values := by
  induction items generalizing index values with
  | nil => cases values <;> simp [members]
  | cons item rest ih =>
    obtain ⟨hitem, hrest⟩ := List.forall_mem_cons.mp agrees
    rw [List.zipIdx_cons, List.forall₂_cons_left_iff]
    cases item with
    | scalar text =>
      simp only [members, reduceCtorEq, false_iff]
      rintro ⟨_, _, ⟨⟩, _⟩
    | sequence items =>
      simp only [members, reduceCtorEq, false_iff]
      rintro ⟨_, _, ⟨⟩, _⟩
    | mapping entries =>
      have hitem : ∀ entry ∈ entries, catalog.Agrees coercion entry.2 := hitem
      simp only [members, bind_eq_ok_iff, makeVariant_eq_ok_iff hwell hitem, ih hrest, pure,
        Except.pure, Except.ok.injEq]
      constructor
      · rintro ⟨value, hv, more, hm, rfl⟩
        exact ⟨value, more, hv, hm, rfl⟩
      · rintro ⟨value, more, hv, hm, rfl⟩
        exact ⟨value, hv, more, hm, rfl⟩

/-! ### Whole trees -/

theorem agrees_sequence {items : List Tree}
    (agrees : ∀ item ∈ items, ∀ entry ∈ item.entries?.getD [], catalog.Agrees coercion entry.2) :
    catalog.Agrees coercion (.sequence items) := by
  intro declared hwell path value
  rw [materializeAt]
  split
  · next family hlist =>
    obtain ⟨rfl, hmulti⟩ := DeclaredType.memberList?_eq_some_iff.mp hlist
    have hmembers : catalog.WellDeclared (.variant family) := fun type h => hwell type (.list h)
    simp only [typed_variants_iff hmulti, map_eq_ok_iff, members_eq_ok_iff hmembers agrees]
  · next hlist =>
    cases hp : declared.isPrimitive with
    | true => exact convert_eq_ok_iff hp _ _ _
    | false =>
      refine iff_of_false (convert_ne_ok hp _ _ _) fun h => ?_
      cases h with
      | list he _ _ => exact absurd he (by simpa [DeclaredType.isPrimitive] using hp)
      | variant _ hm => cases hm
      | variants hmulti _ _ => simp [DeclaredType.memberList?, hmulti] at hlist

theorem agrees_mapping {entries : List (String × Tree)}
    (agrees : ∀ entry ∈ entries, catalog.Agrees coercion entry.2) :
    catalog.Agrees coercion (.mapping entries) := by
  intro declared hwell path value
  -- Records and variants are dispatched; every other type is left to the conversion.
  have hconvert : (∀ type, declared ≠ .record type) → (∀ family, declared ≠ .variant family) →
      (convert coercion declared (.mapping entries) path = .ok value ↔
        catalog.Typed coercion path (.mapping entries) declared value) := by
    intro hr hv
    cases hp : declared.isPrimitive with
    | true => exact convert_eq_ok_iff hp _ _ _
    | false =>
      refine iff_of_false (convert_ne_ok hp _ _ _) fun h => ?_
      cases h with
      | map hk he _ _ _ => simp [DeclaredType.isPrimitive, hk, he] at hp
      | record _ _ => exact hr _ rfl
      | variant _ _ => exact hv _ rfl
  cases declared with
  | record type =>
    have hmade := made_iff path none type value
      (hwell type (.record type)) fun entry he spec hs =>
        agrees entry he _ (hwell.field (.record type) hs)
    simp only [materializeAt, makeRecord, bind_eq_ok_iff, hmade]
    constructor
    · rintro ⟨values, held, hholds, hheld, rfl⟩
      exact .record hholds hheld
    · rintro (⟨⟩ | ⟨⟩ | ⟨⟩ | ⟨hholds, hheld⟩)
      exact ⟨_, _, hholds, hheld, rfl⟩
  | variant family =>
    rw [materializeAt]
    split
    · next hsingle =>
      rw [makeVariant_eq_ok_iff hwell agrees]
      refine ⟨fun h => .variant hsingle h, fun h => ?_⟩
      cases h with
      | variant _ hm => exact hm
    · next hmulti =>
      refine iff_of_false (by simp) fun h => ?_
      cases h with
      | variant hsingle _ => exact hmulti hsingle
  | _ => exact hconvert (by simp) (by simp)

mutual
theorem agrees : (tree : Tree) → catalog.Agrees coercion tree
  | .scalar _ => fun _ _ _ _ => convert_scalar_eq_ok_iff
  | .sequence items => agrees_sequence (agrees_items items)
  | .mapping entries => agrees_mapping (agrees_entries entries)

theorem agrees_items : (items : List Tree) →
    ∀ item ∈ items, ∀ entry ∈ item.entries?.getD [], catalog.Agrees coercion entry.2
  | [] => by simp
  | .scalar _ :: rest => List.forall_mem_cons.mpr ⟨by simp [Tree.entries?], agrees_items rest⟩
  | .sequence _ :: rest => List.forall_mem_cons.mpr ⟨by simp [Tree.entries?], agrees_items rest⟩
  | .mapping entries :: rest =>
    List.forall_mem_cons.mpr ⟨agrees_entries entries, agrees_items rest⟩

theorem agrees_entries : (entries : List (String × Tree)) →
    ∀ entry ∈ entries, catalog.Agrees coercion entry.2
  | [] => by simp
  | (_, node) :: rest => List.forall_mem_cons.mpr ⟨agrees node, agrees_entries rest⟩
end

/-- **Materialization computes the typing of trees**, whatever the constructors of the records are:
it answers a value exactly if that is the value of the tree at the declared type. -/
theorem materialize_eq_ok_iff (catalog : Catalog) (coercion : IntegerCoercion)
    (declared : DeclaredType)
    (distinct : ∀ type, catalog.Uses declared type → (catalog.schema type).DistinctFields)
    (raw : Tree) (value : Value) :
    catalog.materialize coercion raw declared = .ok value ↔
      catalog.Typed coercion [] raw declared value :=
  agrees raw declared distinct [] value

/-- Links, the members of a family, of which one at a time is used or a list. -/
def linkFamily (kind : FamilyKind) : Family := ⟨"chain", "Link", ⟨"chain"⟩, kind⟩

/-- Links of a chain: a number, and what follows, which is one link or a list of them. -/
def chainCatalog (kind : FamilyKind) : Catalog :=
  let family := linkFamily kind
  let following : Request := match kind with
    | .single => .variant family
    | .multi => .variants family
  { definition := fun _ =>
      { schema := ⟨"LinkConfig", none,
          [⟨"size", .int, true, some "How many\nitems"⟩,
            ⟨"next", following.declared, false, some "Further links"⟩]⟩
        construct := .ofGetters [("size", ⟨.primitive (.integer .signed64), .isMissing⟩),
          ("next", ⟨following, .isSkipped⟩)]
        leaf := none }
    registry := Registry.registerVariant [] family ⟨"chain", "LinkConfig"⟩ }

/-- A chain of two links, the inner one given before the size of the outer one. -/
theorem materialize_eq_ok_iff_chain :
    ∃ (family : Family) (link : RecordType) (raw : Tree) (value : Value),
      (∀ type, (chainCatalog .single).Uses (.variant family) type →
        ((chainCatalog .single).schema type).DistinctFields) ∧
      raw = .mapping [("next", .mapping [("size", .scalar "1*5"),
          ("module_name", .scalar "LinkConfig")]),
        ("module_name", .scalar "Link"), ("size", .scalar "2"), ("note", .sequence [])] ∧
      value = .record (some family) link [("size", .int 2),
        ("next", .record (some family) link [("size", .int 5)])] ∧
      (chainCatalog .single).materialize .strict raw (.variant family) = .ok value ∧
      (chainCatalog .single).Typed .strict [] raw (.variant family) value := by
  let family := linkFamily .single
  have hdistinct : ∀ type, (chainCatalog .single).Uses (.variant family) type →
      ((chainCatalog .single).schema type).DistinctFields := fun _ _ => by
    show ["size", "next"].Nodup
    decide
  refine ⟨family, ⟨"chain", "LinkConfig"⟩, _, _, hdistinct, rfl, rfl, by rfl,
    (materialize_eq_ok_iff (chainCatalog .single) .strict _ hdistinct _ _).mp (by rfl)⟩

end Catalog

end ConfigTree
