import ConfigTree.Proofs.Schema.Located
import ConfigTree.Proofs.Schema.Shorthand

/-! # Where materialization fails

**Materialization reports the first failure, at the end of its way** (`materializeAt_located`), if
constructors fail by their getters only.  Where the tree stands at a place in a larger one, the
place comes in front of the way.

Places are put into errors by three hands: conversion writes the path that it was given, the fields
of a record write their name behind the text of their record's place, and a constructor's error
without a place is given one afterwards.  They agree if the text of a record's place is empty at the
root only (`Path.Legible`).  At the empty key they do not (`materializeAt_unnamed`).
-/
namespace ConfigTree.Catalog

open Schema

variable {catalog : Catalog} {coercion : IntegerCoercion}

/-! ### Records -/

/-- A constructor that fails by its getters reports the one that fails, at the record or at one of
its fields. -/
theorem make_located (family : Option Family) {type : RecordType}
    (h : (catalog.definition type).construct.FailsByGetters) (record : String)
    (values : Entries String Value) :
    Located Path.Legible
      (fun place => catalog.make family type ⟨record, place.dotted, values⟩ place)
      ((catalog.definition type).construct.Refuses record values) := by
  rcases h record values with @⟨held, hmade⟩ | hrefuses | ⟨⟨⟩, _⟩
  · exact .inl ⟨.record family type held, fun place _ => by simp only [make, hmade]⟩
  · cases hrefuses with
    | missing hmissing =>
      refine .here (.missing hmissing) fun place => ?_
      simp only [make, hmissing, Fields.missing, Error.placedAt_located, ite_self]
    | @mismatch name _ hname hmismatch =>
      refine .inr ⟨_, _, .mismatch hname hmismatch, fun place hp => ?_⟩
      simp only [make, hmismatch, Fields.mismatch, hp.childName_eq]
      exact congrArg _ (Path.placedAt_textBehind _ place [.key name] none)

section Record

variable {owner : RecordType} {raw : List (String × Tree)}

/-- Gathering the rest of the fields, when the first ones are done, reports the first that fails. -/
theorem gather_located (made : RecordType) {done rest : List FieldSpec}
    (hfields : (catalog.schema owner).fields = done ++ rest)
    (hdone : ∀ earlier ∈ done, catalog.Settled coercion raw earlier)
    (hnames : ∀ spec ∈ rest, spec.name ≠ "")
    (hraw : ∀ entry ∈ raw, ∀ spec ∈ rest,
      Located Path.Legible (catalog.materializeAt coercion entry.2 spec.declared)
        (catalog.Fails coercion entry.2 spec.declared))
    (values : Entries String Value) :
    (∃ gathered, ∀ place, place.Legible →
        gather (catalog.readings coercion raw) place rest
            ⟨(catalog.schema owner).name, place.dotted, values⟩ =
          .ok ⟨(catalog.schema owner).name, place.dotted, gathered⟩) ∨
      ∃ cause way, catalog.RecordFails coercion owner made raw cause way ∧
        ∀ place, place.Legible →
          gather (catalog.readings coercion raw) place rest
              ⟨(catalog.schema owner).name, place.dotted, values⟩ =
            .error (.located cause (place ++ way).dotted) := by
  induction rest generalizing done values with
  | nil => exact .inl ⟨values, fun _ _ => rfl⟩
  | cons spec rest ih =>
    obtain ⟨hname, hnames⟩ := List.forall_mem_cons.mp hnames
    -- The fields up to this one are done if it is.
    have hnext : catalog.Settled coercion raw spec → ∀ values, _ := fun hspec values =>
      ih (List.append_cons done spec rest ▸ hfields)
        (List.forall_mem_append.mpr ⟨hdone, by simpa using hspec⟩) hnames
        (fun entry he other ho => hraw entry he other (List.mem_cons_of_mem _ ho)) values
    cases hget : Entries.get? raw spec.name with
    | some child =>
      have hreading : Entries.get? (catalog.readings coercion raw) spec.name =
          some (catalog.materializeAt coercion child) := by rw [get?_readings, hget]; rfl
      simp only [gather, hreading]
      rcases hraw _ (Entries.mem_of_get? hget) spec (List.mem_cons_self ..) with
        ⟨value, h⟩ | ⟨cause, way, hfails, h⟩
      · have hsettled : catalog.Settled coercion raw spec := by
          rw [Settled, hget]
          constructor
          · rintro _ ⟨⟩
            exact ⟨value, h [] Path.legible_nil⟩
          · rintro ⟨⟩
        have hvalue : ∀ place, catalog.materializeAt coercion child spec.declared
            (place ++ [.key spec.name]) = .ok value :=
          fun place => h _ (Path.legible_key place hname)
        simp only [hvalue]
        exact hnext hsettled (Entries.insert values spec.name value)
      · refine .inr ⟨cause, .key spec.name :: way, .field hfields hdone hget hfails,
          fun place _ => ?_⟩
        rw [h _ (Path.legible_key place hname), List.append_assoc]
        rfl
    | none =>
      have hreading : Entries.get? (catalog.readings coercion raw) spec.name = none := by
        rw [get?_readings, hget]; rfl
      simp only [gather, hreading]
      cases hreq : spec.required with
      | true =>
        refine .inr ⟨_, [], .missing hfields hdone hget hreq, fun place _ => ?_⟩
        rw [if_pos rfl, List.append_nil]
      | false =>
        have hsettled : catalog.Settled coercion raw spec := by
          rw [Settled, hget]
          constructor
          · rintro _ ⟨⟩
          · exact fun _ => hreq
        exact hnext hsettled values

/-- A mapping that is made to a record reports the first failure. -/
theorem made_located (family : Option Family) {made : RecordType}
    (hmade : (catalog.definition made).construct.FailsByGetters)
    (hnames : ∀ spec ∈ (catalog.schema owner).fields, spec.name ≠ "")
    (hraw : ∀ entry ∈ raw, ∀ spec ∈ (catalog.schema owner).fields,
      Located Path.Legible (catalog.materializeAt coercion entry.2 spec.declared)
        (catalog.Fails coercion entry.2 spec.declared)) :
    Located Path.Legible
      (fun place => do
        catalog.make family made
          (← catalog.fieldsOf owner (catalog.readings coercion raw) place) place)
      (catalog.RecordFails coercion owner made raw) := by
  rcases gather_located made (List.nil_append _).symm (by simp) hnames hraw [] with
    ⟨gathered, h⟩ | ⟨cause, way, hfails, h⟩
  · have hfields : ∀ place, place.Legible →
        catalog.fieldsOf owner (catalog.readings coercion raw) place =
          .ok ⟨(catalog.schema owner).name, place.dotted, gathered⟩ := h
    have hmake : Located _ (fun place => catalog.make family made _ place) _ :=
      make_located family hmade (catalog.schema owner).name gathered
    refine (hmake.imp (fun _ h => h) fun _ _ => .refused (hfields [] Path.legible_nil)).congr ?_
    intro place hp
    simp only [hfields place hp]
    rfl
  · have hfields : ∀ place, place.Legible →
        catalog.fieldsOf owner (catalog.readings coercion raw) place =
          .error (.located cause (place ++ way).dotted) := h
    refine .inr ⟨cause, way, hfails, fun place hp => ?_⟩
    simp only [hfields place hp]
    rfl

end Record

/-! ### Members of families -/

/-- In reach of the type, fields have names and constructors fail by their getters only. -/
structure Plain (catalog : Catalog) (declared : DeclaredType) : Prop where
  names : ∀ type, catalog.Uses declared type →
    ∀ spec ∈ (catalog.schema type).fields, spec.name ≠ ""
  getters : ∀ type, catalog.Produces declared type →
    (catalog.definition type).construct.FailsByGetters

theorem Plain.field {declared : DeclaredType} {owner : RecordType} {spec : FieldSpec}
    (h : catalog.Plain declared) (hu : catalog.Uses declared owner)
    (hs : spec ∈ (catalog.schema owner).fields) : catalog.Plain spec.declared :=
  ⟨fun type ht => h.names type (.field hu hs ht), fun type ht => h.getters type (.field hu hs ht)⟩

theorem Plain.element {element : DeclaredType} (h : catalog.Plain (.list element)) :
    catalog.Plain element :=
  ⟨fun type ht => h.names type (.list ht), fun type ht => h.getters type (.list ht)⟩

/-- Does materialization report the first failure of this tree, whatever its type and its place? -/
def Locates (catalog : Catalog) (coercion : IntegerCoercion) (tree : Tree) : Prop :=
  ∀ declared, catalog.Plain declared →
    Located Path.Legible (catalog.materializeAt coercion tree declared)
      (catalog.Fails coercion tree declared)

theorem makeVariant_located {family : Family} {raw : List (String × Tree)}
    (hplain : catalog.Plain (.variant family))
    (hraw : ∀ entry ∈ raw, catalog.Locates coercion entry.2) :
    Located Path.Legible (catalog.makeVariant family raw (catalog.readings coercion raw))
      (catalog.MemberFails coercion family raw) := by
  cases hget : Entries.get? raw moduleNameKey with
  | none => exact .here (.unnamed hget) fun place => by rw [makeVariant, hget]
  | some node =>
    cases node with
    | scalar name =>
      cases hlookup : catalog.registry.lookup? family.home name with
      | none =>
        have hunknown : ∀ entry, ¬catalog.registry.Names family.home name entry := by
          intro entry h
          rw [Registry.lookup?_eq_some_iff.mpr h] at hlookup
          cases hlookup
        exact .here (.unknown hget hunknown) fun place => by
          simp only [makeVariant, hget, Registry.resolve, hlookup]
      | some entry =>
        have hentry := Registry.lookup?_eq_some_iff.mp hlookup
        have hvariant : ∀ place, catalog.makeVariant family raw (catalog.readings coercion raw)
            place = catalog.makeMember entry family
              (catalog.readings coercion (Entries.erase raw moduleNameKey)) place := by
          intro place
          simp only [makeVariant, hget, Registry.resolve, hlookup, erase_readings]
        cases htype : entry.made? family with
        | none =>
          exact .here (.foreign hget hentry htype) fun place => by
            simp only [hvariant, makeMember, htype]
        | some type =>
          have huses : catalog.Uses (.variant family) entry.record :=
            uses_of_names hentry (by rw [htype]; rfl)
          have hrest : ∀ member ∈ Entries.erase raw moduleNameKey,
              catalog.Locates coercion member.2 := fun e he => hraw e (Entries.mem_of_mem_erase he)
          have hgetters := hplain.getters type (produces_of_names hentry htype)
          have hmade := made_located (some family) hgetters (hplain.names _ huses)
            fun e he spec hs => hrest e he _ (hplain.field huses hs)
          refine (hmade.imp (fun _ h => h) fun _ _ => .record hget hentry htype).congr ?_
          intro place _
          simp only [hvariant, makeMember, htype]
    | sequence items =>
      refine .inr ⟨_, _, .name hget (by simp [Tree.kind]), fun place _ => ?_⟩
      simp only [makeVariant, hget, unsupported]
    | mapping entries =>
      refine .inr ⟨_, _, .name hget (by simp [Tree.kind]), fun place _ => ?_⟩
      simp only [makeVariant, hget, unsupported]

theorem members_located {family : Family} {items : List Tree} (index : Nat)
    (hplain : catalog.Plain (.variant family))
    (hitems : ∀ item ∈ items, ∀ entry ∈ item.entries?.getD [],
      catalog.Locates coercion entry.2) :
    Located Path.Legible (fun place => catalog.members coercion family place index items)
      fun cause way => ∃ before failing after, items = before ++ failing :: after ∧
        (∀ earlier ∈ before, catalog.MakesMember coercion family earlier) ∧
        ((failing.kind ≠ .mapping ∧ way = [.index (index + before.length)] ∧
            cause = .elementNotMapping (index + before.length) family failing.kind) ∨
          ∃ entries rest, failing = .mapping entries ∧
            catalog.MemberFails coercion family entries cause rest ∧
            way = .index (index + before.length) :: rest) := by
  induction items generalizing index with
  | nil => exact .inl ⟨[], fun _ _ => rfl⟩
  | cons item others ih =>
    obtain ⟨hitem, hothers⟩ := List.forall_mem_cons.mp hitems
    cases item with
    | scalar text =>
      refine .inr ⟨_, _, ⟨[], .scalar text, others, rfl, by simp,
        .inl ⟨by simp [Tree.kind], rfl, rfl⟩⟩, fun place _ => rfl⟩
    | sequence inner =>
      refine .inr ⟨_, _, ⟨[], .sequence inner, others, rfl, by simp,
        .inl ⟨by simp [Tree.kind], rfl, rfl⟩⟩, fun place _ => rfl⟩
    | mapping entries =>
      have hentries : ∀ entry ∈ entries, catalog.Locates coercion entry.2 := hitem
      rcases makeVariant_located hplain hentries with ⟨value, hv⟩ | ⟨cause, way, hfails, hc⟩
      · rcases ih (index + 1) hothers with ⟨values, hvs⟩ | ⟨cause, way, hfails, hc⟩
        · refine .inl ⟨value :: values, fun place hp => ?_⟩
          simp only [members, hv _ (Path.legible_index place index), hvs place hp]
          rfl
        · obtain ⟨before, failing, after, rfl, hbefore, hfails⟩ := hfails
          refine .inr ⟨cause, way, ⟨.mapping entries :: before, failing, after, rfl,
            List.forall_mem_cons.mpr ⟨⟨entries, value, rfl, hv [] Path.legible_nil⟩, hbefore⟩,
            ?_⟩, fun place hp => ?_⟩
          · simpa only [List.length_cons, Nat.add_assoc, Nat.add_comm 1] using hfails
          · simp only [members, hv _ (Path.legible_index place index), hc place hp]
            rfl
      · refine .inr ⟨cause, _, ⟨[], .mapping entries, others, rfl, by simp,
          .inr ⟨entries, way, rfl, hfails, rfl⟩⟩, fun place _ => ?_⟩
        simp only [members, hc _ (Path.legible_index place index), List.append_assoc]
        rfl

/-! ### Whole trees -/

theorem locates_sequence {items : List Tree}
    (hitems : ∀ item ∈ items, ∀ entry ∈ item.entries?.getD [],
      catalog.Locates coercion entry.2) : catalog.Locates coercion (.sequence items) := by
  intro declared hplain
  cases hlist : declared.memberList? with
  | some family =>
    obtain ⟨rfl, hmulti⟩ := DeclaredType.memberList?_eq_some_iff.mp hlist
    have hlocated := (members_located 0 hplain.element hitems).map Value.list
    refine (hlocated.imp (fun _ h => h) ?_).congr fun place _ => by rw [materializeAt, hlist]
    rintro cause way ⟨before, failing, after, rfl, hbefore, hfails⟩
    rw [Nat.zero_add] at hfails
    rcases hfails with ⟨hkind, rfl, rfl⟩ | ⟨entries, rest, rfl, hfails, rfl⟩
    · exact .element hmulti hbefore hkind
    · exact .member hmulti hbefore hfails
  | none =>
    refine (convert_located_of_takes ?_).congr fun place _ => by rw [materializeAt, hlist]
    intro htakes
    cases declared with
    | list element =>
      have he : element.isPrimitive = true := by
        simpa [DeclaredType.takes, Tree.kind, hlist] using htakes
      exact he
    | _ => cases htakes

theorem locates_mapping {entries : List (String × Tree)}
    (hentries : ∀ entry ∈ entries, catalog.Locates coercion entry.2) :
    catalog.Locates coercion (.mapping entries) := by
  intro declared hplain
  cases declared with
  | record type =>
    have hlocated := made_located none (hplain.getters type (.record type))
      (hplain.names type (.record type))
      fun entry he spec hs => hentries entry he _ (hplain.field (.record type) hs)
    exact hlocated.imp (fun _ h => h) fun _ _ => .record
  | variant family =>
    by_cases hsingle : family.kind = .single
    · have hlocated := makeVariant_located hplain hentries
      refine (hlocated.imp (fun _ h => h) fun _ _ => .variant hsingle).congr fun place _ => ?_
      rw [materializeAt, if_pos hsingle]
    · have htakes : (DeclaredType.variant family).takes .mapping = false := by
        simpa [DeclaredType.takes]
      exact .here (.shape htakes) fun place => by rw [materializeAt, if_neg hsingle]; rfl
  | map key value => exact convert_located_of_takes fun htakes => htakes
  | _ => exact convert_located_of_takes fun htakes => absurd htakes Bool.false_ne_true

mutual
theorem locates : (tree : Tree) → catalog.Locates coercion tree
  | .scalar text => fun declared _ =>
    (convert_scalar_located declared text).imp (fun _ _ => trivial) fun _ _ h => h
  | .sequence items => locates_sequence (locates_items items)
  | .mapping entries => locates_mapping (locates_entries entries)

theorem locates_items : (items : List Tree) →
    ∀ item ∈ items, ∀ entry ∈ item.entries?.getD [], catalog.Locates coercion entry.2
  | [] => by simp
  | .scalar _ :: rest => List.forall_mem_cons.mpr ⟨by simp [Tree.entries?], locates_items rest⟩
  | .sequence _ :: rest => List.forall_mem_cons.mpr ⟨by simp [Tree.entries?], locates_items rest⟩
  | .mapping entries :: rest =>
    List.forall_mem_cons.mpr ⟨locates_entries entries, locates_items rest⟩

theorem locates_entries : (entries : List (String × Tree)) →
    ∀ entry ∈ entries, catalog.Locates coercion entry.2
  | [] => by simp
  | (_, node) :: rest => List.forall_mem_cons.mpr ⟨locates node, locates_entries rest⟩
end

/-! ### Failures and their places -/

/-- **Materialization fails at the first failure, and says so at its place**, if constructors fail
by their getters only.  Either the tree has the same value at every place, or its first failure is
reported at the end of the way to it, which leads to a node of the tree; at a place with a text,
that place stands in front of the way. -/
theorem materializeAt_located (catalog : Catalog) (coercion : IntegerCoercion)
    (declared : DeclaredType)
    (names : ∀ type, catalog.Uses declared type →
      ∀ spec ∈ (catalog.schema type).fields, spec.name ≠ "")
    (getters : ∀ type, catalog.Produces declared type →
      (catalog.definition type).construct.FailsByGetters)
    (raw : Tree) (valid : raw.Valid) :
    (∃ value, catalog.materialize coercion raw declared = .ok value ∧
        ∀ place, catalog.materializeAt coercion raw declared place = .ok value) ∨
      ∃ cause way, catalog.Fails coercion raw declared cause way ∧ (raw.at? way).isSome = true ∧
        catalog.materialize coercion raw declared = .error (.located cause way.dotted) ∧
        ∀ place, place.dotted ≠ "" → catalog.materializeAt coercion raw declared place =
          .error (.located cause (place ++ way).dotted) := by
  have hanswers : catalog.ConstructorsAnswer (fun _ => False) declared := getters
  rcases locates raw declared ⟨names, getters⟩ with ⟨value, h⟩ | ⟨cause, way, hfails, h⟩
  · have hvalue := h [] Path.legible_nil
    exact .inl ⟨value, hvalue, placeless hanswers raw hvalue⟩
  · exact .inr ⟨cause, way, hfails, hfails.leads valid, h [] Path.legible_nil,
      fun place hp => h place (.inr hp)⟩

/-- Records with one small number. -/
def countCatalog : Catalog :=
  { definition := fun type =>
      { schema := ⟨type.name, none, [⟨"count", .int, true, none⟩]⟩
        construct := .ofGetters [("count", ⟨.primitive (.integer .unsigned32), .isMissing⟩)]
        leaf := none }
    registry := [] }

theorem plain_countCatalog (declared : DeclaredType) : countCatalog.Plain declared := by
  refine ⟨fun type _ spec hspec => ?_, fun type _ => Constructor.failsByGetters_ofGetters _⟩
  cases List.mem_singleton.mp hspec
  decide

/-- A number that is too small, at the root and at `a.1`. -/
theorem materializeAt_located_tooSmall :
    ∃ (type : RecordType) (raw : Tree) (cause : Cause) (way : Path),
      (∀ other, countCatalog.Uses (.record type) other →
        ∀ spec ∈ (countCatalog.schema other).fields, spec.name ≠ "") ∧
      (∀ other, countCatalog.Produces (.record type) other →
        (countCatalog.definition other).construct.FailsByGetters) ∧
      raw = .mapping [("count", .scalar "-1")] ∧ raw.Valid ∧
      countCatalog.Fails .strict raw (.record type) cause way ∧ (raw.at? way).isSome = true ∧
      countCatalog.materialize .strict raw (.record type) =
        .error (.located cause way.dotted) ∧ way.dotted = "count" ∧
      countCatalog.materializeAt .strict raw (.record type) [.key "a", .index 1] =
        .error (.located cause "a.1.count") := by
  let type : RecordType := ⟨"counts", "Count"⟩
  let raw : Tree := .mapping [("count", .scalar "-1")]
  let cause : Cause := .typeMismatch "count" "u32" "int -1 out of range"
  have hvalid : raw.Valid := ⟨by decide, trivial, trivial⟩
  have hroot : countCatalog.materialize .strict raw (.record type) =
      .error (.located cause "count") := by rfl
  obtain ⟨hnames, hgetters⟩ := plain_countCatalog (.record type)
  rcases materializeAt_located countCatalog .strict (.record type) hnames hgetters raw hvalid with
    ⟨value, hvalue, -⟩ | ⟨other, way, hfails, hleads, hother, hplaces⟩
  · rw [hroot] at hvalue
    cases hvalue
  · obtain ⟨rfl, hway⟩ : cause = other ∧ "count" = way.dotted := by
      rw [hroot] at hother
      simpa using hother
    have hne : way ≠ [] := by
      rintro rfl
      exact absurd hway (by decide)
    have hplace := hplaces [.key "a", .index 1] (by decide)
    rw [Path.dotted_append (by simp) hne, ← hway] at hplace
    exact ⟨type, raw, cause, way, hnames, hgetters, rfl, hvalid, hfails, hleads, hother,
      hway.symm, hplace⟩

/-- Records that hold the place at which they stand. -/
def placedCatalog : Catalog :=
  { definition := fun type =>
      { schema := ⟨type.name, none, []⟩
        construct := fun fields => .ok [("place", .str fields.place)]
        leaf := none }
    registry := [] }

/-- The empty key is a place without a text: there the fields of a record are named as those of the
root are, not as the path to them is.  And a constructor that never fails can still make another
record at another place. -/
theorem materializeAt_unnamed :
    (∃ (type : RecordType) (raw : Tree) (place : Path) (cause : Cause),
      (∀ other, countCatalog.Uses (.record type) other →
        ∀ spec ∈ (countCatalog.schema other).fields, spec.name ≠ "") ∧
      (∀ other, countCatalog.Produces (.record type) other →
        (countCatalog.definition other).construct.FailsByGetters) ∧
      raw.Valid ∧ place ≠ [] ∧
      countCatalog.materialize .strict raw (.record type) = .error (.located cause "count") ∧
      ∀ way : Path, way.dotted = "count" →
        countCatalog.materializeAt .strict raw (.record type) place ≠
          .error (.located cause (place ++ way).dotted)) ∧
    ∃ (type : RecordType) (value other : Value),
      (∀ fields, ∃ held, (placedCatalog.definition type).construct fields = .ok held) ∧
      placedCatalog.materialize .strict (.mapping []) (.record type) = .ok value ∧
      placedCatalog.materializeAt .strict (.mapping []) (.record type) [.key "a"] = .ok other ∧
      value ≠ other := by
  constructor
  · let type : RecordType := ⟨"counts", "Count"⟩
    let raw : Tree := .mapping [("count", .scalar "-1")]
    let cause : Cause := .typeMismatch "count" "u32" "int -1 out of range"
    have hplace : countCatalog.materializeAt .strict raw (.record type) [.key ""] =
        .error (.located cause "count") := by rfl
    obtain ⟨hnames, hgetters⟩ := plain_countCatalog (.record type)
    refine ⟨type, raw, [.key ""], cause, hnames, hgetters, ⟨by decide, trivial, trivial⟩,
      by simp, by rfl, fun way hway => ?_⟩
    have hne : way ≠ [] := by
      rintro rfl
      exact absurd hway (by decide)
    rw [hplace, Path.dotted_append (by simp) hne, hway]
    simp [Segment.asKey]
  · exact ⟨⟨"places", "Place"⟩, .record none ⟨"places", "Place"⟩ [("place", .str "")],
      .record none ⟨"places", "Place"⟩ [("place", .str "a")], fun _ => ⟨_, rfl⟩, by rfl, by rfl,
      by simp⟩

end ConfigTree.Catalog
