import ConfigTree.Proofs.Outcome
import ConfigTree.Schema.Materialize

/-! # The fields of a record

The fields of a record are gathered from a mapping and then given to its constructor.  Gathering
leaves a value for each declared field that the mapping has and for nothing else (`gather_spec`), in
the order of the declarations (`keys_gather`).

To a constructor that takes its fields one after the other this order is irrelevant: it depends only
on what is there under each name (`Fields.takeAll_congr`).
-/
namespace ConfigTree

open Schema

/-! ### Taking fields -/

namespace Fields

/-- The outcome of taking fields depends on what is there under each name only; the name and the
place of the record are told in errors alone. -/
theorem takeAll_congr {getters : List (String × Getter)} {a b : Fields}
    {held : List (String × Value)} (ha : Entries.NodupKeys a.values)
    (hb : Entries.NodupKeys b.values)
    (hsame : ∀ name, Entries.get? a.values name = Entries.get? b.values name)
    (h : takeAll getters a = .ok held) : takeAll getters b = .ok held := by
  induction getters generalizing a b held with
  | nil => exact h
  | cons first rest ih =>
    obtain ⟨name, getter⟩ := first
    -- Taking a field erases it on both sides, so they still agree.
    have herase : ∀ other, Entries.get? (a.erase name).values other =
        Entries.get? (b.erase name).values other := by
      intro other
      simp only [Fields.erase, Entries.get?_erase ha, Entries.get?_erase hb, hsame]
    simp only [takeAll, take, ← hsame] at h ⊢
    cases hget : Entries.get? a.values name with
    | some value =>
      rw [hget] at h
      cases hread : getter.request.read value with
      | error cause => simp [hread] at h
      | ok taken =>
        simp only [hread, bind_eq_ok_iff] at h ⊢
        obtain ⟨more, hmore, hheld⟩ := h
        exact ⟨more, ih (ha.erase name) (hb.erase name) herase hmore, hheld⟩
    | none =>
      rw [hget] at h
      cases habs : getter.absence with
      | isMissing => simp [habs] at h
      | isSkipped =>
        simp only [habs] at h ⊢
        exact ih ha hb hsame h
      | holds value =>
        simp only [habs, bind_eq_ok_iff] at h ⊢
        obtain ⟨more, hmore, hheld⟩ := h
        exact ⟨more, ih ha hb hsame hmore, hheld⟩

/-- What a getter takes from the values of a record, if the record has the field. -/
inductive Takes (values : Entries String Value) (name : String) (getter : Getter) :
    Value → Prop where
  | given {value held : Value} :
      Entries.get? values name = some value → getter.request.read value = .ok held →
      Takes values name getter held
  | absent {value : Value} :
      Entries.get? values name = none → getter.absence = .holds value →
      Takes values name getter value

/-- Another field is taken as before if one has been erased. -/
theorem takes_erase_iff {values : Entries String Value} (hnodup : Entries.NodupKeys values)
    {erased name : String} (hne : erased ≠ name) {getter : Getter} {value : Value} :
    Takes (Entries.erase values erased) name getter value ↔ Takes values name getter value := by
  have hget : Entries.get? (Entries.erase values erased) name = Entries.get? values name := by
    rw [Entries.get?_erase hnodup, if_neg hne]
  constructor
  · rintro (⟨hgiven, hread⟩ | ⟨hnone, habsence⟩)
    · exact .given (hget ▸ hgiven) hread
    · exact .absent (hget ▸ hnone) habsence
  · rintro (⟨hgiven, hread⟩ | ⟨hnone, habsence⟩)
    · exact .given (hget.symm ▸ hgiven) hread
    · exact .absent (hget.symm ▸ hnone) habsence

theorem takeAll_cons_eq_ok_iff {name : String} {getter : Getter} {rest : Entries String Getter}
    {fields : Fields} {held : Entries String Value} (hkept : getter.absence ≠ .isSkipped)
    (hnodup : Entries.NodupKeys fields.values) :
    takeAll ((name, getter) :: rest) fields = .ok held ↔
      ∃ value more, Takes fields.values name getter value ∧
        takeAll rest (fields.erase name) = .ok more ∧ held = (name, value) :: more := by
  simp only [takeAll, take]
  cases hget : Entries.get? fields.values name with
  | some given =>
    have htakes : ∀ {value}, Takes fields.values name getter value ↔
        getter.request.read given = .ok value := by
      intro value
      refine ⟨fun h => ?_, .given hget⟩
      cases h with
      | given hgiven hread => rwa [← Option.some.inj (hget.symm.trans hgiven)] at hread
      | absent hnone _ => simp [hget] at hnone
    simp only [htakes]
    cases hread : getter.request.read given with
    | error cause => simp
    | ok taken =>
      simp only [bind_eq_ok_iff, pure, Except.pure, Except.ok.injEq]
      constructor
      · rintro ⟨more, hmore, rfl⟩
        exact ⟨taken, more, rfl, hmore, rfl⟩
      · rintro ⟨_, more, rfl, hmore, rfl⟩
        exact ⟨more, hmore, rfl⟩
  | none =>
    have htakes : ∀ {value}, Takes fields.values name getter value ↔
        getter.absence = .holds value := by
      intro value
      refine ⟨fun h => ?_, .absent hget⟩
      cases h with
      | given hgiven _ => simp [hget] at hgiven
      | absent _ habsence => exact habsence
    -- Nothing is erased if nothing is there.
    have hsame : ∀ other, Entries.get? (fields.erase name).values other =
        Entries.get? fields.values other := by
      intro other
      simp only [Fields.erase, Entries.get?_erase hnodup]
      split
      · next he => rw [← he, hget]
      · rfl
    have herased : ∀ {more}, takeAll rest (fields.erase name) = .ok more ↔
        takeAll rest fields = .ok more :=
      ⟨takeAll_congr (hnodup.erase name) hnodup hsame,
        takeAll_congr hnodup (hnodup.erase name) fun other => (hsame other).symm⟩
    simp only [htakes, herased]
    cases habsence : getter.absence with
    | isSkipped => exact absurd habsence hkept
    | isMissing => simp
    | holds value =>
      simp only [bind_eq_ok_iff, pure, Except.pure, Except.ok.injEq, Absence.holds.injEq]
      constructor
      · rintro ⟨more, hmore, rfl⟩
        exact ⟨value, more, rfl, hmore, rfl⟩
      · rintro ⟨_, more, rfl, hmore, rfl⟩
        exact ⟨more, hmore, rfl⟩

/-- **Fields with distinct names are taken independently of each other**, if none is skipped. -/
theorem takeAll_eq_ok_iff {getters : Entries String Getter} {fields : Fields}
    {held : Entries String Value} (hnames : Entries.NodupKeys getters)
    (hkept : ∀ getter ∈ getters, getter.2.absence ≠ .isSkipped)
    (hnodup : Entries.NodupKeys fields.values) :
    takeAll getters fields = .ok held ↔
      Entries.keys held = Entries.keys getters ∧
        ∀ name getter value, (name, getter) ∈ getters → (name, value) ∈ held →
          Takes fields.values name getter value := by
  induction getters generalizing fields held with
  | nil => cases held <;> simp [takeAll, Entries.keys]
  | cons first rest ih =>
    obtain ⟨name, getter⟩ := first
    have hname : name ∉ Entries.keys rest := (List.nodup_cons.mp hnames).1
    have hrest : Entries.NodupKeys rest := (List.nodup_cons.mp hnames).2
    obtain ⟨hfirst, hkept⟩ := List.forall_mem_cons.mp hkept
    have hother : ∀ {other g}, (other, g) ∈ rest → name ≠ other := by
      rintro _ _ hm rfl
      exact hname (List.mem_map_of_mem hm)
    have herased : Entries.NodupKeys (fields.erase name).values := hnodup.erase name
    rw [takeAll_cons_eq_ok_iff hfirst hnodup]
    simp only [ih hrest hkept herased]
    constructor
    · rintro ⟨value, more, htakes, ⟨hkeys, hmore⟩, rfl⟩
      refine ⟨congrArg (name :: ·) hkeys, fun other g v hg hv => ?_⟩
      rcases List.mem_cons.mp hg with hg | hg
      · cases hg
        rcases List.mem_cons.mp hv with hv | hv
        · cases hv
          exact htakes
        · have hmem : name ∈ Entries.keys more := List.mem_map_of_mem hv
          rw [hkeys] at hmem
          exact absurd hmem hname
      · rcases List.mem_cons.mp hv with hv | hv
        · cases hv
          exact absurd rfl (hother hg)
        · exact (takes_erase_iff hnodup (hother hg)).mp (hmore other g v hg hv)
    · rintro ⟨hkeys, htakes⟩
      obtain ⟨⟨_, value⟩, more, rfl, rfl, hmore⟩ := List.map_eq_cons_iff.mp hkeys
      refine ⟨value, more, htakes _ getter value (by simp) (by simp), ⟨hmore, ?_⟩, rfl⟩
      intro other g v hg hv
      exact (takes_erase_iff hnodup (hother hg)).mpr
        (htakes other g v (List.mem_cons_of_mem _ hg) (List.mem_cons_of_mem _ hv))

end Fields

/-! ### Gathering fields -/

namespace Schema

variable {entries : Entries String Reading} {path : Path}

/-- Gathering succeeds exactly if every field that is there has a value and no other one is
required. -/
theorem exists_gather_eq_ok_iff {specs : List FieldSpec} {fields : Fields} :
    (∃ result, gather entries path specs fields = .ok result) ↔
      ∀ spec ∈ specs,
        (∀ reading, Entries.get? entries spec.name = some reading →
          ∃ value, reading spec.declared (path ++ [.key spec.name]) = .ok value) ∧
        (Entries.get? entries spec.name = none → spec.required = false) := by
  induction specs generalizing fields with
  | nil => simp [gather]
  | cons spec rest ih =>
    rw [List.forall_mem_cons]
    cases hget : Entries.get? entries spec.name with
    | some reading =>
      cases hread : reading spec.declared (path ++ [.key spec.name]) with
      | error e => simp [gather, hget, hread, bind, Except.bind]
      | ok value => simp [gather, hget, hread, bind, Except.bind, ih]
    | none =>
      cases hreq : spec.required with
      | true => simp [gather, hget, hreq]
      | false => simp [gather, hget, hreq, ih]

/-- Gathering changes nothing but the values. -/
theorem eq_of_gather {specs : List FieldSpec} {fields result : Fields}
    (h : gather entries path specs fields = .ok result) :
    result = ⟨fields.record, fields.place, result.values⟩ := by
  induction specs generalizing fields with
  | nil =>
    cases h
    rfl
  | cons spec rest ih =>
    unfold gather at h
    split at h
    · obtain ⟨value, -, h⟩ := bind_eq_ok_iff.mp h
      have hinsert : result =
          ⟨(fields.insert spec.name value).record, (fields.insert spec.name value).place,
            result.values⟩ := ih h
      exact hinsert
    · split at h
      · cases h
      · exact ih h

/-- The values of new fields are added in the order of their declarations. -/
theorem keys_gather {specs : List FieldSpec} {fields result : Fields}
    (hdistinct : (specs.map FieldSpec.name).Nodup)
    (hnew : ∀ spec ∈ specs, spec.name ∉ Entries.keys fields.values)
    (h : gather entries path specs fields = .ok result) :
    Entries.keys result.values =
      Entries.keys fields.values ++
        (specs.map FieldSpec.name).filter (Entries.contains entries) := by
  induction specs generalizing fields with
  | nil =>
    cases h
    simp
  | cons spec rest ih =>
    obtain ⟨hspec, hrest⟩ := List.nodup_cons.mp hdistinct
    obtain ⟨hfirst, hlater⟩ := List.forall_mem_cons.mp hnew
    cases hget : Entries.get? entries spec.name with
    | some reading =>
      simp only [gather, hget, bind_eq_ok_iff] at h
      obtain ⟨value, -, h⟩ := h
      have hkeys : Entries.keys (fields.insert spec.name value).values =
          Entries.keys fields.values ++ [spec.name] := by
        simp [Fields.insert, Entries.insert_eq_append hfirst, Entries.keys]
      have hstill : ∀ other ∈ rest,
          other.name ∉ Entries.keys (fields.insert spec.name value).values := by
        intro other ho
        have hne : other.name ≠ spec.name := fun he => hspec (he ▸ List.mem_map_of_mem ho)
        rw [hkeys, List.mem_append, List.mem_singleton, not_or]
        exact ⟨hlater other ho, hne⟩
      rw [ih hrest hstill h, hkeys]
      simp [Entries.contains, hget]
    | none =>
      simp only [gather, hget] at h
      split at h
      · cases h
      · rw [ih hrest hlater h]
        simp [Entries.contains, hget]

/-- What gathering adds to fields: a value for each field that is there, and nothing else. -/
theorem gather_spec {specs : List FieldSpec} {fields result : Fields}
    (hdistinct : (specs.map FieldSpec.name).Nodup)
    (h : gather entries path specs fields = .ok result) :
    (∀ name, name ∉ specs.map FieldSpec.name →
        Entries.get? result.values name = Entries.get? fields.values name) ∧
      ∀ spec ∈ specs,
        (∀ reading, Entries.get? entries spec.name = some reading →
          ∃ value, reading spec.declared (path ++ [.key spec.name]) = .ok value ∧
            Entries.get? result.values spec.name = some value) ∧
        (Entries.get? entries spec.name = none →
          Entries.get? result.values spec.name = Entries.get? fields.values spec.name) := by
  induction specs generalizing fields with
  | nil =>
    cases h
    exact ⟨fun _ _ => rfl, by simp⟩
  | cons spec rest ih =>
    have hspec : spec.name ∉ rest.map FieldSpec.name := (List.nodup_cons.mp hdistinct).1
    have hrest : (rest.map FieldSpec.name).Nodup := (List.nodup_cons.mp hdistinct).2
    cases hget : Entries.get? entries spec.name with
    | some reading =>
      simp only [gather, hget, bind_eq_ok_iff] at h
      obtain ⟨value, hread, h⟩ := h
      obtain ⟨hothers, hfields⟩ := ih hrest h
      have hinsert : ∀ name, Entries.get? (fields.insert spec.name value).values name =
          if spec.name = name then some value else Entries.get? fields.values name :=
        fun name => Entries.get?_insert ..
      refine ⟨fun name hname => ?_, fun other hother => ?_⟩
      · rw [List.map_cons, List.mem_cons, not_or] at hname
        rw [hothers name hname.2, hinsert, if_neg (Ne.symm hname.1)]
      · rcases List.mem_cons.mp hother with rfl | hother
        · rw [hget]
          refine ⟨?_, nofun⟩
          rintro _ ⟨⟩
          exact ⟨value, hread, by rw [hothers _ hspec, hinsert, if_pos rfl]⟩
        -- A later field has another name, so its value is not the one that is put in here.
        · have hne : spec.name ≠ other.name :=
            fun he => hspec (he ▸ List.mem_map_of_mem hother)
          refine ⟨(hfields other hother).1, fun hnone => ?_⟩
          rw [(hfields other hother).2 hnone, hinsert, if_neg hne]
    | none =>
      simp only [gather, hget] at h
      split at h
      · cases h
      · obtain ⟨hothers, hfields⟩ := ih hrest h
        refine ⟨fun name hname => ?_, fun other hother => ?_⟩
        · rw [List.map_cons, List.mem_cons, not_or] at hname
          exact hothers name hname.2
        · rcases List.mem_cons.mp hother with rfl | hother
          · rw [hget]
            exact ⟨nofun, fun _ => hothers _ hspec⟩
          · exact hfields other hother

end Schema

namespace Catalog

variable {catalog : Catalog}

/-- The fields of a record are named by its schema, and know its place. -/
theorem eq_of_fieldsOf {type : RecordType} {entries : Entries String Reading} {path : Path}
    {fields : Fields} (h : catalog.fieldsOf type entries path = .ok fields) :
    fields = ⟨(catalog.schema type).name, path.dotted, fields.values⟩ :=
  eq_of_gather h

/-- The values stand in the order of the schema. -/
theorem keys_fieldsOf {type : RecordType} {entries : Entries String Reading} {path : Path}
    {fields : Fields} (hdistinct : ((catalog.schema type).fields.map FieldSpec.name).Nodup)
    (h : catalog.fieldsOf type entries path = .ok fields) :
    Entries.keys fields.values =
      ((catalog.schema type).fields.map FieldSpec.name).filter (Entries.contains entries) := by
  have hempty : Entries.keys (Fields.empty (catalog.schema type).name path.dotted).values = [] :=
    rfl
  rw [keys_gather hdistinct (fun _ _ => List.not_mem_nil) h, hempty, List.nil_append]

theorem make_eq_ok_iff {family : Option Family} {type : RecordType} {fields : Fields} {path : Path}
    {value : Value} :
    catalog.make family type fields path = .ok value ↔
      ∃ held, (catalog.definition type).construct fields = .ok held ∧
        value = .record family type held := by
  unfold make
  cases (catalog.definition type).construct fields <;> simp [eq_comm]

end Catalog

end ConfigTree
