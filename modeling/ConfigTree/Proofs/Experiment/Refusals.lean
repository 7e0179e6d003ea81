import ConfigTree.Proofs.Experiment.RoundTrip
import ConfigTree.Proofs.Schema.Refusals

/-! # What an experiment refuses

The schemas and the constructors of an experiment are attuned to each other: what a schema lets
through is taken by the constructor, except that `epochs` and `num_thresholds` are held in 32 bits
without a sign.  So **the only type that does not match is that of an integer in one of these two
fields**, and a field that is said to be missing is missing in the document
(`recordOfTree_refusals`).
-/
namespace ConfigTree.Experiment

open Catalog Schema

variable (home : Namespace)

/-! ### Schemas and constructors -/

theorem not_names_empty (space : Namespace) (entry : RegistryEntry) :
    ¬ (catalog home).registry.Names space "" entry := by
  have hnames : ∀ item ∈ registry home, item.1.2 ≠ "" ∧ item.1.2 ≠ "" ++ "Config" := by
    rw [registry_eq]
    simp only [List.forall_mem_cons, List.not_mem_nil, false_imp_iff, implies_true, and_true]
    decide
  rw [registry_catalog]
  rintro (hget | ⟨-, hget⟩)
  · exact (hnames _ (Entries.mem_of_get? hget)).1 rfl
  · exact (hnames _ (Entries.mem_of_get? hget)).2 rfl

/-- Is the field demanded only if it is required, and are its values taken? -/
@[mk_iff]
structure AttunedField (field : Field) : Prop where
  named : field.spec.name ≠ ""
  promised : field.getter.absence = .isMissing → field.spec.required = true
  taken : field.getter.request.IsTotal = true ∨
    ∃ range, field.getter.request = .primitive (.integer range)

theorem attuned_of_mem_plans : ∀ item ∈ plans home, ∀ field ∈ item.2.fields,
    AttunedField field := by
  simp [plans, attunedField_iff, required, optional, int64, count, real, Request.IsTotal,
    FieldType.IsTotal, KeyType.IsTotal]

theorem attunedDefinition_plan (type : RecordType) :
    AttunedDefinition ((catalog home).schema type) (getters home type) := by
  have hfields : ∀ field ∈ (plan home type).fields, AttunedField field :=
    forall_plan home (P := fun plan => ∀ field ∈ plan.fields, AttunedField field)
      (attuned_of_mem_plans home) nofun type
  exact
    { taken := List.forall_mem_map.mpr fun field hf => (hfields field hf).taken
      promised := List.forall_mem_map.mpr fun field hf habsence =>
        ⟨field.spec, List.mem_map_of_mem hf, rfl, (hfields field hf).promised habsence⟩
      named := List.forall_mem_map.mpr fun field hf => (hfields field hf).named }

/-- **Constructors of an experiment ask for no more than their schemas promise**, but for the ranges
of integers. -/
theorem attuned_catalog : (catalog home).Attuned (getters home) where
  toRegular := regular_catalog home
  attuned := attunedDefinition_plan home
  unnamed := not_names_empty home

/-- The integers of an experiment that are held in 32 bits. -/
def Counts (type : RecordType) (field : String) : Prop :=
  type = train home ∧ field = "epochs" ∨ type = areaUnderCurve home ∧ field = "num_thresholds"

theorem range_of_narrows {type : RecordType} {field : String} {range : IntegerRange}
    (h : Narrows (getters home) type field range) :
    range = .signed64 ∨ range = .unsigned32 ∧ Counts home type field := by
  obtain ⟨getter, hg, hrequest⟩ := h
  have hplans : ∀ item ∈ plans home, ∀ getter ∈ item.2.getters, ∀ range,
      getter.2.request = .primitive (.integer range) →
      range = .signed64 ∨ range = .unsigned32 ∧ Counts home item.1 getter.1 := by
    simp only [plans, Plan.getters, required, optional, int64, count, real, Counts,
      List.forall_mem_cons, List.map_cons, List.map_nil, List.not_mem_nil, false_imp_iff,
      implies_true, and_true, Request.primitive.injEq, FieldType.integer.injEq, reduceCtorEq,
      forall_eq', true_and, true_or, or_true]
  unfold getters plan at hg
  cases hget : Entries.get? (plans home) type with
  | none =>
    rw [hget] at hg
    cases hg
  | some found =>
    rw [hget] at hg
    exact hplans _ (Entries.mem_of_get? hget) _ hg range hrequest

/-- An integer of the document that its field refuses is one of these, out of 32 bits. -/
theorem counts_of_narrows {type : RecordType} {field text : String} {range : IntegerRange} {i : Int}
    {coercion : IntegerCoercion} (h : Narrows (getters home) type field range)
    (hi : readInt coercion text = .ok i) (hrange : range.contains i = false) :
    range.name = "u32" ∧ Counts home type field ∧ (i < 0 ∨ 4294967295 < i) := by
  rcases range_of_narrows home h with rfl | ⟨rfl, hcounts⟩
  · rw [FieldType.contains_of_readInt hi] at hrange
    cases hrange
  · refine ⟨rfl, hcounts, ?_⟩
    have hout : ¬ (0 ≤ i ∧ i ≤ 4294967295) := by
      rintro ⟨hlow, hhigh⟩
      rw [IntegerRange.contains_iff.mpr ⟨hlow, hhigh⟩] at hrange
      cases hrange
    omega

/-! ### Errors -/

/-- **What is said about the fields of an experiment is true**, in errors of either form.  A type
that does not match is that of `epochs` or of `num_thresholds`, where the document has an integer
that needs more than 32 bits or a sign; and a missing field is missing in the mapping at its place.
No constructor refuses anything else of the fields that are gathered for it. -/
theorem recordOfTree_refusals (coercion : IntegerCoercion) :
    (∀ type raw error, raw.Valid → (catalog home).recordOfTree coercion type raw = .error error →
      (∀ field expected found place, error.Reports (.typeMismatch field expected found) place →
        (field = "epochs" ∨ field = "num_thresholds") ∧
          ∃ way text i, place = Path.dotted (way ++ [.key field]) ∧
            raw.at? (way ++ [.key field]) = some (.scalar text) ∧ readInt coercion text = .ok i ∧
            (i < 0 ∨ 4294967295 < i) ∧ expected = "u32" ∧
            found = "int " ++ Text.showInt i ++ " out of range") ∧
      ∀ field record place, error.Reports (.missingField field record) place →
        ∃ way entries, place = Path.dotted way ∧ raw.at? way = some (.mapping entries) ∧
          Entries.get? entries field = none) ∧
    ∀ owner made, (catalog home).Makes owner made → ∀ entries place fields error,
      (catalog home).fieldsOf owner ((catalog home).readings coercion entries) place = .ok fields →
      ((catalog home).definition made).construct fields = .error error →
        ∃ field text i, Counts home made field ∧
          Entries.get? entries field = some (.scalar text) ∧ readInt coercion text = .ok i ∧
          (i < 0 ∨ 4294967295 < i) ∧
          error = fields.mismatch field ⟨"u32", "int " ++ Text.showInt i ++ " out of range"⟩ := by
  have hc := attuned_catalog home
  refine ⟨fun type raw error hvalid herror => ⟨fun field expected found place hreports => ?_,
    fun field record place hreports => ?_⟩, fun owner made hmakes entries place fields error
      hfields herror => ?_⟩
  · obtain ⟨way, rfl, hevident⟩ := justifies_of_recordOfTree hc hvalid herror _ _ hreports
    cases hevident with
    | outOfRange hnarrows hnode hi hrange =>
      obtain ⟨hname, hcounts, hout⟩ := counts_of_narrows home hnarrows hi hrange
      exact ⟨hcounts.imp And.right And.right, _, _, _, rfl, hnode, hi, hout, hname, rfl⟩
    | other hcause => cases hcause
  · obtain ⟨way, rfl, hevident⟩ := justifies_of_recordOfTree hc hvalid herror _ _ hreports
    cases hevident with
    | missing _ hnode hget => exact ⟨_, _, rfl, hnode, hget⟩
    | other hcause => cases hcause
  · obtain ⟨field, range, text, i, hnarrows, hget, hi, hrange, rfl⟩ :=
      hc.exists_of_construct_eq_error hmakes hfields herror
    obtain ⟨hname, hcounts, hout⟩ := counts_of_narrows home hnarrows hi hrange
    exact ⟨field, text, i, hcounts, hget, hi, hout, by rw [hname]⟩

/-- Settings for training without a last epoch. -/
def endless : List (String × Tree) :=
  [("batch_size", .scalar "1"), ("epochs", .scalar "0-1"),
    ("optimizer", .mapping [("module_name", .scalar "Sgd"), ("lr", .scalar "1")])]

/-- They are refused, and behind their name it is also told that the name is no field. -/
theorem recordOfTree_refusals_endless :
    ∃ (home : Namespace) (raw : Tree) (error refusal : Error) (fields : Fields),
      raw = .mapping [("TrainConfig", .mapping endless)] ∧ raw.Valid ∧
      (catalog home).recordOfTree .strict (train home) raw = .error error ∧
      error.Reports (.missingField "batch_size" "TrainConfig") "" ∧
      error.Reports (.typeMismatch "epochs" "u32" "int -1 out of range") "TrainConfig.epochs" ∧
      (∃ way entries, "" = Path.dotted way ∧ raw.at? way = some (.mapping entries) ∧
        Entries.get? entries "batch_size" = none) ∧
      (∃ way text i, "TrainConfig.epochs" = Path.dotted (way ++ [.key "epochs"]) ∧
        raw.at? (way ++ [.key "epochs"]) = some (.scalar text) ∧ readInt .strict text = .ok i ∧
        (i < 0 ∨ 4294967295 < i)) ∧
      (catalog home).Makes (train home) (train home) ∧
      (catalog home).fieldsOf (train home) ((catalog home).readings .strict endless) [] =
        .ok fields ∧
      ((catalog home).definition (train home)).construct fields = .error refusal ∧
      ∃ field text, Counts home (train home) field ∧
        Entries.get? endless field = some (.scalar text) := by
  let home : Namespace := ⟨"fixtures"⟩
  let raw : Tree := .mapping [("TrainConfig", .mapping endless)]
  let error : Error := .neitherForm raw (.record (train home))
    (.located (.missingField "batch_size" "TrainConfig") "")
    (.located (.typeMismatch "epochs" "u32" "int -1 out of range") "TrainConfig.epochs")
  let refusal : Error := .located (.typeMismatch "epochs" "u32" "int -1 out of range") "epochs"
  have hvalid : raw.Valid := by
    simp [raw, endless, Tree.Valid, Tree.ValidEntries, Entries.NodupKeys, Entries.keys]
  have herror : (catalog home).recordOfTree .strict (train home) raw = .error error := by
    have hunread : ((catalog home).recordOfTree .strict (train home) raw).map (fun _ => ()) =
        .error error := by
      decide +kernel
    exact map_eq_error_iff.mp hunread
  have hmissing : error.Reports (.missingField "batch_size" "TrainConfig") "" := .direct .located
  have hmismatch : error.Reports (.typeMismatch "epochs" "u32" "int -1 out of range")
      "TrainConfig.epochs" := .shorthand .located
  have htaken : (((catalog home).fieldsOf (train home)
      ((catalog home).readings .strict endless) []).toOption.map fun fields =>
        (((catalog home).definition (train home)).construct fields).map fun _ => ()) =
          some (.error refusal) := by
    decide +kernel
  obtain ⟨fields, hfields, hrefused⟩ := Option.map_eq_some_iff.mp htaken
  have hfields := toOption_eq_some_iff.mp hfields
  have hrefusal := map_eq_error_iff.mp hrefused
  obtain ⟨hdocument, hconstructors⟩ := recordOfTree_refusals home .strict
  obtain ⟨htypes, habsent⟩ := hdocument (train home) raw error hvalid herror
  obtain ⟨-, way, text, i, hplace, hnode, hi, hout, -⟩ := htypes _ _ _ _ hmismatch
  obtain ⟨field, given, -, hcounts, hget, -⟩ := hconstructors (train home) (train home) (.record _)
    endless [] fields refusal hfields hrefusal
  exact ⟨home, raw, error, refusal, fields, rfl, hvalid, herror, hmissing, hmismatch,
    habsent _ _ _ hmissing, ⟨way, text, i, hplace, hnode, hi, hout⟩, .record _, hfields, hrefusal,
    field, given, hcounts, hget⟩

end ConfigTree.Experiment
