import ConfigTree.Experiment
import ConfigTree.Proofs.Schema.Rereading

/-! # Records of an experiment are read back

The catalog of an experiment is regular: its fields are taken in the types in which they are
declared, its defaults could be given as well, and the name of each member of a family leads back to
it.  So **the tree that is written for a record is read as this record** (`recordOfTree_write`),
with all records in it, members of families and lists of them included.  If the least integer is in
it, whose text is no expression, the tree is read as none (`recordOfTree_write_eq_ok_iff`).

This integer is the only one that is written as what is not read again (`readInt_showInt`).
-/
namespace ConfigTree.Experiment

open Catalog

/-! ### Fields as they are defined -/

section Fields

variable {catalog : Catalog} {getters : RecordType → Entries String Getter}

/-- A field whose values are read back, the default included. -/
inductive SoundField (catalog : Catalog) (getters : RecordType → Entries String Getter) :
    Field → Prop where
  | required (name : String) {request : Request} (help : Option String) :
      request.IsPlain = true → SoundField catalog getters (required name request help)
  | optional (name : String) {request : Request} {default : Value} :
      request.IsPlain = true → catalog.Held getters request default →
      SoundField catalog getters (optional name request default)

/-- The fields are read back, and their names are apart. -/
structure SoundPlan (catalog : Catalog) (getters : RecordType → Entries String Getter)
    (plan : Plan) : Prop where
  names : (moduleNameKey :: Entries.keys plan.getters).Nodup
  fields : ∀ field ∈ plan.fields, SoundField catalog getters field

/-- **A record of such fields is made as it is declared.** -/
theorem SoundPlan.regularDefinition {plan : Plan} (h : SoundPlan catalog getters plan)
    (type : RecordType) : catalog.RegularDefinition getters (plan.define type) plan.getters where
  leaf := rfl
  construct := rfl
  declared := by
    simp only [Plan.define, Plan.getters, List.map_map]
    refine List.map_congr_left fun field hf => ?_
    cases h.fields field hf <;> rfl
  names := h.names
  plain := by
    intro getter hg
    obtain ⟨field, hf, rfl⟩ := List.mem_map.mp hg
    cases h.fields field hf with
    | required _ _ hp => exact hp
    | optional _ hp _ => exact hp
  kept := by
    intro getter hg
    obtain ⟨field, hf, rfl⟩ := List.mem_map.mp hg
    cases h.fields field hf <;> simp [required, optional]
  defaults := by
    intro getter hg value habsence
    obtain ⟨field, hf, rfl⟩ := List.mem_map.mp hg
    cases h.fields field hf with
    | required _ _ _ => cases habsence
    | optional _ _ hheld =>
      cases habsence
      exact hheld

end Fields

variable (home : Namespace)

/-! ### The registry -/

theorem registry_catalog : (catalog home).registry = registry home := by
  rw [catalog]

theorem registry_eq : registry home =
    [ ((home, "A"), ⟨"A", a home, [(base home, a home), (layer home, a home)]⟩),
      ((home, "B"), ⟨"B", b home, [(base home, b home), (layer home, b home)]⟩),
      ((home, "Sgd"), ⟨"Sgd", sgd home, [(optimizer home, sgd home)]⟩),
      ((home, "AdamConfig"), ⟨"AdamConfig", adam home, [(optimizer home, adam home)]⟩),
      ((home, "Accuracy"), ⟨"Accuracy", accuracy home, [(metric home, accuracy home)]⟩),
      ((home, "AreaUnderCurveConfig"),
        ⟨"AreaUnderCurveConfig", areaUnderCurve home, [(metric home, areaUnderCurve home)]⟩),
      ((home, "TrainConfig"), ⟨"TrainConfig", train home, []⟩),
      ((home, "DataConfig"), ⟨"DataConfig", data home, []⟩),
      ((home, "ExperimentConfig"), ⟨"ExperimentConfig", experiment home, []⟩)] := by
  simp [registry, Registry.registerVariant, Registry.registerRecord, Registry.entryOf,
    Entries.insert, Entries.get?, Entries.erase, a, b, sgd, adam, accuracy, areaUnderCurve, train,
    data, experiment, recordType, base, layer, optimizer, metric]

/-- A record is registered under its own name, and it is what is made for its families. -/
theorem record_of_mem_registry : ∀ item ∈ registry home, ∀ member ∈ item.2.members,
    item.2.record = member.2 ∧ item.1.2 = member.2.name := by
  rw [registry_eq]
  simp only [List.forall_mem_cons]
  simp [a, b, sgd, adam, accuracy, areaUnderCurve, recordType]

/-! ### The plans -/

/-- How the fields of a record type are taken. -/
def getters (type : RecordType) : Entries String Getter := (plan home type).getters

/-- What holds of all plans, and of one without fields, holds of every record type. -/
theorem forall_plan {P : Plan → Prop} (hplans : ∀ item ∈ plans home, P item.2)
    (hnone : P ⟨none, []⟩) (type : RecordType) : P (plan home type) := by
  unfold plan
  cases hget : Entries.get? (plans home) type with
  | none => exact hnone
  | some found => exact hplans _ (Entries.mem_of_get? hget)

theorem holds_number (digits : Nat) (exponent : Int)
    (h : (double.ofDecimal false digits exponent).isFinite = true) :
    FieldType.Holds (.float double) (number digits exponent) :=
  .float h (FloatFormat.isCanonical_ofDecimal (by decide) false digits exponent)

theorem sound_of_mem_plans :
    ∀ item ∈ plans home, SoundPlan (catalog home) (getters home) item.2 := by
  have hcount : ∀ i : Int, 0 ≤ i → i ≤ 200 →
      (catalog home).Held (getters home) count (.int i) := by
    intro i hlow hhigh
    refine .primitive
      (.integer (IntegerRange.contains_iff.mpr ?_) (IntegerRange.contains_iff.mpr ?_))
    · simp only [IntegerRange.signed64]
      omega
    · simp only [IntegerRange.unsigned32]
      omega
  have hmomentum : (catalog home).Held (getters home) real (number 0 0) :=
    .primitive (holds_number 0 0 rfl)
  have hbetas : (catalog home).Held (getters home) (.primitive (.list (.float double)))
      (.list [number 9 (-1), number 999 (-3)]) :=
    .primitive (.list (List.forall_mem_cons.mpr ⟨holds_number 9 (-1) rfl,
      List.forall_mem_cons.mpr ⟨holds_number 999 (-3) rfl, List.forall_mem_nil _⟩⟩))
  have hweights : (catalog home).Held (getters home)
      (.primitive (.map .insertion .str (.float double))) (.map []) := by
    have hempty : FieldType.Holds (.map .insertion .str (.float double))
        (.map (([] : Entries String Value).map fun entry => (.str entry.1, entry.2))) :=
      .map List.nodup_nil (List.forall_mem_nil _)
    exact .primitive hempty
  have hmetrics : (catalog home).Held (getters home) (.variants (metric home)) (.list []) :=
    .members rfl (List.forall_mem_nil _)
  have hnames : ∀ item ∈ plans home,
      (moduleNameKey :: Entries.keys item.2.getters).Nodup := by
    simp [plans, Plan.getters, required, optional, Entries.keys, moduleNameKey]
  have hfields : ∀ item ∈ plans home, ∀ field ∈ item.2.fields,
      SoundField (catalog home) (getters home) field := by
    simp only [plans, List.forall_mem_cons]
    refine ⟨?a, ?b, ?sgd, ?adam, ?accuracy, ?area, ?single, ?multi, ?train, ?data, ?experiment,
      List.forall_mem_nil _⟩
    case sgd => exact ⟨.required _ _ rfl, .optional _ rfl hmomentum, List.forall_mem_nil _⟩
    case adam => exact ⟨.required _ _ rfl, .optional _ rfl hbetas, List.forall_mem_nil _⟩
    case area => exact ⟨.optional _ rfl (hcount 200 (by omega) le_rfl), List.forall_mem_nil _⟩
    case train =>
      exact ⟨.required _ _ rfl, .optional _ rfl (hcount 1 (by omega) (by omega)),
        .required _ _ rfl, .optional _ rfl hmetrics, List.forall_mem_nil _⟩
    case data =>
      exact ⟨.required _ _ rfl, .optional _ rfl (.primitive (.bool true)),
        .optional _ rfl hweights, List.forall_mem_nil _⟩
    case experiment =>
      exact ⟨.required _ _ rfl, .required _ _ rfl, .required _ _ rfl, List.forall_mem_nil _⟩
    all_goals exact ⟨.required _ _ rfl, List.forall_mem_nil _⟩
  exact fun item hitem => ⟨hnames item hitem, hfields item hitem⟩

theorem regularDefinition_definition (type : RecordType) :
    (catalog home).RegularDefinition (getters home) ((catalog home).definition type)
      (getters home type) := by
  have hnone : SoundPlan (catalog home) (getters home) ⟨none, []⟩ :=
    ⟨by simp [Plan.getters, Entries.keys], nofun⟩
  exact (forall_plan home (sound_of_mem_plans home) hnone type).regularDefinition type

/-- **The catalog of an experiment is regular.** -/
theorem regular_catalog : (catalog home).Regular (getters home) where
  definition := regularDefinition_definition home
  members := by
    intro family name entry type hnames hmade
    rw [registry_catalog] at hnames
    have hentry : ∀ key, Entries.get? (registry home) (family.home, key) = some entry →
        entry.record = type ∧ (catalog home).Enrolled family type := by
      intro key hget
      obtain ⟨hrecord, rfl⟩ : entry.record = type ∧ key = type.name :=
        record_of_mem_registry home ((family.home, key), entry) (Entries.mem_of_get? hget)
          (family, type) (Entries.mem_of_get? hmade)
      have hnamed : (catalog home).registry.Names family.home type.name entry := by
        rw [registry_catalog]
        exact .inl hget
      exact ⟨hrecord, entry, hnamed, hmade, hrecord⟩
    rcases hnames with hget | ⟨-, hget⟩
    · exact hentry _ hget
    · exact hentry _ hget

/-! ### Reading back -/

/-- The records whose name can stand in front of their fields have more than one field. -/
theorem home_eq_none_or_length_ne_one (type : RecordType) :
    ((catalog home).schema type).home = none ∨ (getters home type).length ≠ 1 := by
  refine forall_plan home (P := fun plan => plan.space = none ∨ plan.getters.length ≠ 1)
    ?_ (.inl rfl) type
  simp [plans, Plan.getters]

variable (coercion : Schema.IntegerCoercion) (type : RecordType)

/-- What the tree of a record is read as. -/
theorem recordOfTree_write_eq_ok_iff {record other : Value}
    (h : (catalog home).Held (getters home) (.record type) record) :
    (catalog home).recordOfTree coercion type ((catalog home).write record) = .ok other ↔
      IntegerRange.signed64.least ∉ record.integers ∧ other = record :=
  recordOfTree_write_iff (regular_catalog home) h (home_eq_none_or_length_ne_one home type)

/-- **The tree of a record is read as this record**, for all records of an experiment in which the
least integer is nowhere. -/
theorem recordOfTree_write (raw : Tree) (record : Value)
    (read : (catalog home).recordOfTree coercion type raw = .ok record)
    (least : IntegerRange.signed64.least ∉ record.integers) :
    (catalog home).recordOfTree coercion type ((catalog home).write record) = .ok record :=
  recordOfTree_write_of_held (regular_catalog home)
    (held_of_recordOfTree (regular_catalog home) read) least

/-- An experiment with expressions for numbers, shortened names of members and fields left out. -/
def shortened : Tree :=
  .mapping [("name", .scalar "run"),
    ("train", .mapping [("batch_size", .scalar "8*4"),
      ("optimizer", .mapping [("module_name", .scalar "Adam"), ("lr", .scalar "1/8")]),
      ("metrics", .sequence [.mapping [("module_name", .scalar "AreaUnderCurve")],
        .mapping [("threshold", .scalar "-1/3"), ("module_name", .scalar "Accuracy")]])]),
    ("data", .mapping [("paths", .sequence [.scalar "$a", .scalar "b"]),
      ("weights", .mapping [("x", .scalar "1e300*10")])])]

/-- The same experiment as it is written. -/
def spelledOut : Tree :=
  .mapping [("name", .scalar "run"),
    ("train", .mapping [("batch_size", .scalar "32"), ("epochs", .scalar "1"),
      ("optimizer", .mapping [("module_name", .scalar "AdamConfig"), ("lr", .scalar "0.125"),
        ("betas", .sequence [.scalar "0.9", .scalar "0.999"])]),
      ("metrics", .sequence [
        .mapping [("module_name", .scalar "AreaUnderCurveConfig"),
          ("num_thresholds", .scalar "200")],
        .mapping [("module_name", .scalar "Accuracy"),
          ("threshold", .scalar "-0.3333333333333333")]])]),
    ("data", .mapping [("paths", .sequence [.scalar "$a", .scalar "b"]),
      ("shuffle", .scalar "true"), ("weights", .mapping [("x", .scalar "1e301")])])]

theorem recordOfTree_write_shortened :
    ∃ (home : Namespace) (record : Value),
      (catalog home).recordOfTree .strict (experiment home) shortened = .ok record ∧
      IntegerRange.signed64.least ∉ record.integers ∧
      (catalog home).write record = spelledOut ∧
      (catalog home).recordOfTree .strict (experiment home) spelledOut = .ok record := by
  let home : Namespace := ⟨"fixtures"⟩
  have hread : (((catalog home).recordOfTree .strict (experiment home) shortened).toOption.map
      fun record => (record.integers, (catalog home).write record)) =
        some ([32, 1, 200], spelledOut) := by
    decide +kernel
  obtain ⟨record, hrecord, he⟩ := Option.map_eq_some_iff.mp hread
  obtain ⟨hintegers, hwrite⟩ := Prod.mk.inj he
  have hrecord := toOption_eq_some_iff.mp hrecord
  have hleast : IntegerRange.signed64.least ∉ record.integers := by
    rw [hintegers]
    decide
  refine ⟨home, record, hrecord, hleast, hwrite, ?_⟩
  rw [← hwrite]
  exact recordOfTree_write home .strict (experiment home) shortened record hrecord hleast

/-! ### Integers -/

end ConfigTree.Experiment
