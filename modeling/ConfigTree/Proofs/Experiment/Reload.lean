import ConfigTree.Proofs.Experiment.RoundTrip
import ConfigTree.Proofs.Schema.Document

/-! # Saved experiments are read back

The names of members and the help texts of an experiment have nothing in them that a reader of its
document could take for something else.  So it depends on the texts in a record whether it is read
back: whether YAML can hold them, and whether they look like references.  A text that looks like one
is left alone as long as no leaf has this name, but defaults are written along with the record and
give names to more leaves.  `recordOfYaml_recordToYaml` says exactly when a saved record is read
back, and `recordOfYaml_recordToYaml_defaulted` is a record that changes by being saved.
-/
namespace ConfigTree.Experiment

open Catalog

variable (home : Namespace)

theorem staysOnLine_of_isHelp (text : String) (h : (catalog home).IsHelp text) :
    Tree.staysOnLine text = true := by
  obtain ⟨type, spec, hspec, htext⟩ := h
  refine forall_plan home
    (P := fun plan => ∀ spec ∈ plan.fields.map Field.spec, ∀ text ∈ spec.help,
      Tree.staysOnLine text = true)
    ?_ nofun type spec hspec text htext
  simp only [plans, required, optional, List.forall_mem_cons, List.map_cons,
    List.map_nil, List.not_mem_nil, Option.mem_def, Option.some.injEq, forall_eq', reduceCtorEq,
    false_imp_iff, implies_true, and_true]
  decide +kernel

theorem hasNoDollar_of_enrolled (family : Family) (type : RecordType)
    (h : (catalog home).Enrolled family type) : HasNoDollar type.name := by
  have hnames : ∀ item ∈ registry home, ∀ member ∈ item.2.members, HasNoDollar member.2.name := by
    rw [registry_eq]
    simp only [List.forall_mem_cons, List.not_mem_nil, false_imp_iff, implies_true, and_true, a, b,
      sgd, adam, accuracy, areaUnderCurve, recordType]
    decide
  obtain ⟨entry, hnamed, hmade, -⟩ := h
  rw [registry_catalog] at hnamed
  have hentry : ∀ {key}, Entries.get? (registry home) key = some entry → HasNoDollar type.name :=
    fun hget => hnames _ (Entries.mem_of_get? hget) _ (Entries.mem_of_get? hmade)
  rcases hnamed with hget | ⟨-, hget⟩
  · exact hentry hget
  · exact hentry hget

/-- **When a record is read back from its document.**  Its tree is what the document is read as
exactly if the tree is writable.  Then a record that is written alike is read back exactly if the
least integer is not in the record and no leaf of the tree refers to one, and it is the record
itself.  A file to which the record was saved is read as the document is, whichever directory was
the working directory. -/
theorem recordOfYaml_recordToYaml (type : RecordType) (text : String) (record : Value)
    (read : (catalog home).recordOfYaml type text = .ok record) :
    let tree := (catalog home).write record
    let document := (catalog home).recordToYaml type record
    (Tree.ofYaml document = .ok tree ↔ tree.Writable) ∧
    (tree.Writable →
      ((∃ again, (catalog home).recordOfYaml type document = .ok again ∧
          ((catalog home).write again).same tree = true) ↔
        IntegerRange.signed64.least ∉ record.integers ∧
          ∀ leaf ∈ tree.leaves, referencesIn tree.flatten leaf.2 = []) ∧
      (IntegerRange.signed64.least ∉ record.integers →
        (∀ leaf ∈ tree.leaves, referencesIn tree.flatten leaf.2 = []) →
        (catalog home).recordOfYaml type document = .ok record)) ∧
    (∀ process disk other path directory,
      (catalog home).save process disk path type record directory = (.ok (), other) →
      path.format.isOk = true → document.utf8ByteSize ≤ maxFileSize →
      (catalog home).recordOfFile type (fun path => other.readText path.text directory) path =
        (catalog home).recordOfYaml type document) := by
  intro tree document
  have hc := regular_catalog home
  have hhelp := staysOnLine_of_isHelp home
  obtain ⟨_, _, -, -, hread⟩ := recordOfYaml_eq_ok_iff.mp read
  have hheld : (catalog home).Held (getters home) (.record type) record :=
    held_of_recordOfTree hc hread
  refine ⟨ofYaml_recordToYaml_eq_ok_iff hhelp hc hheld, fun hwritable => ⟨?_, ?_⟩, ?_⟩
  · exact exists_same_iff hhelp hc hheld hwritable (home_eq_none_or_length_ne_one home type)
      (hasNoDollar_of_enrolled home)
  · exact recordOfYaml_recordToYaml_of_held hhelp hc hheld hwritable
  · exact fun _ _ _ _ _ hsave hformat hsize => recordOfFile_of_save hsave hformat hsize

/-- An experiment with a reference and with numbers as expressions. -/
def referring : String :=
  "name: run-$train.batch_size\n" ++
  "train:\n  batch_size: 2*4\n  optimizer: \x7bmodule_name: Adam, lr: 1/8\x7d\n" ++
  "data:\n  paths: ['a # b']\n"

/-- The tree of its record. -/
def referred : Tree :=
  .mapping [("name", .scalar "run-2*4"),
    ("train", .mapping [("batch_size", .scalar "8"), ("epochs", .scalar "1"),
      ("optimizer", .mapping [("module_name", .scalar "AdamConfig"), ("lr", .scalar "0.125"),
        ("betas", .sequence [.scalar "0.9", .scalar "0.999"])]),
      ("metrics", .sequence [])]),
    ("data", .mapping [("paths", .sequence [.scalar "a # b"]), ("shuffle", .scalar "true"),
      ("weights", .mapping [])])]

/-- It is saved along a path from the root, and read back from its document and from its file. -/
theorem recordOfYaml_recordToYaml_referring :
    ∃ (home : Namespace) (record : Value) (disk : Disk),
      (catalog home).recordOfYaml (experiment home) referring = .ok record ∧
      (catalog home).write record = referred ∧
      (catalog home).save "7" [(["srv"], .directory)] ⟨"/srv/runs/a.yaml"⟩ (experiment home) record
        ["srv"] = (.ok (), disk) ∧
      (catalog home).recordOfYaml (experiment home)
        ((catalog home).recordToYaml (experiment home) record) = .ok record ∧
      (catalog home).recordOfFile (experiment home) (fun path => disk.readText path.text ["srv"])
        ⟨"/srv/runs/a.yaml"⟩ = .ok record := by
  let home : Namespace := ⟨"fixtures"⟩
  let disk : Disk := [(["srv"], .directory)]
  let path : FilePath := ⟨"/srv/runs/a.yaml"⟩
  have hread : (((catalog home).recordOfYaml (experiment home) referring).toOption.map
      fun record => (record.integers, (catalog home).write record,
        ((catalog home).save "7" disk path (experiment home) record ["srv"]).1.toOption,
        decide (((catalog home).recordToYaml (experiment home) record).utf8ByteSize ≤
          maxFileSize))) = some ([8, 1], referred, some (), true) := by
    decide +kernel
  obtain ⟨record, hrecord, he⟩ := Option.map_eq_some_iff.mp hread
  simp only [Prod.mk.injEq, decide_eq_true_eq] at he
  obtain ⟨hintegers, hwrite, hsaved, hsize⟩ := he
  have hrecord := toOption_eq_some_iff.mp hrecord
  obtain ⟨saved, hsave⟩ : ∃ saved,
      (catalog home).save "7" disk path (experiment home) record ["srv"] = (.ok (), saved) :=
    ⟨_, Prod.ext (toOption_eq_some_iff.mp hsaved) rfl⟩
  have hleast : IntegerRange.signed64.least ∉ record.integers := by
    rw [hintegers]
    decide
  have hwritable : referred.Writable := by decide +kernel
  have hrefs : ∀ leaf ∈ referred.leaves, referencesIn referred.flatten leaf.2 = [] := by
    decide +kernel
  rw [← hwrite] at hwritable hrefs
  obtain ⟨-, hdocument, hfile⟩ :=
    recordOfYaml_recordToYaml home (experiment home) referring record hrecord
  have hagain := (hdocument hwritable).2 hleast hrefs
  refine ⟨home, record, saved, hrecord, hwrite, hsave, hagain, ?_⟩
  rw [hfile _ _ _ _ _ hsave (by decide +kernel) hsize, hagain]

/-- An experiment that is called by the name of a number that it does not give. -/
def defaulted : String :=
  "name: $train.epochs\n" ++
  "train:\n  batch_size: 1\n  optimizer: \x7bmodule_name: Sgd, lr: 1\x7d\n" ++
  "data:\n  paths: []\n"

/-- The tree of its record. -/
def unnamed : Tree :=
  .mapping [("name", .scalar "$train.epochs"),
    ("train", .mapping [("batch_size", .scalar "1"), ("epochs", .scalar "1"),
      ("optimizer", .mapping [("module_name", .scalar "Sgd"), ("lr", .scalar "1.0"),
        ("momentum", .scalar "0.0")]),
      ("metrics", .sequence [])]),
    ("data", .mapping [("paths", .sequence []), ("shuffle", .scalar "true"),
      ("weights", .mapping [])])]

/-- Its document gives the number, so from there on the experiment is called `1`. -/
theorem recordOfYaml_recordToYaml_defaulted :
    ∃ (home : Namespace) (record again : Value),
      (catalog home).recordOfYaml (experiment home) defaulted = .ok record ∧
      (catalog home).write record = unnamed ∧
      (catalog home).recordOfYaml (experiment home)
        ((catalog home).recordToYaml (experiment home) record) = .ok again ∧
      ((catalog home).write again).get? "name" = some (.scalar "1") ∧
      ((catalog home).write again).same ((catalog home).write record) = false := by
  let home : Namespace := ⟨"fixtures"⟩
  have hread : (((catalog home).recordOfYaml (experiment home) defaulted).toOption.map
      (catalog home).write) = some unnamed := by
    decide +kernel
  obtain ⟨record, hrecord, hwrite⟩ := Option.map_eq_some_iff.mp hread
  have hrecord := toOption_eq_some_iff.mp hrecord
  -- The document is read as the tree, so only the tree has to be looked at.
  have hagain : ((unnamed.resolve defaultCap).toOption.bind fun data =>
      ((catalog home).recordOfTree .strict (experiment home) data).toOption.map
        fun again => (((catalog home).write again).get? "name",
          ((catalog home).write again).same unnamed)) = some (some (.scalar "1"), false) := by
    decide +kernel
  obtain ⟨data, hdata, hagain⟩ := Option.bind_eq_some_iff.mp hagain
  obtain ⟨again, hagain, he⟩ := Option.map_eq_some_iff.mp hagain
  obtain ⟨hname, hsame⟩ := Prod.mk.inj he
  have hwritable : unnamed.Writable := by decide +kernel
  rw [← hwrite] at hwritable hdata hsame
  obtain ⟨_, _, -, -, htree⟩ := recordOfYaml_eq_ok_iff.mp hrecord
  have hheld := held_of_recordOfTree (regular_catalog home) htree
  have hdocument := (recordOfYaml_recordToYaml_eq_ok_iff (staysOnLine_of_isHelp home)
    (regular_catalog home) hheld hwritable).mpr
      ⟨data, toOption_eq_some_iff.mp hdata, toOption_eq_some_iff.mp hagain⟩
  exact ⟨home, record, again, hrecord, hwrite, hdocument, hname, hsame⟩

end ConfigTree.Experiment
