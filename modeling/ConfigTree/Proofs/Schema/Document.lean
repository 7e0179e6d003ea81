import ConfigTree.Proofs.Document.RoundTrip
import ConfigTree.Proofs.Schema.Rewriting
import ConfigTree.Proofs.Storage.Atomicity

/-! # Records are read back from their documents

The document of a record is that of its tree, with help texts as comments.  If the tree is writable,
it is read from the document again, and its references are resolved before a record is made of it.
A record holds its values with references resolved, but a text in it can look like a reference to a
field that the document now has: then another record is read (`exists_same_iff`).
-/
namespace ConfigTree

open Schema

namespace Catalog

variable {catalog : Catalog}

/-! ### Help texts -/

/-- The help text of a field of some record. -/
def IsHelp (catalog : Catalog) (text : String) : Prop :=
  ∃ type, ∃ spec ∈ (catalog.schema type).fields, spec.help = some text

theorem mem_helpOf {readings : Entries String HelpReading} {name : String}
    {fields : List FieldSpec} {entry : String × String}
    (h : entry ∈ helpOf readings name fields) :
    (∃ spec ∈ fields, spec.help = some entry.2) ∨
      ∃ reading ∈ readings, ∃ declared child, entry ∈ reading.2 declared child := by
  induction fields with
  | nil => cases h
  | cons spec rest ih =>
    rw [helpOf] at h
    rcases List.mem_append.mp h with h | h
    · split at h
      · next reading hget =>
        rcases List.mem_append.mp h with h | h
        · obtain ⟨text, htext, rfl⟩ : ∃ text, spec.help = some text ∧ _ = entry := by simpa using h
          exact .inl ⟨spec, List.mem_cons_self .., htext⟩
        · exact .inr ⟨_, Entries.mem_of_get? hget, _, _, h⟩
      · cases h
    · rcases ih h with ⟨spec, hspec, htext⟩ | hbelow
      · exact .inl ⟨spec, List.mem_cons_of_mem _ hspec, htext⟩
      · exact .inr hbelow

/-- All help texts come from schemas. -/
theorem isHelp_of_mem_helpBelow (tree : Tree) {declared : DeclaredType} {name : String}
    {entry : String × String} (h : entry ∈ catalog.helpBelow tree declared name) :
    catalog.IsHelp entry.2 := by
  induction tree using Tree.induction generalizing declared name with
  | scalar text => cases declared <;> cases h
  | sequence items ih =>
    have hitems : ∀ element index, entry ∈ catalog.helpOfItems element name index items →
        catalog.IsHelp entry.2 := by
      clear h
      intro element index h
      induction items generalizing index with
      | nil => cases h
      | cons item rest ihItems =>
        obtain ⟨hitem, hrest⟩ := List.forall_mem_cons.mp ih
        rcases List.mem_append.mp h with h | h
        · exact hitem h
        · exact ihItems hrest _ h
    cases declared with
    | list element => exact hitems _ _ h
    | _ => cases h
  | mapping entries ih =>
    have hreadings : ∀ reading ∈ catalog.helpReadings entries, ∀ declared child,
        entry ∈ reading.2 declared child → catalog.IsHelp entry.2 := by
      clear h
      induction entries with
      | nil => nofun
      | cons first rest ihEntries =>
        obtain ⟨hfirst, hrest⟩ := List.forall_mem_cons.mp ih
        exact List.forall_mem_cons.mpr ⟨fun _ _ h => hfirst h, ihEntries hrest⟩
    have hfields : ∀ type, entry ∈ helpOf (catalog.helpReadings entries) name
        (catalog.schema type).fields → catalog.IsHelp entry.2 := by
      intro type h
      rcases mem_helpOf h with ⟨spec, hspec, htext⟩ | ⟨reading, hmem, declared, child, h⟩
      · exact ⟨type, spec, hspec, htext⟩
      · exact hreadings reading hmem declared child h
    cases declared with
    | record type => exact hfields type h
    | variant family =>
      rw [helpBelow] at h
      split at h
      · exact hfields _ h
      · cases h
    | _ => cases h

/-- **Help texts that are lines are comments that stay on their line.** -/
theorem oneLine_help (hhelp : ∀ text, catalog.IsHelp text → Tree.staysOnLine text = true)
    (tree : Tree) (declared : DeclaredType) : Tree.OneLine (catalog.help tree declared) :=
  Tree.oneLine_of_staysOnLine fun entry hentry =>
    hhelp entry.2 (isHelp_of_mem_helpBelow tree (Entries.mem_of_mem_ofList hentry))

/-! ### Written trees are valid -/

end Catalog

theorem FieldType.Holds.valid_write {catalog : Catalog} {type : FieldType} {value : Value}
    (h : type.Holds value) : (catalog.write value).Valid := by
  induction h with
  | integer _ _ => trivial
  | float _ _ => trivial
  | str _ => trivial
  | bool _ => trivial
  | list _ ih =>
    rw [Catalog.write, Catalog.writeItems_eq]
    exact Tree.validItems_iff.mpr (List.forall_mem_map.mpr ih)
  | map hnodup _ ih =>
    rw [Catalog.write_map hnodup]
    refine ⟨?_, Tree.validEntries_iff.mpr (List.forall_mem_map.mpr ih)⟩
    rwa [Entries.NodupKeys, Entries.keys_mapValues]

namespace Catalog

variable {catalog : Catalog} {getters : RecordType → Entries String Getter}

theorem Held.valid_write (hc : catalog.Regular getters) {request : Request} {value : Value}
    (h : catalog.Held getters request value) : (catalog.write value).Valid := by
  have hfields : ∀ {type : RecordType} {fields : Entries String Value},
      Entries.keys fields = Entries.keys (getters type) →
      (∀ name getter value, (name, getter) ∈ getters type →
        (name, value) ∈ fields → (catalog.write value).Valid) →
      ∀ entry ∈ Entries.mapValues catalog.write fields, entry.2.Valid := by
    intro type fields hkeys h
    refine List.forall_mem_map.mpr fun field hf => ?_
    obtain ⟨getter, hg⟩ := exists_getter_of_mem hkeys hf
    exact h _ getter _ hg hf
  induction h with
  | primitive hvalue => exact hvalue.valid_write
  | record hkeys _ ih =>
    rw [hc.write_record hkeys]
    refine ⟨?_, Tree.validEntries_iff.mpr (hfields hkeys ih)⟩
    rw [Entries.NodupKeys, Entries.keys_mapValues]
    exact hc.nodupKeys_of_keys_eq hkeys
  | @member family type fields _ hkeys _ ih =>
    rw [hc.write_member _ hkeys]
    refine ⟨?_, trivial, Tree.validEntries_iff.mpr (hfields hkeys ih)⟩
    have hnames := (hc.definition type).names
    rw [← hkeys, ← Entries.keys_mapValues catalog.write] at hnames
    exact hnames
  | members _ _ ih =>
    rw [write, writeItems_eq]
    exact Tree.validItems_iff.mpr (List.forall_mem_map.mpr ih)

/-! ### Documents -/

theorem recordOfYaml_eq_ok_iff {type : RecordType} {text : String} {record : Value} :
    catalog.recordOfYaml type text = .ok record ↔
      ∃ tree data, Tree.ofYaml text = .ok tree ∧ tree.resolve defaultCap = .ok data ∧
        catalog.recordOfTree .strict type data = .ok record := by
  unfold recordOfYaml recordOf Parameters.ofYaml Parameters.readTree
  cases Tree.ofYaml text with
  | error cause => simp [bind, Except.bind]
  | ok tree =>
    simp only [bind, Except.bind, Parameters.ofTree]
    cases hresolve : tree.resolve defaultCap with
    | error cause => simp [hresolve]
    | ok data => simp [hresolve]

theorem recordOfFile_eq {type : RecordType} {reader : FileReader} {path : FilePath} {text : String}
    (hformat : path.format.isOk = true) (hread : reader path = .ok text) :
    catalog.recordOfFile type reader path = catalog.recordOfYaml type text := by
  unfold recordOfFile recordOfYaml Parameters.ofFile Parameters.readFile
  cases hpath : path.format with
  | error cause =>
    rw [hpath] at hformat
    cases hformat
  | ok format => simp [hread, bind, Except.bind]

section Document

variable (hhelp : ∀ text, catalog.IsHelp text → Tree.staysOnLine text = true)
include hhelp

/-- The comments in the document of a record do not matter. -/
theorem ofYaml_recordToYaml (type : RecordType) (record : Value) :
    Tree.ofYaml (catalog.recordToYaml type record) = Tree.ofYaml (catalog.write record).toYaml := by
  have htokens : Yaml.tokens (catalog.recordToYaml type record) =
      Yaml.tokens (catalog.write record).toYaml := by
    rw [recordToYaml, treeToYaml, Tree.tokens_toYamlWith (oneLine_help hhelp _ _), Tree.toYaml,
      Tree.tokens_toYamlWith Tree.oneLine_nil]
  rw [Tree.ofYaml, htokens, Tree.ofYaml]

variable (hc : catalog.Regular getters) {type : RecordType} {record : Value}
include hc

theorem ofYaml_recordToYaml_eq_ok_iff (h : catalog.Held getters (.record type) record) :
    Tree.ofYaml (catalog.recordToYaml type record) = .ok (catalog.write record) ↔
      (catalog.write record).Writable := by
  rw [ofYaml_recordToYaml hhelp, Tree.ofYaml_toYaml_eq_ok_iff (h.valid_write hc)]

variable (h : catalog.Held getters (.record type) record)
  (hwritable : (catalog.write record).Writable)
include h hwritable

theorem recordOfYaml_recordToYaml_eq_ok_iff {again : Value} :
    catalog.recordOfYaml type (catalog.recordToYaml type record) = .ok again ↔
      ∃ data, (catalog.write record).resolve defaultCap = .ok data ∧
        catalog.recordOfTree .strict type data = .ok again := by
  have hread := (ofYaml_recordToYaml_eq_ok_iff hhelp hc h).mpr hwritable
  rw [recordOfYaml_eq_ok_iff, hread]
  simp

/-- A record is read back from its document if nothing in it refers to a leaf and the least integer
is not in it. -/
theorem recordOfYaml_recordToYaml_of_held (hleast : IntegerRange.signed64.least ∉ record.integers)
    (hrefs : ∀ leaf ∈ (catalog.write record).leaves,
      referencesIn (catalog.write record).flatten leaf.2 = []) :
    catalog.recordOfYaml type (catalog.recordToYaml type record) = .ok record :=
  (recordOfYaml_recordToYaml_eq_ok_iff hhelp hc h hwritable).mpr
    ⟨_, (Tree.resolve_eq_self_iff (by decide)).mpr hrefs, recordOfTree_write_of_held hc h hleast⟩

variable
  (hroot : (catalog.schema type).home = none ∨ (getters type).length ≠ 1)
  (hnames : ∀ family type, catalog.Enrolled family type → HasNoDollar type.name)
include hroot hnames

/-- **When a record that is written alike is read back**: only if nothing in it refers to a leaf and
the least integer is not in it, and then the record itself is read back. -/
theorem exists_same_iff :
    (∃ again, catalog.recordOfYaml type (catalog.recordToYaml type record) = .ok again ∧
        (catalog.write again).same (catalog.write record) = true) ↔
      IntegerRange.signed64.least ∉ record.integers ∧
        ∀ leaf ∈ (catalog.write record).leaves,
          referencesIn (catalog.write record).flatten leaf.2 = [] := by
  have hvalid : (catalog.write record).Valid := h.valid_write hc
  constructor
  · rintro ⟨again, hagain, hsame⟩
    obtain ⟨data, hresolve, hread⟩ :=
      (recordOfYaml_recordToYaml_eq_ok_iff hhelp hc h hwritable).mp hagain
    -- What is read from the resolved tree is the record with other texts.
    obtain ⟨g, hg, rfl⟩ := Tree.exists_mapTexts_of_resolve hresolve
    rw [← h.write_mapTexts hg hc hnames, recordOfTree_write_iff hc h.mapTexts hroot,
      Value.integers_mapTexts] at hread
    obtain ⟨hleast, rfl⟩ := hread
    rw [h.write_mapTexts hg hc hnames] at hsame
    rw [Tree.mapTexts_eq_of_same hvalid hsame] at hresolve
    exact ⟨hleast, (Tree.resolve_eq_self_iff (by decide)).mp hresolve⟩
  · rintro ⟨hleast, hrefs⟩
    exact ⟨record, recordOfYaml_recordToYaml_of_held hhelp hc h hwritable hleast hrefs,
      Tree.same_refl _ hvalid⟩

end Document

/-- **A record that was saved is read from its file as from its document**, if the file is one for
parameters and is not too large. -/
theorem recordOfFile_of_save {process : String} {disk other : Disk} {home : Place}
    {path : FilePath} {type : RecordType} {record : Value}
    (hsave : catalog.save process disk path type record home = (.ok (), other))
    (hformat : path.format.isOk = true)
    (hsize : (catalog.recordToYaml type record).utf8ByteSize ≤ maxFileSize) :
    catalog.recordOfFile type (fun path => other.readText path.text home) path =
      catalog.recordOfYaml type (catalog.recordToYaml type record) :=
  recordOfFile_eq hformat (Disk.readText_of_writeText hsave hsize)

end Catalog

end ConfigTree
