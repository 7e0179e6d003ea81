import ConfigTree.Schema.Materialize

/-! # Whole documents

A whole document is read as any other tree is, and `Catalog.materializeRoot` looks at the shapes of
the tree and of its type itself before it reads the tree.  It looks at them in the same way as
`Catalog.materializeAt` does, so it adds one thing only (`materializeRoot_eq_orNamed`): a failure of
a tree that may be a name with a mapping behind it gives way to what is read behind the name.

**No other failure is replaced, and none is lost** (`materializeRoot_refines`).
-/
namespace ConfigTree.Catalog

open Schema

variable {catalog : Catalog} {coercion : IntegerCoercion} {raw : Tree} {declared : DeclaredType}

/-- The types whose values can be written with a name in front, and where the name is looked up:
records that have a namespace, and families that are used one member at a time. -/
inductive TakesName (catalog : Catalog) : DeclaredType → Namespace → Prop where
  | record {type : RecordType} {home : Namespace} :
      (catalog.schema type).home = some home → TakesName catalog (.record type) home
  | variant {family : Family} :
      family.kind = .single → TakesName catalog (.variant family) family.home

theorem shorthandHome?_eq_some_iff {home : Namespace} :
    catalog.shorthandHome? declared = some home ↔ catalog.TakesName declared home := by
  constructor
  · intro h
    unfold shorthandHome? at h
    split at h
    · exact .record h
    · split at h
      · next hsingle =>
        cases h
        exact .variant hsingle
      · cases h
    · cases h
  · rintro (hhome | hsingle)
    · exact hhome
    · exact if_pos hsingle

theorem orNamed_of_ok (value : Value) :
    catalog.orNamed coercion raw declared (.ok value) = .ok value := rfl

/-- Where no name can be in front, a failure stays what it is. -/
theorem orNamed_of_not_named {direct : Error}
    (h : ∀ home name inner, catalog.TakesName declared home →
      raw ≠ .mapping [(name, .mapping inner)]) :
    catalog.orNamed coercion raw declared (.error direct) = .error direct := by
  unfold orNamed
  split
  · next he => cases he
  · next he =>
    cases he
    split
    · next name inner home hhome =>
      exact absurd rfl (h home name inner (shorthandHome?_eq_some_iff.mp hhome))
    · rfl

section Named

variable {direct : Error} {home : Namespace} {name : String} {inner : List (String × Tree)}

/-- Where a name can be in front, a failure gives way to the value behind the name -/
theorem orNamed_of_named {value : Value} (h : catalog.TakesName declared home)
    (hnamed : catalog.materializeNamed coercion declared home name inner = .ok value) :
    catalog.orNamed coercion (.mapping [(name, .mapping inner)]) declared (.error direct) =
      .ok value := by
  simp only [orNamed, shorthandHome?_eq_some_iff.mpr h, hnamed]

/-- or is reported together with the failure behind it. -/
theorem orNamed_of_neither {shorthand : Error} (h : catalog.TakesName declared home)
    (hnamed : catalog.materializeNamed coercion declared home name inner = .error shorthand) :
    catalog.orNamed coercion (.mapping [(name, .mapping inner)]) declared (.error direct) =
      .error (.neitherForm (.mapping [(name, .mapping inner)]) declared direct shorthand) := by
  simp only [orNamed, shorthandHome?_eq_some_iff.mpr h, hnamed]

end Named

/-- **The two ways of looking at shapes agree**: a whole document is what the tree is at the root,
or else what stands behind a name. -/
theorem materializeRoot_eq_orNamed (catalog : Catalog) (coercion : IntegerCoercion) (raw : Tree)
    (declared : DeclaredType) :
    catalog.materializeRoot coercion raw declared =
      catalog.orNamed coercion raw declared (catalog.materialize coercion raw declared) := by
  have hother : (∀ home, ¬ catalog.TakesName declared home) ∨ raw.entries? = none →
      catalog.orNamed coercion raw declared (catalog.materialize coercion raw declared) =
        catalog.materialize coercion raw declared := by
    intro h
    rcases catalog.materialize coercion raw declared with direct | value
    · apply orNamed_of_not_named
      rintro home name inner htakes rfl
      rcases h with h | h
      · exact h home htakes
      · cases h
    · rfl
  rcases raw with text | items | entries
  · exact (hother (.inr rfl)).symm
  · exact (hother (.inr rfl)).symm
  · rcases declared with _ | _ | _ | _ | element | ⟨key, value⟩ | type | family
    case record => rw [materializeRoot, materialize, materializeAt]
    case variant =>
      rw [materializeRoot]
      by_cases hsingle : family.kind = .single
      · rw [if_pos hsingle, materialize, materializeAt, if_pos hsingle]
      · rw [if_neg hsingle]
        refine (hother (.inl ?_)).symm
        rintro home (_ | h)
        exact hsingle h
    all_goals exact (hother (.inl nofun)).symm

/-- A whole document has the value of the tree, or if it has none, the value behind a name. -/
theorem materializeRoot_eq_ok_iff {value : Value} :
    catalog.materializeRoot coercion raw declared = .ok value ↔
      catalog.materialize coercion raw declared = .ok value ∨
      ∃ direct home name inner, catalog.materialize coercion raw declared = .error direct ∧
        catalog.TakesName declared home ∧ raw = .mapping [(name, .mapping inner)] ∧
        catalog.materializeNamed coercion declared home name inner = .ok value := by
  rw [materializeRoot_eq_orNamed]
  constructor
  · intro h
    rcases hdirect : catalog.materialize coercion raw declared with direct | other
    · by_cases hnamed : ∃ home name inner, catalog.TakesName declared home ∧
          raw = .mapping [(name, .mapping inner)]
      · obtain ⟨home, name, inner, htakes, rfl⟩ := hnamed
        refine .inr ⟨direct, home, name, inner, rfl, htakes, rfl, ?_⟩
        rw [hdirect] at h
        rcases hbehind : catalog.materializeNamed coercion declared home name inner with _ | other
        · rw [orNamed_of_neither htakes hbehind] at h
          cases h
        · rwa [orNamed_of_named htakes hbehind] at h
      · rw [hdirect, orNamed_of_not_named fun home name inner htakes he =>
          hnamed ⟨home, name, inner, htakes, he⟩] at h
        cases h
    · rw [hdirect, orNamed_of_ok] at h
      exact .inl h
  · rintro (h | ⟨direct, home, name, inner, hdirect, htakes, rfl, hnamed⟩)
    · rw [h, orNamed_of_ok]
    · rw [hdirect, orNamed_of_named htakes hnamed]

/-- **A whole document refines a tree.**  A value of the tree is the value of the document.  A
failure is the failure of the document, unless the tree is a name with a mapping behind it and the
type takes one; then the document has the value that is read behind the name, or fails with both
failures as they are. -/
theorem materializeRoot_refines (catalog : Catalog) (coercion : IntegerCoercion) (raw : Tree)
    (declared : DeclaredType) :
    (∀ value, catalog.materialize coercion raw declared = .ok value →
      catalog.materializeRoot coercion raw declared = .ok value) ∧
    ∀ direct, catalog.materialize coercion raw declared = .error direct →
      (∀ home name inner, catalog.TakesName declared home →
        raw = .mapping [(name, .mapping inner)] →
        (∀ value, catalog.materializeNamed coercion declared home name inner = .ok value →
          catalog.materializeRoot coercion raw declared = .ok value) ∧
        ∀ shorthand,
          catalog.materializeNamed coercion declared home name inner = .error shorthand →
          catalog.materializeRoot coercion raw declared =
            .error (.neitherForm raw declared direct shorthand)) ∧
      ((∀ home name inner, catalog.TakesName declared home →
          raw ≠ .mapping [(name, .mapping inner)]) →
        catalog.materializeRoot coercion raw declared = .error direct) := by
  rw [materializeRoot_eq_orNamed]
  refine ⟨fun value h => by rw [h, orNamed_of_ok], fun direct h => ?_⟩
  rw [h]
  constructor
  · rintro home name inner htakes rfl
    exact ⟨fun value hnamed => orNamed_of_named htakes hnamed,
      fun shorthand hnamed => orNamed_of_neither htakes hnamed⟩
  · exact orNamed_of_not_named

/-- Records with one number, in a namespace. -/
def portCatalog : Catalog :=
  { definition := fun type =>
      { schema := ⟨type.name, some ⟨"ports"⟩, [⟨"number", .int, true, none⟩]⟩
        construct := .ofGetters [("number", ⟨.primitive (.integer .signed64), .isMissing⟩)]
        leaf := none }
    registry := Registry.registerRecord [] ⟨"ports"⟩ ⟨"ports", "PortConfig"⟩ }

/-- A name with a misspelt number behind it: the field is missing in front of the name, and what
stands behind the name is no number. -/
theorem materializeRoot_refines_misspelt :
    ∃ (type : RecordType) (raw : Tree) (direct shorthand : Error),
      raw = .mapping [("Port", .mapping [("number", .scalar "8o")])] ∧
      direct = .located (.missingField "number" "PortConfig") "" ∧
      shorthand = .located (.expression "8o" (.name "o")) "Port.number" ∧
      portCatalog.TakesName (.record type) ⟨"ports"⟩ ∧
      portCatalog.materialize .strict raw (.record type) = .error direct ∧
      portCatalog.materializeNamed .strict (.record type) ⟨"ports"⟩ "Port"
        [("number", .scalar "8o")] = .error shorthand ∧
      portCatalog.materializeRoot .strict raw (.record type) =
        .error (.neitherForm raw (.record type) direct shorthand) := by
  let type : RecordType := ⟨"ports", "PortConfig"⟩
  let raw : Tree := .mapping [("Port", .mapping [("number", .scalar "8o")])]
  have htakes : portCatalog.TakesName (.record type) ⟨"ports"⟩ := .record rfl
  have hdirect : portCatalog.materialize .strict raw (.record type) =
      .error (.located (.missingField "number" "PortConfig") "") := by rfl
  have hnamed : portCatalog.materializeNamed .strict (.record type) ⟨"ports"⟩ "Port"
      [("number", .scalar "8o")] =
        .error (.located (.expression "8o" (.name "o")) "Port.number") := by rfl
  obtain ⟨hbehind, -⟩ :=
    (materializeRoot_refines portCatalog .strict raw (.record type)).2 _ hdirect
  exact ⟨type, raw, _, _, rfl, rfl, rfl, htakes, hdirect, hnamed,
    (hbehind ⟨"ports"⟩ "Port" _ htakes rfl).2 _ hnamed⟩

end ConfigTree.Catalog
