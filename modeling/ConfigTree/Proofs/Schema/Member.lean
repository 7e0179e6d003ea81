import ConfigTree.Proofs.Schema.Agreement
import ConfigTree.Proofs.Schema.Placement
import ConfigTree.Proofs.Schema.Root

/-! # Two ways to name a member

A member of a family is named in a document by an entry of its mapping, or by a name in front of the
mapping.  What is then read is one and the same mapping, at two places: at the root, and behind the
name.  So the two documents have the same value, or both fail, and for one cause
(`materializeRoot_member`), if constructors do not depend on the places of their records.

The second document is read in the first way before it is read in the second, and never
successfully: as a mapping of fields it names no member.
-/
namespace ConfigTree.Catalog

open Schema

variable {catalog : Catalog} {coercion : IntegerCoercion} {family : Family} {name : String}
  {inner : List (String × Tree)}

/-- A member that is named among its fields. -/
def namedWithin (name : String) (inner : List (String × Tree)) : Tree :=
  .mapping ((moduleNameKey, .scalar name) :: inner)

/-- A member that is named in front of its fields. -/
def namedInFront (name : String) (inner : List (String × Tree)) : Tree :=
  .mapping [(name, .mapping inner)]

/-- The outcome of a whole document that names a member among its fields. -/
theorem materializeRoot_namedWithin (single : family.kind = .single) :
    catalog.materializeRoot coercion (namedWithin name inner) (.variant family) =
      catalog.makeVariant family ((moduleNameKey, .scalar name) :: inner)
        (catalog.readings coercion ((moduleNameKey, .scalar name) :: inner)) [] := by
  have hname : ∀ home other fields, catalog.TakesName (.variant family) home →
      namedWithin name inner ≠ .mapping [(other, .mapping fields)] := by
    intro home other fields _ h
    simp [namedWithin] at h
  rw [materializeRoot_eq_orNamed]
  rcases hdirect : catalog.materialize coercion (namedWithin name inner) (.variant family) with
    direct | value
  · rw [orNamed_of_not_named hname, ← hdirect, namedWithin, materialize, materializeAt,
      if_pos single]
  · rw [orNamed_of_ok, ← hdirect, namedWithin, materialize, materializeAt, if_pos single]

/-- What stands behind a name is no member as it stands. -/
theorem exists_materialize_namedInFront (single : family.kind = .single) :
    ∃ direct, catalog.materialize coercion (namedInFront name inner) (.variant family) =
      .error direct := by
  rw [namedInFront, materialize, materializeAt, if_pos single]
  by_cases hkey : name = moduleNameKey
  · simp [makeVariant, hkey]
  · simp [makeVariant, hkey]

/-- **The mapping behind a name is read as the one that holds the name is.**  Where it fails, it
does so at the record or in one of the fields. -/
theorem named_alike (coercion : IntegerCoercion) (inner : List (String × Tree))
    {own : Error → Prop} {entry : RegistryEntry}
    (answers : catalog.ConstructorsAnswer own (.variant family))
    (names : catalog.registry.Names family.home name entry) :
    Alike [] [.key name]
      (fun way => way = [] ∨
        ∃ spec ∈ (catalog.schema entry.record).fields, way.head? = some (.key spec.name)) own Eq
      (catalog.makeVariant family ((moduleNameKey, .scalar name) :: inner)
        (catalog.readings coercion ((moduleNameKey, .scalar name) :: inner)) [])
      (catalog.materializeNamed coercion (.variant family) family.home name inner) := by
  have hresolve := Registry.resolve_eq_ok_iff.mpr names
  have hwithin : catalog.makeVariant family ((moduleNameKey, .scalar name) :: inner)
      (catalog.readings coercion ((moduleNameKey, .scalar name) :: inner)) [] =
        catalog.makeMember entry family (catalog.readings coercion inner) [] := by
    simp only [makeVariant, Entries.get?_cons, if_true, hresolve, readings, Entries.erase]
  have hfront : catalog.materializeNamed coercion (.variant family) family.home name inner =
      catalog.makeMember entry family (catalog.readings coercion inner) [.key name] := by
    simp only [materializeNamed, hresolve]
  rw [hwithin, hfront]
  exact makeMember_alike (.inl rfl) names answers (entries_alike inner)
    fun spec hspec way => .inr ⟨spec, hspec, rfl⟩

/-- Behind a name, the text of a place is the one of a way with the name in front, unless it names a
field of a record whose own place has no text. -/
theorem textBehind_name (name : String) (way : Path) (field : Option String) :
    (∃ long : Path, Path.textBehind [] way field = long.dotted ∧
        Path.textBehind [.key name] way field = Path.dotted (.key name :: long)) ∨
      name = "" ∧ Path.textBehind [.key name] way field = Path.textBehind [] way field ∨
      way = [.key ""] ∧ Path.textBehind [.key name] way field =
        name ++ ".." ++ Path.textBehind [] way field := by
  rcases field with _ | field
  · exact .inl ⟨way, rfl, rfl⟩
  · by_cases hway : Path.Legible way
    · by_cases hname : Path.Legible (.key name :: way)
      · have hwithin : Path.Legible ([] ++ way) := hway
        have hfront : Path.Legible ([.key name] ++ way) := hname
        exact .inl ⟨way ++ [Segment.key field], hwithin.textBehind_eq (some field),
          hfront.textBehind_eq (some field)⟩
      · have hempty := Path.eq_of_not_legible hname
        simp only [List.cons.injEq, Segment.key.injEq] at hempty
        obtain ⟨rfl, rfl⟩ := hempty
        exact .inr (.inl ⟨rfl, rfl⟩)
    · obtain rfl := Path.eq_of_not_legible hway
      have hplace : Path.dotted [.key name, .key ""] = name ++ "." := by
        simp [Path.dotted, Segment.asKey]
      refine .inr (.inr ⟨rfl, ?_⟩)
      show childName (Path.dotted [.key name, .key ""]) field = name ++ ".." ++ childName "" field
      rw [hplace]
      simp [childName, String.append_assoc]

/-- **The two ways to name a member agree**, if constructors do not depend on the places of their
records.  Both documents have the same value, or both fail, and the second fails in both of its
readings.  Read with the name in front, it fails for the same cause as the first: if the name stands
for nothing, at no place, and else with the name in front of the place.  Where names are empty, the
place of a record can have an empty text, which its fields take for the root; and an error that a
constructor has of its own, with a place that it has put there, is kept as it is. -/
theorem materializeRoot_member (catalog : Catalog) (coercion : IntegerCoercion) (family : Family)
    (single : family.kind = .single)
    (portable : ∀ type, catalog.Produces (.variant family) type →
      (catalog.definition type).construct.IsPortable)
    (name : String) (inner : List (String × Tree)) :
    (∃ value,
      catalog.materializeRoot coercion (namedWithin name inner) (.variant family) = .ok value ∧
      catalog.materializeRoot coercion (namedInFront name inner) (.variant family) = .ok value) ∨
    ∃ within direct behind,
      catalog.materializeRoot coercion (namedWithin name inner) (.variant family) =
        .error within ∧
      catalog.materialize coercion (namedInFront name inner) (.variant family) = .error direct ∧
      catalog.materializeRoot coercion (namedInFront name inner) (.variant family) =
        .error (.neitherForm (namedInFront name inner) (.variant family) direct behind) ∧
      ((∀ entry, ¬ catalog.registry.Names family.home name entry) →
        within = .located (.unknownModule name family.home) "" ∧ behind = within) ∧
      ∀ entry, catalog.registry.Names family.home name entry →
        (∃ (cause : Cause) (way : Path), within = .located cause way.dotted ∧
          behind = .located cause (Path.dotted (.key name :: way))) ∨
        name = "" ∧ behind = within ∨
        (∃ cause place, (∃ spec ∈ (catalog.schema entry.record).fields, spec.name = "") ∧
          within = .located cause place ∧ behind = .located cause (name ++ ".." ++ place)) ∨
        (∀ cause, within ≠ .located cause "") ∧ catalog.Reports (.variant family) within ∧
          behind = within := by
  obtain ⟨direct, hdirect⟩ : ∃ direct, catalog.materialize coercion (namedInFront name inner)
      (.variant family) = .error direct := exists_materialize_namedInFront single
  have htakes : catalog.TakesName (.variant family) family.home := .variant single
  have hfront : catalog.materializeRoot coercion (namedInFront name inner) (.variant family) =
      catalog.orNamed coercion (namedInFront name inner) (.variant family) (.error direct) := by
    rw [materializeRoot_eq_orNamed, hdirect]
  rw [materializeRoot_namedWithin single, hfront]
  rcases hresolve : catalog.registry.resolve family.home name with cause | entry
  · obtain ⟨hunknown, rfl⟩ := Registry.resolve_eq_error_iff.mp hresolve
    refine .inr ⟨.located (.unknownModule name family.home) "", direct, _, ?_, hdirect,
      orNamed_of_neither htakes ?_, fun _ => ⟨rfl, rfl⟩,
      fun entry hentry => absurd hentry (hunknown entry)⟩
    · simp only [makeVariant, Entries.get?_cons, if_true, hresolve]
      rfl
    · simp only [materializeNamed, hresolve]
  · have hnames := Registry.resolve_eq_ok_iff.mp hresolve
    have hentry : ∀ other, catalog.registry.Names family.home name other → other = entry :=
      fun other hother =>
        Except.ok.inj ((Registry.resolve_eq_ok_iff.mpr hother).symm.trans hresolve)
    have h := named_alike coercion inner (answers_of_isPortable portable) hnames
    generalize catalog.makeVariant .. = within at h ⊢
    generalize hbehind : catalog.materializeNamed .. = behind at h
    rcases h with rfl | @⟨way, field, cause, hway⟩ | ⟨hown, hplace⟩
    · exact .inl ⟨_, rfl, orNamed_of_named htakes hbehind⟩
    · refine .inr ⟨_, direct, _, rfl, hdirect, orNamed_of_neither htakes hbehind,
        fun hunknown => absurd hnames (hunknown entry), fun other hother => ?_⟩
      rw [hentry other hother]
      rcases textBehind_name name way field with
        ⟨long, hlong, htext⟩ | ⟨hname, htext⟩ | ⟨rfl, htext⟩
      · exact .inl ⟨cause, long, by rw [hlong], by rw [htext]⟩
      · exact .inr (.inl ⟨hname, by rw [htext]⟩)
      · rcases hway with hnil | ⟨spec, hspec, hhead⟩
        · cases hnil
        · have hempty : spec.name = "" := (Segment.key.inj (Option.some.inj hhead)).symm
          exact .inr (.inr (.inl ⟨cause, _, ⟨spec, hspec, hempty⟩, rfl, by rw [htext]⟩))
    · exact .inr ⟨_, direct, _, rfl, hdirect, orNamed_of_neither htakes hbehind,
        fun hunknown => absurd hnames (hunknown entry),
        fun _ _ => .inr (.inr (.inr ⟨hplace, hown, rfl⟩))⟩

/-- Shapes, of which one at a time is used. -/
def shapeFamily : Family := ⟨"lab", "Shape", ⟨"lab"⟩, .single⟩

/-- Squares are shapes.  A square has a field, of whatever name, that holds its extent, and an
extent has a width. -/
def shapeCatalog (field : String) : Catalog :=
  let square : RecordType := ⟨"lab", "Square"⟩
  let extent : RecordType := ⟨"lab", "Extent"⟩
  { definition := fun type =>
      if type = square then
        { schema := ⟨"Square", some ⟨"lab"⟩, [⟨field, .record extent, true, none⟩]⟩
          construct := .ofGetters [(field, ⟨.record extent, .isMissing⟩)]
          leaf := none }
      else
        { schema := ⟨"Extent", none, [⟨"width", .int, true, none⟩]⟩
          construct := .ofGetters [("width", ⟨.primitive (.integer .unsigned32), .isMissing⟩)]
          leaf := none }
    registry := Registry.registerVariant [] shapeFamily square }

/-- A width that is too small, behind a name. -/
theorem materializeRoot_member_tooSmall :
    ∃ (inner : List (String × Tree)) (direct : Error) (cause : Cause) (behind : String),
      shapeFamily.kind = .single ∧
      (∀ type, (shapeCatalog "extent").Produces (.variant shapeFamily) type →
        ((shapeCatalog "extent").definition type).construct.IsPortable) ∧
      inner = [("extent", .mapping [("width", .scalar "-1")])] ∧
      cause = .typeMismatch "width" "u32" "int -1 out of range" ∧
      (shapeCatalog "extent").materializeRoot .strict (namedWithin "Square" inner)
        (.variant shapeFamily) = .error (.located cause "extent.width") ∧
      (shapeCatalog "extent").materializeRoot .strict (namedInFront "Square" inner)
        (.variant shapeFamily) =
          .error (.neitherForm (namedInFront "Square" inner) (.variant shapeFamily) direct
            (.located cause behind)) ∧
      behind = "Square.extent.width" := by
  let inner : List (String × Tree) := [("extent", .mapping [("width", .scalar "-1")])]
  let entry : RegistryEntry :=
    ⟨"Square", ⟨"lab", "Square"⟩, [(shapeFamily, ⟨"lab", "Square"⟩)]⟩
  have hgetters : ∀ type, ((shapeCatalog "extent").definition type).construct.FailsByGetters := by
    intro type
    unfold shapeCatalog
    dsimp only
    split <;> exact Constructor.failsByGetters_ofGetters _
  have hportable : ∀ type, (shapeCatalog "extent").Produces (.variant shapeFamily) type →
      ((shapeCatalog "extent").definition type).construct.IsPortable :=
    fun type _ => (hgetters type).isPortable
  have hwithin : (shapeCatalog "extent").materializeRoot .strict (namedWithin "Square" inner)
      (.variant shapeFamily) =
        .error (.located (.typeMismatch "width" "u32" "int -1 out of range") "extent.width") := by
    rfl
  rcases materializeRoot_member (shapeCatalog "extent") .strict shapeFamily rfl hportable "Square"
      inner with ⟨value, hvalue, -⟩ | ⟨within, direct, behind, herror, -, hfront, -, hnamed⟩
  · rw [hwithin] at hvalue
    cases hvalue
  · obtain rfl : _ = within := Except.error.inj (hwithin.symm.trans herror)
    have hfields : ¬ ∃ spec ∈ ((shapeCatalog "extent").schema entry.record).fields,
        spec.name = "" := by decide
    -- No name is empty, and no constructor has errors of its own.
    rcases hnamed entry (.inl rfl) with
      ⟨cause, way, hplace, rfl⟩ | ⟨hempty, -⟩ | ⟨_, _, hunnamed, -⟩ | ⟨-, ⟨type, -, hown⟩, -⟩
    · obtain ⟨rfl, hway⟩ : _ = cause ∧ "extent.width" = way.dotted := by simpa using hplace
      have hne : way ≠ [] := by
        rintro rfl
        exact absurd hway (by decide)
      rw [← List.singleton_append, Path.dotted_append (by simp) hne, ← hway] at hfront
      exact ⟨inner, direct, _, _, rfl, hportable, rfl, rfl, hwithin, hfront, rfl⟩
    · exact absurd hempty (by decide)
    · exact absurd hunnamed hfields
    · exact absurd hown ((hgetters type).not_reports _)

/-- Squares without fields. -/
def flatCatalog (construct : Constructor) : Catalog :=
  { shapeCatalog "extent" with
    definition := fun _ =>
      { schema := ⟨"Square", some ⟨"lab"⟩, []⟩, construct := construct, leaf := none } }

/-- Refuses every square, with a place of its own choice. -/
def refusesSquare : Constructor := fun _ => .error (.located (.notABool "flat") "shape")

/-- Makes squares at the root only. -/
def rootSquare : Constructor :=
  fun fields => if fields.place = "" then .ok [] else .error (fields.missing "extent")

/-- **Two places without the name in front.**  If a field has no name, the width in it is called by
its own name alone, as a field of the root is, and behind the name of the member the text is not the
one with that name in front.  And a place that a constructor has put into its own error stays what
it is.  Where a constructor depends on the place of its record, one of the two ways can fail while
the other one does not. -/
theorem materializeRoot_member_unprefixed :
    shapeFamily.kind = .single ∧
    (∃ (inner : List (String × Tree)) (direct : Error) (cause : Cause),
      moduleNameKey ∉ Entries.keys inner ∧
      (shapeCatalog "").materializeRoot .strict (namedWithin "Square" inner)
        (.variant shapeFamily) = .error (.located cause "width") ∧
      (shapeCatalog "").materializeRoot .strict (namedInFront "Square" inner)
        (.variant shapeFamily) =
          .error (.neitherForm (namedInFront "Square" inner) (.variant shapeFamily) direct
            (.located cause "Square..width")) ∧
      ∀ way : Path, way.dotted = "width" →
        Path.dotted (.key "Square" :: way) ≠ "Square..width") ∧
    (∃ (direct : Error) (cause : Cause),
      (flatCatalog refusesSquare).materializeRoot .strict (namedWithin "Square" [])
        (.variant shapeFamily) = .error (.located cause "shape") ∧
      (flatCatalog refusesSquare).materializeRoot .strict (namedInFront "Square" [])
        (.variant shapeFamily) =
          .error (.neitherForm (namedInFront "Square" []) (.variant shapeFamily) direct
            (.located cause "shape")) ∧
      ∀ way : Path, way.dotted = "shape" → Path.dotted (.key "Square" :: way) ≠ "shape") ∧
    ∃ (value : Value) (error : Error),
      (flatCatalog rootSquare).materializeRoot .strict (namedWithin "Square" [])
        (.variant shapeFamily) = .ok value ∧
      (flatCatalog rootSquare).materializeRoot .strict (namedInFront "Square" [])
        (.variant shapeFamily) = .error error := by
  -- Behind the name stands the text of the way, since the way has one.
  have hbehind : ∀ {way : Path} {place : String}, way.dotted = place → place ≠ "" →
      Path.dotted (.key "Square" :: way) = "Square." ++ place := by
    rintro way _ rfl hplace
    have hne : way ≠ [] := fun he => hplace (he ▸ rfl)
    rw [← List.singleton_append, Path.dotted_append (by simp) hne, Path.dotted_singleton]
    rfl
  refine ⟨rfl, ⟨[("", .mapping [("width", .scalar "-1")])],
      .located (.missingModuleName shapeFamily) "",
      .typeMismatch "width" "u32" "int -1 out of range",
      by decide, by rfl, by rfl, fun way hway => ?_⟩,
    ⟨.located (.missingModuleName shapeFamily) "", .notABool "flat", by rfl, by rfl,
      fun way hway => ?_⟩, ⟨_, _, by rfl, by rfl⟩⟩
  · rw [hbehind hway (by decide)]
    decide
  · rw [hbehind hway (by decide)]
    decide

end Catalog

end ConfigTree
