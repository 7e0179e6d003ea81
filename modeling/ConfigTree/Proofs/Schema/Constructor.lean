import ConfigTree.Proofs.Schema.Typing

/-! # What constructors answer

A constructor is any function of the fields of a record, and these hold the text of the place at
which the record stands.  Getters put that text into their errors; the question here is what else a
constructor does with it.

`Constructor.Refuses` says that a getter fails on the values of a record.  A constructor **fails by
getters** if it makes the same record at every place or refuses the values in this way at every
place.  It is **portable** if it may also report errors of its own, which are the same at every
place.  Most constructors only take fields one after the other, and fail by getters
(`failsByGetters_ofGetters`).
-/
namespace ConfigTree

open Schema

namespace Constructor

/-- **What a getter of a constructor refuses** among the values of a record, wherever the record
stands: a field is not there, or holds something else.  The way leads from the record to it. -/
inductive Refuses (construct : Constructor) (record : String) (values : Entries String Value) :
    Cause → Path → Prop where
  | missing {name : String} :
      (∀ place, construct ⟨record, place, values⟩ =
        .error (Fields.missing ⟨record, place, values⟩ name)) →
      Refuses construct record values (.missingField name record) []
  | mismatch {name : String} {cause : Mismatch} :
      name ∈ Entries.keys values →
      (∀ place, construct ⟨record, place, values⟩ =
        .error (Fields.mismatch ⟨record, place, values⟩ name cause)) →
      Refuses construct record values (.typeMismatch name cause.expected cause.found) [.key name]

/-- What a constructor does with the values of a record, wherever the record stands: it makes the
same record, or refuses the same field, or reports the same error of its own. -/
inductive Answers (construct : Constructor) (own : Error → Prop) (record : String)
    (values : Entries String Value) : Prop where
  | made {held : List (String × Value)} :
      (∀ place, construct ⟨record, place, values⟩ = .ok held) →
      Answers construct own record values
  | refused {cause : Cause} {way : Path} :
      construct.Refuses record values cause way → Answers construct own record values
  | failed {error : Error} :
      own error → (∀ place, construct ⟨record, place, values⟩ = .error error) →
      Answers construct own record values

/-- **The constructor fails by its getters only**, and nothing else in it tells of places. -/
def FailsByGetters (construct : Constructor) : Prop :=
  ∀ record values, construct.Answers (fun _ => False) record values

/-- The constructor has this error of its own, wherever a record stands. -/
def Reports (construct : Constructor) (error : Error) : Prop :=
  ∃ record values, ∀ place, construct ⟨record, place, values⟩ = .error error

/-- **The constructor does not depend on the place of the record**, but for what its getters
tell. -/
def IsPortable (construct : Constructor) : Prop :=
  ∀ record values, construct.Answers construct.Reports record values

variable {construct : Constructor} {own other : Error → Prop} {record : String}
  {values : Entries String Value}

theorem Answers.mono (h : construct.Answers own record values)
    (himp : ∀ error, own error → other error) : construct.Answers other record values := by
  cases h with
  | made h => exact .made h
  | refused h => exact .refused h
  | failed hown h => exact .failed (himp _ hown) h

theorem FailsByGetters.isPortable (h : construct.FailsByGetters) : construct.IsPortable :=
  fun record values => (h record values).mono fun _ => False.elim

/-- What fails by getters has no errors of its own: getters tell where the record stands. -/
theorem FailsByGetters.not_reports (h : construct.FailsByGetters) (error : Error) :
    ¬ construct.Reports error := by
  rintro ⟨record, values, herror⟩
  have hsame : construct ⟨record, "", values⟩ = construct ⟨record, "a", values⟩ :=
    (herror "").trans (herror "a").symm
  rcases h record values with hmade | hrefuses | ⟨⟨⟩, _⟩
  · cases (hmade "").symm.trans (herror "")
  · cases hrefuses with
    | missing hmissing => simp [hmissing, Fields.missing] at hsame
    | @mismatch name _ _ hmismatch =>
      have hplace : name = "a." ++ name := by
        simpa [hmismatch, Fields.mismatch, childName] using hsame
      simpa using congrArg String.length hplace

/-- A constructor that goes on as another one answers as that one does. -/
theorem Answers.of_eq_map {rest : Constructor} {left : Entries String Value}
    {f : List (String × Value) → List (String × Value)} (h : rest.Answers own record left)
    (hleft : ∀ name ∈ Entries.keys left, name ∈ Entries.keys values)
    (heq : ∀ place, construct ⟨record, place, values⟩ = (rest ⟨record, place, left⟩).map f) :
    construct.Answers own record values := by
  cases h with
  | made h => exact .made fun place => by rw [heq, h]; rfl
  | refused h =>
    cases h with
    | missing h => exact .refused (.missing fun place => by rw [heq, h]; rfl)
    | mismatch hname h =>
      exact .refused (.mismatch (hleft _ hname) fun place => by rw [heq, h]; rfl)
  | failed hown h => exact .failed hown fun place => by rw [heq, h]; rfl

/-- **Taking fields one after the other fails by getters.** -/
theorem failsByGetters_ofGetters (getters : List (String × Getter)) :
    (ofGetters getters).FailsByGetters := by
  intro record values
  induction getters generalizing values with
  | nil => exact .made fun _ => rfl
  | cons first rest ih =>
    obtain ⟨name, getter⟩ := first
    cases hget : Entries.get? values name with
    | some value =>
      cases hread : getter.request.read value with
      | error cause =>
        have hfails : ∀ place, ofGetters ((name, getter) :: rest) ⟨record, place, values⟩ =
            .error (Fields.mismatch ⟨record, place, values⟩ name cause) := fun place => by
          simp only [ofGetters, Fields.takeAll, Fields.take, hget, hread]
        exact .refused (.mismatch (List.mem_map_of_mem (Entries.mem_of_get? hget)) hfails)
      | ok held =>
        have hkeys : ∀ other ∈ Entries.keys (Entries.erase values name),
            other ∈ Entries.keys values := by
          intro other hother
          obtain ⟨entry, hentry, rfl⟩ := List.mem_map.mp hother
          exact List.mem_map_of_mem (Entries.mem_of_mem_erase hentry)
        refine (ih (Entries.erase values name)).of_eq_map (f := ((name, held) :: ·)) hkeys
          fun place => ?_
        simp only [ofGetters, Fields.takeAll, Fields.take, hget, hread]
        rfl
    | none =>
      cases habsence : getter.absence with
      | isMissing =>
        have hfails : ∀ place, ofGetters ((name, getter) :: rest) ⟨record, place, values⟩ =
            .error (Fields.missing ⟨record, place, values⟩ name) := fun place => by
          simp only [ofGetters, Fields.takeAll, Fields.take, hget, habsence]
        exact .refused (.missing hfails)
      | holds value =>
        refine (ih values).of_eq_map (f := ((name, value) :: ·)) (fun _ h => h) fun place => ?_
        simp only [ofGetters, Fields.takeAll, Fields.take, hget, habsence]
        rfl
      | isSkipped =>
        refine (ih values).of_eq_map (f := id) (fun _ h => h) fun place => ?_
        simp only [ofGetters, Fields.takeAll, Fields.take, hget, habsence, Except.map_id]
        rfl

end Constructor

namespace Catalog

/-! ### Constructors in reach -/

variable {catalog : Catalog} {own : Error → Prop}

/-- Every constructor in reach of the type answers, with errors of its own of this kind. -/
def ConstructorsAnswer (catalog : Catalog) (own : Error → Prop) (declared : DeclaredType) : Prop :=
  ∀ type, catalog.Produces declared type → ∀ record values,
    (catalog.definition type).construct.Answers own record values

theorem ConstructorsAnswer.field {declared : DeclaredType} {owner : RecordType} {spec : FieldSpec}
    (h : catalog.ConstructorsAnswer own declared) (hu : catalog.Uses declared owner)
    (hs : spec ∈ (catalog.schema owner).fields) : catalog.ConstructorsAnswer own spec.declared :=
  fun type ht => h type (.field hu hs ht)

/-- Some constructor in reach of the type has this error of its own. -/
def Reports (catalog : Catalog) (declared : DeclaredType) (error : Error) : Prop :=
  ∃ type, catalog.Produces declared type ∧ (catalog.definition type).construct.Reports error

theorem answers_of_isPortable {declared : DeclaredType}
    (h : ∀ type, catalog.Produces declared type →
      (catalog.definition type).construct.IsPortable) :
    catalog.ConstructorsAnswer (catalog.Reports declared) declared :=
  fun type ht record values => (h type ht record values).mono fun _ he => ⟨type, ht, he⟩

end Catalog

end ConfigTree
