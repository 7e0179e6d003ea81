import ConfigTree.Proofs.Schema.FirstFailure
import ConfigTree.Proofs.Schema.Rereading

/-! # What constructors refuse

The schema of a record and its constructor say twice what its fields are.  A catalog is `Attuned` if
the constructor asks for no more than the schema promises, except that it may hold an integer in a
smaller range.

In such a catalog **the only thing that a constructor refuses is an integer out of its range**
(`Attuned.exists_of_refuses`): no field is missing that it needs, and no value is of another type
than the one it is taken for.  So an error tells what is in the document
(`justifies_of_recordOfTree`): where an integer is refused there is one that is out of range, and
where a field is missing it is missing in the mapping at that place.
-/
namespace ConfigTree

open Schema

/-! ### Values of the declared type -/

/-- Is every key of the declared type a key of this type? -/
def KeyType.IsTotal : KeyType → Bool
  | .integer range => range = .signed64
  | _ => true

/-- Does a field of this type hold every value of the declared type? -/
def FieldType.IsTotal : FieldType → Bool
  | .integer range => range = .signed64
  | .list element => element.IsTotal
  | .map _ key value => key.IsTotal && value.IsTotal
  | _ => true

/-- Is every value of the declared type taken? -/
def Request.IsTotal : Request → Bool
  | .primitive type => type.IsTotal
  | _ => true

/-- If each item has an outcome, so have all of them. -/
theorem exists_mapM_eq_ok {ε α β : Type} {f : α → Except ε β} {as : List α}
    (h : ∀ a ∈ as, ∃ b, f a = .ok b) : ∃ bs, as.mapM f = .ok bs := by
  simp only [mapM_eq_ok_iff]
  exact exists_forall₂_iff.mpr h

section Typed

variable {catalog : Catalog} {coercion : IntegerCoercion} {place : Path} {tree : Tree}
  {value : Value}

theorem exists_of_typed_str (h : catalog.Typed coercion place tree .str value) :
    ∃ text, value = .str text := by
  cases h with
  | scalar hread =>
    cases hread
    exact ⟨_, rfl⟩

theorem exists_of_typed_bool (h : catalog.Typed coercion place tree .bool value) :
    ∃ b, value = .bool b := by
  cases h with
  | scalar hread =>
    simp only [readScalar?, Option.some.injEq] at hread
    split at hread
    · cases hread
      exact ⟨_, rfl⟩
    · cases hread

theorem IntegerRange.exists_read_of_typed {range : IntegerRange} (hrange : range = .signed64)
    (h : catalog.Typed coercion place tree .int value) : ∃ i, range.read value = .ok i := by
  obtain ⟨i, rfl, hi⟩ := FieldType.exists_of_typed_int h
  exact ⟨i, by rw [IntegerRange.read, hrange, if_pos hi]⟩

theorem KeyType.exists_read_of_typed {key : KeyType} (htotal : key.IsTotal = true)
    (h : catalog.Typed coercion place tree key.declared value) : ∃ k, key.read value = .ok k := by
  cases key with
  | integer range =>
    obtain ⟨i, hi⟩ := range.exists_read_of_typed (by simpa [IsTotal] using htotal) h
    exact ⟨.int i, by rw [read, hi]; rfl⟩
  | str =>
    obtain ⟨text, rfl⟩ := exists_of_typed_str h
    exact ⟨_, rfl⟩
  | bool =>
    obtain ⟨b, rfl⟩ := exists_of_typed_bool h
    exact ⟨_, rfl⟩

/-- **A value of the declared type is taken**, if all of them are. -/
theorem FieldType.exists_read_of_typed {type : FieldType} (htotal : type.IsTotal = true)
    (h : catalog.Typed coercion place tree type.declared value) :
    ∃ held, type.read value = .ok held := by
  induction type generalizing tree value with
  | any => exact ⟨value, rfl⟩
  | integer range =>
    obtain ⟨i, hi⟩ := range.exists_read_of_typed (by simpa [IsTotal] using htotal) h
    exact ⟨.int i, by rw [read, hi]; rfl⟩
  | float format =>
    obtain ⟨x, rfl, -⟩ := exists_of_typed_float h
    exact ⟨_, rfl⟩
  | str =>
    obtain ⟨text, rfl⟩ := exists_of_typed_str h
    exact ⟨_, rfl⟩
  | bool =>
    obtain ⟨b, rfl⟩ := exists_of_typed_bool h
    exact ⟨_, rfl⟩
  | list element ih =>
    cases tree with
    | scalar text => cases Catalog.typed_scalar_iff.mp h
    | mapping entries => cases h
    | sequence items =>
      obtain ⟨values, htyped, rfl⟩ := (Catalog.typed_list_iff element.isPrimitive_declared).mp h
      obtain ⟨held, hheld⟩ := exists_mapM_eq_ok
        (forall_mem_of_forall₂ (fun item _ value hitem => ih htotal hitem) htyped)
      exact ⟨.list held, by rw [read, hheld]; rfl⟩
  | map order key element ih =>
    obtain ⟨hkey, helement⟩ : key.IsTotal = true ∧ element.IsTotal = true := by
      simpa [IsTotal] using htotal
    have hscalar : key.declared.isScalar = true := by cases key <;> rfl
    cases tree with
    | scalar text => cases Catalog.typed_scalar_iff.mp h
    | sequence items => cases h
    | mapping entries =>
      obtain ⟨pairs, htyped, rfl⟩ :=
        (Catalog.typed_map_iff hscalar element.isPrimitive_declared).mp h
      have hpairs : ∀ pair ∈ pairs, ∃ entry,
          (do return (← key.read pair.1, ← element.read pair.2)) = Except.ok entry := by
        refine forall_mem_of_forall₂ (fun entry _ pair hpair => ?_) htyped
        obtain ⟨k, hk⟩ := key.exists_read_of_typed hkey hpair.1
        obtain ⟨v, hv⟩ := ih helement hpair.2
        exact ⟨(k, v), by rw [hk, hv]; rfl⟩
      obtain ⟨held, hheld⟩ := exists_mapM_eq_ok hpairs
      exact ⟨collect order held, by rw [read]; exact congrArg (Except.map (collect order)) hheld⟩

/-- Members of families and records are taken for what they were made as. -/
theorem Request.exists_read_of_typed {request : Request} (htotal : request.IsTotal = true)
    (h : catalog.Typed coercion place tree request.declared value) :
    ∃ held, request.read value = .ok held := by
  have hmember : ∀ {family place tree value}, catalog.Member coercion place family tree value →
      ∃ held, Request.member family value = .ok held := by
    rintro family place tree value ⟨⟩
    exact ⟨_, by simp [Request.member, Request.unbox]; rfl⟩
  cases request with
  | primitive type => exact type.exists_read_of_typed htotal h
  | record type =>
    cases h with
    | scalar hread => cases hread
    | record _ _ => exact ⟨_, by simp [Request.read, Request.unbox]; rfl⟩
  | variant family =>
    cases h with
    | scalar hread => cases hread
    | variant _ h => exact hmember h
  | variants family =>
    cases h with
    | scalar hread => cases hread
    | list hp _ _ => cases hp
    | variants hmulti hlength hmembers =>
      obtain ⟨values, hall, ⟨⟩⟩ :=
        (Catalog.typed_variants_iff hmulti).mp (.variants hmulti hlength hmembers)
      obtain ⟨held, hheld⟩ :=
        exists_mapM_eq_ok (forall_mem_of_forall₂ (fun item _ value h => hmember h) hall)
      exact ⟨.list held, by rw [Request.read, hheld]; rfl⟩

end Typed

/-! ### Causes and errors -/

/-- Is the cause about a field of a record? -/
def Schema.Cause.isOfField : Cause → Bool
  | .missingField _ _ => true
  | .typeMismatch _ _ _ => true
  | _ => false

/-- The causes that an error reports, each with its place: an error of both forms reports those of
either. -/
inductive Schema.Error.Reports : Error → Cause → String → Prop where
  | located {cause : Cause} {place : String} : Reports (.located cause place) cause place
  | direct {raw : Tree} {declared : DeclaredType} {direct shorthand : Error} {cause : Cause}
      {place : String} :
      Reports direct cause place → Reports (.neitherForm raw declared direct shorthand) cause place
  | shorthand {raw : Tree} {declared : DeclaredType} {direct shorthand : Error} {cause : Cause}
      {place : String} :
      Reports shorthand cause place →
      Reports (.neitherForm raw declared direct shorthand) cause place

/-! ### Constructors -/

/-- If no field is missing that has to be there, taking fields fails for a value that is there. -/
theorem Fields.exists_of_takeAll_eq_error {getters : Entries String Getter} {fields : Fields}
    {error : Error} (h : fields.takeAll getters = .error error)
    (hnames : Entries.NodupKeys getters)
    (hthere : ∀ getter ∈ getters, getter.2.absence = .isMissing →
      Entries.get? fields.values getter.1 ≠ none) :
    ∃ name getter value mismatch, (name, getter) ∈ getters ∧
      Entries.get? fields.values name = some value ∧
      getter.request.read value = .error mismatch ∧ error = fields.mismatch name mismatch := by
  induction getters generalizing fields with
  | nil => cases h
  | cons first rest ih =>
    obtain ⟨name, getter⟩ := first
    have hname : name ∉ Entries.keys rest := (List.nodup_cons.mp hnames).1
    have hrest : Entries.NodupKeys rest := (List.nodup_cons.mp hnames).2
    obtain ⟨hfirst, hothers⟩ := List.forall_mem_cons.mp hthere
    cases hget : Entries.get? fields.values name with
    | some value =>
      cases hread : getter.request.read value with
      | error mismatch =>
        simp only [takeAll, take, hget, hread] at h
        cases h
        exact ⟨name, getter, value, mismatch, List.mem_cons_self .., hget, hread, rfl⟩
      | ok held =>
        simp only [takeAll, take, hget, hread] at h
        rcases bind_eq_error_iff.mp h with h | ⟨_, _, ⟨⟩⟩
        -- The other fields are still there when this one has been taken.
        have hkept : ∀ other ∈ rest, Entries.get? (fields.erase name).values other.1 =
            Entries.get? fields.values other.1 := by
          intro other ho
          exact Entries.get?_erase_of_ne fun he => hname (he ▸ List.mem_map_of_mem ho)
        obtain ⟨field, other, given, mismatch, ho, hgiven, hfails, herror⟩ :=
          ih h hrest fun other ho habsence => hkept other ho ▸ hothers other ho habsence
        exact ⟨field, other, given, mismatch, List.mem_cons_of_mem _ ho, hkept _ ho ▸ hgiven,
          hfails, herror⟩
    | none =>
      -- Nothing is taken, so the rest fails on the same fields.
      have hlater : fields.takeAll rest = .error error := by
        cases habsence : getter.absence with
        | isMissing => exact absurd hget (hfirst habsence)
        | holds value =>
          simp only [takeAll, take, hget, habsence] at h
          exact (bind_eq_error_iff.mp h).resolve_right (by rintro ⟨_, _, ⟨⟩⟩)
        | isSkipped => simpa only [takeAll, take, hget, habsence] using h
      obtain ⟨field, other, given, mismatch, ho, hfails⟩ := ih hlater hrest hothers
      exact ⟨field, other, given, mismatch, List.mem_cons_of_mem _ ho, hfails⟩

namespace Catalog

/-- **Of which type a record is made from the fields of which type**: of the same, or of the one
that is registered for a family, from the fields of the one that the name stands for. -/
inductive Makes (catalog : Catalog) : RecordType → RecordType → Prop where
  | record (type : RecordType) : Makes catalog type type
  | member {family : Family} {name : String} {entry : RegistryEntry} {type : RecordType} :
      catalog.registry.Names family.home name entry → entry.made? family = some type →
      Makes catalog entry.record type

/-- The record type holds this field in a range of integers. -/
def Narrows (getters : RecordType → Entries String Getter) (type : RecordType) (field : String)
    (range : IntegerRange) : Prop :=
  ∃ getter, (field, getter) ∈ getters type ∧
    getter.request = .primitive (.integer range)

/-- **The constructor asks for no more than the schema promises**, but for the ranges of
integers. -/
structure AttunedDefinition (schema : Schema) (own : Entries String Getter) : Prop where
  taken : ∀ getter ∈ own,
    getter.2.request.IsTotal = true ∨ ∃ range, getter.2.request = .primitive (.integer range)
  promised : ∀ getter ∈ own, getter.2.absence = .isMissing →
    ∃ spec ∈ schema.fields, spec.name = getter.1 ∧ spec.required = true
  named : ∀ spec ∈ schema.fields, spec.name ≠ ""

/-- **Constructors ask for no more than their schemas promise**, but for the ranges of integers. -/
structure Attuned (catalog : Catalog) (getters : RecordType → Entries String Getter) : Prop
    extends catalog.Regular getters where
  attuned : ∀ type, AttunedDefinition (catalog.schema type) (getters type)
  /-- The empty name stands for nothing. -/
  unnamed : ∀ home entry, ¬ catalog.registry.Names home "" entry

/-- **A cause that is evident from the tree**, at the end of the way.  A field that is said to be
missing is missing there, and where the type of a field does not match, the text there is an integer
out of the range in which the field is held.  All other causes are left open. -/
inductive Evident (getters : RecordType → Entries String Getter) (coercion : IntegerCoercion)
    (tree : Tree) : Cause → Path → Prop where
  | missing {field record : String} {entries : List (String × Tree)} {way : Path} :
      field ≠ moduleNameKey → tree.at? way = some (.mapping entries) →
      Entries.get? entries field = none →
      Evident getters coercion tree (.missingField field record) way
  | outOfRange {type : RecordType} {field text : String} {range : IntegerRange} {i : Int}
      {way : Path} :
      Narrows getters type field range →
      tree.at? (way ++ [.key field]) = some (.scalar text) → readInt coercion text = .ok i →
      range.contains i = false →
      Evident getters coercion tree
        (.typeMismatch field range.name ("int " ++ Text.showInt i ++ " out of range"))
        (way ++ [.key field])
  | other {cause : Cause} {way : Path} :
      cause.isOfField = false → Evident getters coercion tree cause way

variable {catalog : Catalog} {getters : RecordType → Entries String Getter}
  {coercion : IntegerCoercion}

/-! ### What constructors refuse -/

/-- What a field holds in its type is taken, but for integers out of its range. -/
theorem Attuned.exists_of_read_eq_error (hc : catalog.Attuned getters) {type : RecordType}
    {field : String} {getter : Getter} (hg : (field, getter) ∈ getters type) {tree : Tree}
    {value : Value} {mismatch : Mismatch}
    (ht : catalog.Typed coercion place tree getter.request.declared value)
    (hread : getter.request.read value = .error mismatch) :
    ∃ range text i, Narrows getters type field range ∧ tree = .scalar text ∧
      readInt coercion text = .ok i ∧ range.contains i = false ∧
      mismatch = ⟨range.name, "int " ++ Text.showInt i ++ " out of range"⟩ := by
  rcases (hc.attuned type).taken _ hg with htotal | ⟨range, hrequest⟩
  · obtain ⟨held, hheld⟩ := Request.exists_read_of_typed htotal ht
    rw [hheld] at hread
    cases hread
  · rw [show getter.request = _ from hrequest] at ht hread
    cases tree with
    | scalar text =>
      have hvalue : (readInt coercion text).map Value.int = .ok value :=
        Option.some.inj (typed_scalar_iff.mp ht)
      obtain ⟨i, hi, rfl⟩ := map_eq_ok_iff.mp hvalue
      have hinteger : (range.read (.int i)).map Value.int = .error mismatch := hread
      rw [IntegerRange.read] at hinteger
      split at hinteger
      · cases hinteger
      · next hrange =>
        cases hinteger
        exact ⟨range, text, i, ⟨getter, hg, hrequest⟩, rfl, hi, by simpa using hrange, rfl⟩
    | sequence items => cases ht
    | mapping entries => cases ht

/-- **A constructor fails for an integer out of its range only**, whichever fields it is given. -/
theorem Attuned.exists_of_construct_eq_error (hc : catalog.Attuned getters)
    {owner made : RecordType} (hmakes : catalog.Makes owner made) {entries : List (String × Tree)}
    {place : Path} {fields : Fields} {error : Error}
    (hfields : catalog.fieldsOf owner (catalog.readings coercion entries) place = .ok fields)
    (h : (catalog.definition made).construct fields = .error error) :
    ∃ field range text i, Narrows getters made field range ∧
      Entries.get? entries field = some (.scalar text) ∧ readInt coercion text = .ok i ∧
      range.contains i = false ∧
      error = fields.mismatch field ⟨range.name, "int " ++ Text.showInt i ++ " out of range"⟩ := by
  obtain rfl : owner = made := by
    cases hmakes with
    | record => rfl
    | member hnames hmade => exact (hc.members _ _ _ _ hnames hmade).1
  have hdistinct : (catalog.schema owner).DistinctFields :=
    hc.wellDeclared (.record owner) owner (.record owner)
  have hholds : catalog.Holds coercion place (catalog.schema owner) entries fields.values :=
    holds_of_fieldsOf hdistinct (fun entry _ spec _ => agrees entry.2 _ (hc.wellDeclared _)) hfields
  have hkeys := hholds.contains_iff
  obtain ⟨-, hrequired, htyped⟩ := hholds
  have hthere : ∀ getter ∈ getters owner, getter.2.absence = .isMissing →
      Entries.get? fields.values getter.1 ≠ none := by
    intro getter hg habsence
    obtain ⟨spec, hs, hname, hreq⟩ := (hc.attuned owner).promised getter hg habsence
    have hcontains := (hkeys spec.name).mpr ⟨List.mem_map_of_mem hs, hrequired spec hs hreq⟩
    rw [← hname]
    exact Option.isSome_iff_ne_none.mp hcontains
  rw [(hc.definition owner).construct] at h
  obtain ⟨field, getter, value, mismatch, hg, hget, hread, rfl⟩ :=
    Fields.exists_of_takeAll_eq_error h (hc.nodupKeys_getters owner) hthere
  obtain ⟨spec, hs, rfl, hdeclared⟩ := hc.exists_spec hg
  have hcontains := (hkeys spec.name).mp (by simp [Entries.contains, hget])
  obtain ⟨child, hchild⟩ := Option.isSome_iff_exists.mp hcontains.2
  have ht := htyped spec hs child value hchild hget
  rw [hdeclared] at ht
  obtain ⟨range, text, i, hnarrows, rfl, hi, hrange, rfl⟩ := hc.exists_of_read_eq_error hg ht hread
  exact ⟨spec.name, range, text, i, hnarrows, hchild, hi, hrange, rfl⟩

/-- **The only thing that a constructor refuses is an integer out of its range.** -/
theorem Attuned.exists_of_refuses (hc : catalog.Attuned getters) {type : RecordType}
    {entries : List (String × Tree)} {place : Path} {fields : Fields} {cause : Cause} {way : Path}
    (hfields : catalog.fieldsOf type (catalog.readings coercion entries) place = .ok fields)
    (h : (catalog.definition type).construct.Refuses (catalog.schema type).name fields.values
      cause way) :
    ∃ field range text i, Narrows getters type field range ∧
      Entries.get? entries field = some (.scalar text) ∧ readInt coercion text = .ok i ∧
      range.contains i = false ∧
      cause = .typeMismatch field range.name ("int " ++ Text.showInt i ++ " out of range") ∧
      way = [.key field] := by
  have hplace := eq_of_fieldsOf hfields
  cases h with
  | missing hmissing =>
    have herror := hmissing place.dotted
    rw [← hplace] at herror
    obtain ⟨_, _, _, _, -, -, -, -, hmismatch⟩ :=
      hc.exists_of_construct_eq_error (.record type) hfields herror
    cases hmismatch
  | mismatch _ hmismatch =>
    have herror := hmismatch place.dotted
    rw [← hplace] at herror
    obtain ⟨field, range, text, i, hnarrows, hget, hi, hrange, hsame⟩ :=
      hc.exists_of_construct_eq_error (.record type) hfields herror
    obtain ⟨hcause, -⟩ := Error.located.inj hsame
    obtain ⟨rfl, -, -⟩ := Cause.typeMismatch.inj hcause
    exact ⟨_, range, text, i, hnarrows, hget, hi, hrange, hcause, rfl⟩

/-! ### Causes and the tree -/

theorem Regular.name_ne_moduleNameKey (hc : catalog.Regular getters) {type : RecordType}
    {spec : FieldSpec} (hs : spec ∈ (catalog.schema type).fields) : spec.name ≠ moduleNameKey := by
  rintro he
  have hmem : spec.name ∈ Entries.keys (getters type) := by
    rw [← hc.fieldNames_eq]
    exact List.mem_map_of_mem hs
  exact (List.nodup_cons.mp (hc.definition type).names).1 (he ▸ hmem)

/-- What is evident from a part of the tree is evident from the tree. -/
theorem Evident.below {tree child : Tree} {segment : Segment} {cause : Cause} {way : Path}
    (hat : ∀ way, tree.at? (segment :: way) = child.at? way)
    (h : Evident getters coercion child cause way) :
    Evident getters coercion tree cause (segment :: way) := by
  cases h with
  | missing hfield hnode hget => exact .missing hfield ((hat _).trans hnode) hget
  | @outOfRange _ field _ _ _ way hnarrows hnode hi hrange =>
    have hnode : tree.at? ((segment :: way) ++ [.key field]) = _ := (hat _).trans hnode
    exact .outOfRange hnarrows hnode hi hrange
  | other hcause => exact .other hcause

theorem Evident.of_mem {entries : List (String × Tree)} {name : String} {child : Tree}
    {cause : Cause} {way : Path} (hvalid : (Tree.mapping entries).Valid)
    (hmem : (name, child) ∈ entries)
    (h : child.Valid → Evident getters coercion child cause way) :
    Evident getters coercion (.mapping entries) cause (.key name :: way) :=
  (h (Tree.validEntries_iff.mp hvalid.2 _ hmem)).below fun _ =>
    at?_entry ((Entries.get?_eq_some_iff hvalid.1).mpr hmem)

/-- The name of a member is no field of it. -/
theorem Evident.of_erase {entries : List (String × Tree)} {cause : Cause} {way : Path}
    (hnodup : Entries.NodupKeys entries)
    (h : Evident getters coercion (.mapping (Entries.erase entries moduleNameKey)) cause way) :
    Evident getters coercion (.mapping entries) cause way := by
  cases h with
  | missing hfield hnode hget =>
    by_cases hway : way = []
    · subst hway
      rw [Tree.at?_nil] at hnode
      cases hnode
      rw [Entries.get?_erase_of_ne (Ne.symm hfield)] at hget
      exact .missing hfield (Tree.at?_nil _) hget
    · exact .missing hfield (at?_of_erase hnodup hway hnode) hget
  | outOfRange hnarrows hnode hi hrange =>
    exact .outOfRange hnarrows (at?_of_erase hnodup (by simp) hnode) hi hrange
  | other hcause => exact .other hcause

theorem isOfField_of_readNumber {text : String} {cause : Cause}
    (h : readNumber text = .error cause) : cause.isOfField = false := by
  unfold readNumber at h
  split at h <;> cases h
  rfl

theorem isOfField_of_readInt {text : String} {cause : Cause}
    (h : readInt coercion text = .error cause) : cause.isOfField = false := by
  unfold readInt at h
  rcases hread : readNumber text with fault | i | x
  · rw [hread] at h
    cases h
    exact isOfField_of_readNumber hread
  · rw [hread] at h
    cases h
  · rw [hread] at h
    have hinteger : integerOf coercion x = .error cause := h
    unfold integerOf at hinteger
    split at hinteger
    · cases hinteger
      rfl
    · split at hinteger <;> cases hinteger
      rfl

theorem isOfField_of_readScalar? {text : String} {declared : DeclaredType} {cause : Cause}
    (h : readScalar? coercion text declared = some (.error cause)) : cause.isOfField = false := by
  cases declared with
  | int => exact isOfField_of_readInt (map_eq_error_iff.mp (Option.some.inj h))
  | float => exact isOfField_of_readNumber (map_eq_error_iff.mp (Option.some.inj h))
  | bool =>
    have hbool := Option.some.inj h
    split at hbool <;> cases hbool
    rfl
  | _ => cases h

/-- A scalar has no fields. -/
theorem Fails.isOfField_of_scalar {text : String} {declared : DeclaredType} {cause : Cause}
    {way : Path} (h : catalog.Fails coercion (.scalar text) declared cause way) :
    cause.isOfField = false := by
  cases h with
  | shape _ => rfl
  | text hread => exact isOfField_of_readScalar? hread

mutual
/-- **The cause of a failure is evident from the tree.** -/
theorem Fails.evident (hc : catalog.Attuned getters) {tree : Tree} {declared : DeclaredType}
    {cause : Cause} {way : Path} : catalog.Fails coercion tree declared cause way → tree.Valid →
      Evident getters coercion tree cause way
  | .shape _, _ => .other rfl
  | .text hread, _ => .other (isOfField_of_readScalar? hread)
  | .item _ _ hfails, hvalid =>
    (hfails.evident hc (Tree.validItems_iff.mp hvalid _ (by simp))).below fun _ => at?_item
  | .key _ _ _ hfails, _ => .other hfails.isOfField_of_scalar
  | .entry _ _ _ _ hfails, hvalid =>
    .of_mem hvalid (List.mem_append_right _ (List.mem_cons_self ..)) (hfails.evident hc)
  | .record hfails, hvalid => hfails.evident hc rfl hvalid
  | .variant _ hfails, hvalid => hfails.evident hc hvalid
  | .element _ _ _, _ => .other rfl
  | .member _ _ hfails, hvalid =>
    (hfails.evident hc (Tree.validItems_iff.mp hvalid _ (by simp))).below fun _ => at?_item

theorem RecordFails.evident (hc : catalog.Attuned getters) {owner made : RecordType}
    {entries : List (String × Tree)} {cause : Cause} {way : Path} :
    catalog.RecordFails coercion owner made entries cause way → owner = made →
      (Tree.mapping entries).Valid → Evident getters coercion (.mapping entries) cause way
  | .field _ _ hget hfails, _, hvalid =>
    .of_mem hvalid (Entries.mem_of_get? hget) (hfails.evident hc)
  | .missing hsplit _ hget _, _, _ =>
    .missing (hc.name_ne_moduleNameKey (by rw [hsplit]; simp)) (Tree.at?_nil _) hget
  | .refused hfields hrefuses, he, _ => by
    subst he
    obtain ⟨field, range, text, i, hnarrows, hget, hi, hrange, rfl, rfl⟩ :=
      hc.exists_of_refuses hfields hrefuses
    have hnode : (Tree.mapping entries).at? ([] ++ [.key field]) = some (.scalar text) := by
      rw [List.nil_append, at?_entry hget, Tree.at?_nil]
    exact .outOfRange hnarrows hnode hi hrange

theorem MemberFails.evident (hc : catalog.Attuned getters) {family : Family}
    {entries : List (String × Tree)} {cause : Cause} {way : Path} :
    catalog.MemberFails coercion family entries cause way → (Tree.mapping entries).Valid →
      Evident getters coercion (.mapping entries) cause way
  | .unnamed _, _ => .other rfl
  | .name _ _, _ => .other rfl
  | .unknown _ _, _ => .other rfl
  | .foreign _ _ _, _ => .other rfl
  | .record _ hnames hmade hfails, hvalid =>
    have hrecord := (hc.members _ _ _ _ hnames hmade).1
    (hfails.evident hc hrecord (valid_erase _ hvalid)).of_erase hvalid.1
end

/-! ### Errors and the document -/

/-- Is every cause that the error reports evident from the document, at its place there? -/
def Justifies (getters : RecordType → Entries String Getter) (coercion : IntegerCoercion)
    (raw : Tree) (error : Error) : Prop :=
  ∀ cause place, error.Reports cause place →
    ∃ way : Path, place = way.dotted ∧ Evident getters coercion raw cause way

theorem Evident.justifies {raw : Tree} {cause : Cause} {way : Path}
    (h : Evident getters coercion raw cause way) :
    Justifies getters coercion raw (.located cause way.dotted) := by
  rintro _ _ ⟨⟩
  exact ⟨way, rfl, h⟩

theorem justifies_neitherForm {raw other : Tree} {declared : DeclaredType}
    {direct shorthand : Error}
    (hdirect : Justifies getters coercion raw direct)
    (hshorthand : Justifies getters coercion raw shorthand) :
    Justifies getters coercion raw (.neitherForm other declared direct shorthand) := by
  rintro cause place (_ | h | h)
  · exact hdirect cause place h
  · exact hshorthand cause place h

section Root

variable (hc : catalog.Attuned getters) {type : RecordType} {error : Error}
include hc

theorem plain (declared : DeclaredType) : catalog.Plain declared := by
  refine ⟨fun type _ => (hc.attuned type).named, fun type _ => ?_⟩
  rw [(hc.definition type).construct]
  exact Constructor.failsByGetters_ofGetters _

/-- A record that is not read at a place fails for a cause that is evident from its tree. -/
theorem exists_evident_of_materializeAt {tree : Tree} (hvalid : tree.Valid) {place : Path}
    (hplace : place.Legible)
    (h : catalog.materializeAt coercion tree (.record type) place = .error error) :
    ∃ cause way, error = .located cause (place ++ way).dotted ∧
      Evident getters coercion tree cause way := by
  rcases locates tree (.record type) (plain hc _) with
    ⟨value, hvalue⟩ | ⟨cause, way, hfails, herror⟩
  · rw [hvalue place hplace] at h
    cases h
  · rw [herror place hplace] at h
    cases h
    exact ⟨cause, way, rfl, hfails.evident hc hvalid⟩

/-- What is wrong behind a name is seen there in the document. -/
theorem justifies_of_materializeNamed {home : Namespace} {name : String}
    {inner : List (String × Tree)} (hvalid : (Tree.mapping [(name, .mapping inner)]).Valid)
    (h : catalog.materializeNamed coercion (.record type) home name inner = .error error) :
    Justifies getters coercion (.mapping [(name, .mapping inner)]) error := by
  have hroot : ∀ {cause}, cause.isOfField = false →
      Justifies getters coercion (.mapping [(name, .mapping inner)]) (.located cause "") := by
    intro cause hcause
    have hevident : Evident getters coercion (.mapping [(name, .mapping inner)]) cause [] :=
      .other hcause
    exact hevident.justifies
  unfold materializeNamed at h
  cases hresolve : catalog.registry.resolve home name with
  | error cause =>
    obtain ⟨-, rfl⟩ := Registry.resolve_eq_error_iff.mp hresolve
    rw [hresolve] at h
    cases h
    exact hroot rfl
  | ok entry =>
    rw [hresolve] at h
    dsimp only at h
    split at h
    · have hname : name ≠ "" := by
        rintro rfl
        exact hc.unnamed home entry (Registry.resolve_eq_ok_iff.mp hresolve)
      have hbehind : catalog.materializeAt coercion (.mapping inner) (.record type) [.key name] =
          .error error := h
      obtain ⟨cause, way, rfl, hevident⟩ := exists_evident_of_materializeAt hc
        (Tree.validEntries_iff.mp hvalid.2 _ (List.mem_cons_self ..))
        (Path.legible_key [] hname) hbehind
      have hget : Entries.get? [(name, Tree.mapping inner)] name = some (.mapping inner) :=
        if_pos rfl
      exact (hevident.below fun _ => at?_entry hget).justifies
    · cases h
      exact hroot rfl

/-- **What is said about the fields of a record is seen in the document.** -/
theorem justifies_of_recordOfTree {raw : Tree} (hvalid : raw.Valid)
    (h : catalog.recordOfTree coercion type raw = .error error) :
    Justifies getters coercion raw error := by
  have hroot : catalog.materializeRoot coercion raw (.record type) = .error error := by
    cases hvalue : catalog.materializeRoot coercion raw (.record type) with
    | ok value =>
      rw [(recordOfTree_eq_ok_iff hc.toRegular).mpr hvalue] at h
      cases h
    | error cause =>
      rw [recordOfTree, hvalue] at h
      exact h
  rw [materializeRoot_eq_orNamed] at hroot
  cases hdirect : catalog.materialize coercion raw (.record type) with
  | ok value =>
    rw [hdirect, orNamed_of_ok] at hroot
    cases hroot
  | error direct =>
    rw [hdirect] at hroot
    have hjustified : Justifies getters coercion raw direct := by
      obtain ⟨cause, way, rfl, hevident⟩ :=
        exists_evident_of_materializeAt hc hvalid Path.legible_nil hdirect
      exact hevident.justifies
    by_cases hnamed : ∃ home name inner, catalog.TakesName (.record type) home ∧
        raw = .mapping [(name, .mapping inner)]
    · obtain ⟨home, name, inner, htakes, rfl⟩ := hnamed
      cases hbehind : catalog.materializeNamed coercion (.record type) home name inner with
      | ok value =>
        rw [orNamed_of_named htakes hbehind] at hroot
        cases hroot
      | error shorthand =>
        rw [orNamed_of_neither htakes hbehind] at hroot
        cases hroot
        exact justifies_neitherForm hjustified (justifies_of_materializeNamed hc hvalid hbehind)
    · rw [orNamed_of_not_named fun home name inner htakes he =>
        hnamed ⟨home, name, inner, htakes, he⟩] at hroot
      cases hroot
      exact hjustified

end Root

end Catalog

end ConfigTree
