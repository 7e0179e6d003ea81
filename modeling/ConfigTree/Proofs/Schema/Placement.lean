import ConfigTree.Proofs.Schema.Constructor
import ConfigTree.Proofs.Tree.Place
import ConfigTree.Proofs.Tree.Validity

/-! # One tree at two places

Wherever a tree stands, it is materialized in the same way, if constructors do not depend on the
place of their record.  At two places the tree has one and the same value, or it fails for one and
the same cause; the texts of where it fails go on from the two places in the same way (`Alike`).
Only an error that a constructor has of its own, with a place that it has put there, is kept as it
is.

Two computations that are alike step by step are alike (`Alike.bind`), and what is alike at the
children of two places is so at the places (`Alike.behind`).  So `Catalog.alike` needs no more than
one such step for each function that `Catalog.materializeAt` is made of.
-/
namespace ConfigTree

open Schema

/-- The text of what lies behind a place.  The fields of a record are named by the record, behind
the text of its place. -/
def Path.textBehind (place way : Path) : Option String → String
  | none => (place ++ way).dotted
  | some field => childName (place ++ way).dotted field

theorem Path.textBehind_step (place : Path) (segment : Segment) (way : Path)
    (field : Option String) :
    (place ++ [segment]).textBehind way field = place.textBehind (segment :: way) field := by
  cases field <;> simp [textBehind]

/-- Behind a legible place, that is the text of the place of the field. -/
theorem Path.Legible.textBehind_eq {place way : Path} (h : (place ++ way).Legible)
    (field : Option String) :
    place.textBehind way field = (place ++ (way ++ field.toList.map Segment.key)).dotted := by
  rw [← List.append_assoc]
  rcases field with _ | field
  · simp [textBehind]
  · exact h.childName_eq field

/-- An error behind a place is not placed again. -/
theorem Path.placedAt_textBehind (cause : Cause) (place way : Path) (field : Option String) :
    (Error.located cause (place.textBehind way field)).placedAt place.dotted =
      .located cause (place.textBehind way field) := by
  have hempty : place.textBehind way field = "" → place.dotted = "" := by
    intro h
    cases field with
    | none => exact dotted_eq_empty_of_append h
    | some field =>
      by_contra hplace
      have hway : (place ++ way).dotted ≠ "" := fun he => hplace (dotted_eq_empty_of_append he)
      exact childName_ne_empty (.inl hway) h
  rw [Error.placedAt_located]
  split
  · next h => rw [hempty h, h]
  · rfl

/-! ### Outcomes at two places -/

/-- Outcomes at the places `p` and `q`: values that are related, or errors of one cause, behind the
two places in the same way, which has the property `good`, or one and the same error that is some
constructor's own and is not without a place. -/
inductive Alike {α β : Type} (p q : Path) (good : Path → Prop) (own : Error → Prop)
    (R : α → β → Prop) : Except Error α → Except Error β → Prop where
  | ok {a : α} {b : β} : R a b → Alike p q good own R (.ok a) (.ok b)
  | error {way : Path} (field : Option String) (cause : Cause) : good way →
      Alike p q good own R (.error (.located cause (p.textBehind way field)))
        (.error (.located cause (q.textBehind way field)))
  | kept {error : Error} : own error → (∀ cause, error ≠ .located cause "") →
      Alike p q good own R (.error error) (.error error)

/-- Nothing is asked of the way. -/
def anyWay (_ : Path) : Prop := True

section Alike

variable {α β γ δ : Type} {p q : Path} {good : Path → Prop} {own : Error → Prop}
  {R : α → β → Prop} {S : γ → δ → Prop} {x : Except Error α} {y : Except Error β}

theorem Alike.bind {f : α → Except Error γ} {g : β → Except Error δ} (h : Alike p q good own R x y)
    (hf : ∀ a b, R a b → Alike p q good own S (f a) (g b)) :
    Alike p q good own S (x >>= f) (y >>= g) := by
  rcases h with hab | ⟨field, cause, hgood⟩ | ⟨hown, hplace⟩
  · exact hf _ _ hab
  · exact .error field cause hgood
  · exact .kept hown hplace

theorem Alike.map {f : α → γ} {g : β → δ} (h : Alike p q good own R x y)
    (hf : ∀ a b, R a b → S (f a) (g b)) : Alike p q good own S (x.map f) (y.map g) := by
  rcases h with hab | ⟨field, cause, hgood⟩ | ⟨hown, hplace⟩
  · exact .ok (hf _ _ hab)
  · exact .error field cause hgood
  · exact .kept hown hplace

/-- What is alike has the same values. -/
theorem Alike.eq_ok {x y : Except Error α} {a : α} (h : Alike p q good own Eq x y)
    (hx : x = .ok a) : y = .ok a := by
  rcases h with rfl | _ | _
  · exact hx
  · cases hx
  · cases hx

/-- Outcomes at children are outcomes behind their parents. -/
theorem Alike.behind {segment : Segment}
    (h : Alike (p ++ [segment]) (q ++ [segment]) anyWay own R x y)
    (hgood : ∀ way, good (segment :: way)) : Alike p q good own R x y := by
  rcases h with hab | ⟨field, cause, -⟩ | ⟨hown, hplace⟩
  · exact .ok hab
  · rw [Path.textBehind_step, Path.textBehind_step]
    exact .error field cause (hgood _)
  · exact .kept hown hplace

/-- Failures right at the two places. -/
theorem Alike.here (cause : Cause) (hgood : good []) :
    Alike p q good own R (.error (.located cause p.dotted)) (.error (.located cause q.dotted)) := by
  have h : Alike p q good own R (.error (.located cause (p.textBehind [] none)))
      (.error (.located cause (q.textBehind [] none))) := .error none cause hgood
  simpa only [Path.textBehind, List.append_nil] using h

end Alike

/-- Is the reading alike at all places, for types with constructors that answer? -/
def Portable (catalog : Catalog) (own : Error → Prop) (reading : Reading) : Prop :=
  ∀ declared, catalog.ConstructorsAnswer own declared → ∀ p q,
    Alike p q anyWay own Eq (reading declared p) (reading declared q)

/-! ### Conversion -/

section Conversion

variable {coercion : IntegerCoercion} {own : Error → Prop}

theorem convert_scalar_alike (declared : DeclaredType) (text : String) (p q : Path) :
    Alike p q anyWay own Eq (convert coercion declared (.scalar text) p)
      (convert coercion declared (.scalar text) q) := by
  have hconvert : ∀ place, convert coercion declared (.scalar text) place =
      (readScalar? coercion text declared).elim
        (.error (unsupported (.scalar text) declared place))
        (Except.mapError fun cause => .located cause place.dotted) := by
    intro place
    rcases hread : readScalar? coercion text declared with _ | (cause | value)
    all_goals
      cases declared <;> simp only [convert, hread] <;> rfl
  rw [hconvert, hconvert]
  rcases readScalar? coercion text declared with _ | (cause | value)
  · exact .here _ trivial
  · exact .here cause trivial
  · exact .ok rfl

theorem convertItems_alike {item : Conversion}
    (h : ∀ raw p q, Alike p q anyWay own Eq (item raw p) (item raw q)) (p q : Path) (index : Nat)
    (items : List Tree) :
    Alike p q anyWay own Eq (convertItems item p index items)
      (convertItems item q index items) := by
  induction items generalizing index with
  | nil => exact .ok rfl
  | cons raw rest ih =>
    apply ((h raw _ _).behind fun _ => trivial).bind
    rintro value _ rfl
    apply (ih (index + 1)).bind
    rintro values _ rfl
    exact .ok rfl

theorem convertEntries_alike {key value : Conversion}
    (hk : ∀ raw p q, Alike p q anyWay own Eq (key raw p) (key raw q))
    (hv : ∀ raw p q, Alike p q anyWay own Eq (value raw p) (value raw q)) (p q : Path)
    (entries : List (String × Tree)) :
    Alike p q anyWay own Eq (convertEntries key value p entries)
      (convertEntries key value q entries) := by
  induction entries with
  | nil => exact .ok rfl
  | cons entry rest ih =>
    obtain ⟨name, raw⟩ := entry
    apply ((hk (.scalar name) _ _).behind fun _ => trivial).bind
    rintro k _ rfl
    apply ((hv raw _ _).behind fun _ => trivial).bind
    rintro v _ rfl
    apply ih.bind
    rintro pairs _ rfl
    exact .ok rfl

theorem convert_alike (declared : DeclaredType) (tree : Tree) (p q : Path) :
    Alike p q anyWay own Eq (convert coercion declared tree p)
      (convert coercion declared tree q) := by
  induction declared generalizing tree p q with
  | list element ih =>
    rcases tree with text | items | entries
    · exact convert_scalar_alike ..
    · unfold convert
      split
      · apply (convertItems_alike ih p q 0 items).map
        rintro values _ rfl
        rfl
      · exact .here _ trivial
    · exact .here _ trivial
  | map key value ihk ihv =>
    rcases tree with text | items | entries
    · exact convert_scalar_alike ..
    · exact .here _ trivial
    · unfold convert
      split
      · apply (convertEntries_alike ihk ihv p q entries).map
        rintro pairs _ rfl
        rfl
      · exact .here _ trivial
  | _ =>
    rcases tree with text | items | entries
    · exact convert_scalar_alike ..
    · exact .here _ trivial
    · exact .here _ trivial

end Conversion

/-! ### Records -/

/-- What a getter refuses is named behind the place of the record. -/
theorem Constructor.Refuses.exists_textBehind {construct : Constructor} {record : String}
    {values : Entries String Value} {cause : Cause} {way : Path}
    (h : construct.Refuses record values cause way) :
    ∃ field, ∀ place : Path, construct ⟨record, place.dotted, values⟩ =
      .error (.located cause (place.textBehind [] field)) := by
  cases h with
  | missing h => exact ⟨none, fun place => by rw [h, Path.textBehind, List.append_nil]; rfl⟩
  | @mismatch name _ _ h =>
    exact ⟨some name, fun place => by rw [h, Path.textBehind, List.append_nil]; rfl⟩

section Record

variable {p q : Path} {good : Path → Prop} {own : Error → Prop} {catalog : Catalog}
  (hhere : good [])
include hhere

/-- A constructor that answers makes the same record at the two places, or fails alike there. -/
theorem make_alike (family : Option Family) {type : RecordType} {record : String}
    {values : Entries String Value}
    (h : (catalog.definition type).construct.Answers own record values) :
    Alike p q good own Eq (catalog.make family type ⟨record, p.dotted, values⟩ p)
      (catalog.make family type ⟨record, q.dotted, values⟩ q) := by
  cases h with
  | made h =>
    simp only [Catalog.make, h]
    exact .ok rfl
  | refused h =>
    obtain ⟨field, h⟩ := h.exists_textBehind
    simp only [Catalog.make, h, Path.placedAt_textBehind]
    exact .error field _ hhere
  | @failed error hown h =>
    simp only [Catalog.make, h]
    by_cases hplace : ∃ cause, error = .located cause ""
    · obtain ⟨cause, rfl⟩ := hplace
      simp only [Error.placedAt_located, if_true]
      exact .here cause hhere
    · have hplace := not_exists.mp hplace
      rw [Error.placedAt_of_placed hplace, Error.placedAt_of_placed hplace]
      exact .kept hown hplace

/-- The same fields of a record, at the two places. -/
def Fields.AtPlaces (p q : Path) (f g : Fields) : Prop :=
  ∃ record values, f = ⟨record, p.dotted, values⟩ ∧ g = ⟨record, q.dotted, values⟩

theorem gather_alike {entries : Entries String Reading} {specs : List FieldSpec}
    (h : ∀ entry ∈ entries, Portable catalog own entry.2)
    (hanswers : ∀ spec ∈ specs, catalog.ConstructorsAnswer own spec.declared)
    (hgood : ∀ spec ∈ specs, ∀ way, good (.key spec.name :: way)) (record : String)
    (values : Entries String Value) :
    Alike p q good own (Fields.AtPlaces p q)
      (gather entries p specs ⟨record, p.dotted, values⟩)
      (gather entries q specs ⟨record, q.dotted, values⟩) := by
  induction specs generalizing values with
  | nil => exact .ok ⟨record, values, rfl, rfl⟩
  | cons spec rest ih =>
    obtain ⟨hspec, hrest⟩ := List.forall_mem_cons.mp hgood
    obtain ⟨hfirst, hlater⟩ := List.forall_mem_cons.mp hanswers
    unfold gather
    rcases hget : Entries.get? entries spec.name with _ | reading
    · dsimp only
      split
      · exact .here _ hhere
      · exact ih hlater hrest values
    · apply ((h _ (Entries.mem_of_get? hget) spec.declared hfirst _ _).behind hspec).bind
      rintro value _ rfl
      exact ih hlater hrest (Entries.insert values spec.name value)

theorem made_alike {owner : RecordType} (family : Option Family) {type : RecordType}
    {entries : Entries String Reading} (h : ∀ entry ∈ entries, Portable catalog own entry.2)
    (hmade : ∀ record values, (catalog.definition type).construct.Answers own record values)
    (hanswers : ∀ spec ∈ (catalog.schema owner).fields,
      catalog.ConstructorsAnswer own spec.declared)
    (hgood : ∀ spec ∈ (catalog.schema owner).fields, ∀ way, good (.key spec.name :: way)) :
    Alike p q good own Eq
      (do catalog.make family type (← catalog.fieldsOf owner entries p) p)
      (do catalog.make family type (← catalog.fieldsOf owner entries q) q) := by
  apply (gather_alike hhere h hanswers hgood (catalog.schema owner).name []).bind
  rintro _ _ ⟨record, values, rfl, rfl⟩
  exact make_alike hhere family (hmade record values)

theorem makeMember_alike {family : Family} {name : String} {entry : RegistryEntry}
    {entries : Entries String Reading} (hnames : catalog.registry.Names family.home name entry)
    (hanswers : catalog.ConstructorsAnswer own (.variant family))
    (h : ∀ entry ∈ entries, Portable catalog own entry.2)
    (hgood : ∀ spec ∈ (catalog.schema entry.record).fields, ∀ way,
      good (.key spec.name :: way)) :
    Alike p q good own Eq (catalog.makeMember entry family entries p)
      (catalog.makeMember entry family entries q) := by
  unfold Catalog.makeMember
  rcases hmade : entry.made? family with _ | type
  · exact .here _ hhere
  · have huses := Catalog.uses_of_names hnames (by rw [hmade]; rfl)
    exact made_alike hhere (some family) h (hanswers type (Catalog.produces_of_names hnames hmade))
      (fun spec hspec => hanswers.field huses hspec) hgood

end Record

namespace Catalog

variable {catalog : Catalog} {coercion : IntegerCoercion} {own : Error → Prop}

theorem makeVariant_alike (family : Family) (raw : List (String × Tree))
    {entries : Entries String Reading} (hanswers : catalog.ConstructorsAnswer own (.variant family))
    (h : ∀ entry ∈ entries, Portable catalog own entry.2) (p q : Path) :
    Alike p q anyWay own Eq (catalog.makeVariant family raw entries p)
      (catalog.makeVariant family raw entries q) := by
  have hname : ∀ node, Alike p q anyWay own (Eq (α := Value))
      (.error (unsupported node .str (p ++ [.key moduleNameKey])))
      (.error (unsupported node .str (q ++ [.key moduleNameKey]))) :=
    fun node => (Alike.here _ trivial).behind fun _ => trivial
  unfold makeVariant
  rcases Entries.get? raw moduleNameKey with _ | (name | items | inner)
  · exact .here _ trivial
  · rcases hresolve : catalog.registry.resolve family.home name with cause | entry
    · simp only [hresolve]
      exact .here cause trivial
    · simp only [hresolve]
      exact makeMember_alike trivial (Registry.resolve_eq_ok_iff.mp hresolve) hanswers
        (fun e he => h e (Entries.mem_of_mem_erase he)) fun _ _ _ => trivial
  · exact hname _
  · exact hname _

/-- The entries of the mapping that the tree is, if it is one, are alike at all places. -/
def EntriesPortable (catalog : Catalog) (own : Error → Prop) (coercion : IntegerCoercion)
    (tree : Tree) : Prop :=
  ∀ entry ∈ catalog.readings coercion (tree.entries?.getD []), Portable catalog own entry.2

theorem members_alike {family : Family} {items : List Tree}
    (hanswers : catalog.ConstructorsAnswer own (.variant family))
    (h : ∀ item ∈ items, catalog.EntriesPortable own coercion item) (p q : Path) (index : Nat) :
    Alike p q anyWay own Eq (catalog.members coercion family p index items)
      (catalog.members coercion family q index items) := by
  induction items generalizing index with
  | nil => exact .ok rfl
  | cons item rest ih =>
    obtain ⟨hitem, hrest⟩ := List.forall_mem_cons.mp h
    rcases item with text | items | entries
    · exact (Alike.here _ trivial).behind fun _ => trivial
    · exact (Alike.here _ trivial).behind fun _ => trivial
    · apply ((makeVariant_alike family entries hanswers hitem _ _).behind fun _ => trivial).bind
      rintro value _ rfl
      apply (ih hrest (index + 1)).bind
      rintro values _ rfl
      exact .ok rfl

theorem portable_sequence {items : List Tree}
    (h : ∀ item ∈ items, catalog.EntriesPortable own coercion item) :
    Portable catalog own (catalog.materializeAt coercion (.sequence items)) := by
  intro declared hanswers p q
  rw [materializeAt, materializeAt]
  split
  · next family hlist =>
    obtain ⟨rfl, -⟩ := DeclaredType.memberList?_eq_some_iff.mp hlist
    apply (members_alike (fun type ht => hanswers type (.list ht)) h p q 0).map
    rintro values _ rfl
    rfl
  · exact convert_alike ..

theorem portable_mapping {entries : List (String × Tree)}
    (h : catalog.EntriesPortable own coercion (.mapping entries)) :
    Portable catalog own (catalog.materializeAt coercion (.mapping entries)) := by
  intro declared hanswers p q
  rcases declared with _ | _ | _ | _ | element | ⟨key, value⟩ | type | family
  case record =>
    exact made_alike trivial none h (hanswers type (.record type))
      (fun spec hspec => hanswers.field (.record type) hspec) fun _ _ _ => trivial
  case variant =>
    rw [materializeAt, materializeAt]
    by_cases hsingle : family.kind = .single
    · rw [if_pos hsingle, if_pos hsingle]
      exact makeVariant_alike family entries hanswers h p q
    · rw [if_neg hsingle, if_neg hsingle]
      exact .here _ trivial
  all_goals exact convert_alike ..

theorem mem_readings {entries : List (String × Tree)} {reading : String × Reading}
    (h : reading ∈ catalog.readings coercion entries) :
    ∃ entry ∈ entries, reading.2 = catalog.materializeAt coercion entry.2 := by
  induction entries with
  | nil => cases h
  | cons entry rest ih =>
    obtain ⟨key, node⟩ := entry
    rcases List.mem_cons.mp h with rfl | h
    · exact ⟨_, List.mem_cons_self .., rfl⟩
    · obtain ⟨other, ho, he⟩ := ih h
      exact ⟨other, List.mem_cons_of_mem _ ho, he⟩

theorem portable_and_entriesPortable (tree : Tree) :
    Portable catalog own (catalog.materializeAt coercion tree) ∧
      catalog.EntriesPortable own coercion tree := by
  induction tree using Tree.induction with
  | scalar text =>
    exact ⟨fun declared _ p q => convert_alike ..,
      by simp [EntriesPortable, Tree.entries?, readings]⟩
  | sequence items ih =>
    exact ⟨portable_sequence fun item hitem => (ih item hitem).2,
      by simp [EntriesPortable, Tree.entries?, readings]⟩
  | mapping entries ih =>
    have hentries : catalog.EntriesPortable own coercion (.mapping entries) := by
      intro reading hr
      obtain ⟨entry, he, hreading⟩ := mem_readings hr
      rw [hreading]
      exact (ih entry he).1
    exact ⟨portable_mapping hentries, hentries⟩

/-- **A tree is materialized alike at all places.** -/
theorem alike (tree : Tree) : Portable catalog own (catalog.materializeAt coercion tree) :=
  (portable_and_entriesPortable tree).1

theorem entries_alike (entries : List (String × Tree)) :
    ∀ entry ∈ catalog.readings coercion entries, Portable catalog own entry.2 :=
  (portable_and_entriesPortable (.mapping entries)).2

end Catalog

end ConfigTree
