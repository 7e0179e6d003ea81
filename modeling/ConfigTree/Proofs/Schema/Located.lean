import ConfigTree.Proofs.Schema.Failure
import ConfigTree.Proofs.Tree.Place

/-! # Outcomes at all places

What is computed at a place is `Located` if it is the same at all good places but for the place: a
value that does not change, or a failure whose way goes on from the place.  Outcomes that are put
together from located ones are located, and **conversion is located at every place**, at the first
failure (`convert_located`).
-/
namespace ConfigTree.Catalog

open Schema

/-- At all good places, either the same value or a failure whose way goes on from the place. -/
def Located {α : Type} (good : Path → Prop) (outcome : Path → Except Error α)
    (failure : Cause → Path → Prop) : Prop :=
  (∃ value, ∀ place, good place → outcome place = .ok value) ∨
    ∃ cause way, failure cause way ∧
      ∀ place, good place → outcome place = .error (.located cause (place ++ way).dotted)

theorem Located.map {α β : Type} {good : Path → Prop} {outcome : Path → Except Error α}
    {failure : Cause → Path → Prop} (h : Located good outcome failure) (f : α → β) :
    Located good (fun place => (outcome place).map f) failure := by
  rcases h with ⟨value, h⟩ | ⟨cause, way, hfails, h⟩
  · exact .inl ⟨f value, fun place hp => congrArg (Except.map f) (h place hp)⟩
  · exact .inr ⟨cause, way, hfails, fun place hp => congrArg (Except.map f) (h place hp)⟩

theorem Located.imp {α : Type} {good good' : Path → Prop} {outcome : Path → Except Error α}
    {failure failure' : Cause → Path → Prop} (h : Located good outcome failure)
    (hgood : ∀ place, good' place → good place)
    (hfails : ∀ cause way, failure cause way → failure' cause way) :
    Located good' outcome failure' := by
  rcases h with ⟨value, h⟩ | ⟨cause, way, hf, h⟩
  · exact .inl ⟨value, fun place hp => h place (hgood place hp)⟩
  · exact .inr ⟨cause, way, hfails cause way hf, fun place hp => h place (hgood place hp)⟩

theorem Located.congr {α : Type} {good : Path → Prop} {outcome outcome' : Path → Except Error α}
    {failure : Cause → Path → Prop} (h : Located good outcome failure)
    (he : ∀ place, good place → outcome' place = outcome place) :
    Located good outcome' failure := by
  rcases h with ⟨value, h⟩ | ⟨cause, way, hf, h⟩
  · exact .inl ⟨value, fun place hp => (he place hp).trans (h place hp)⟩
  · exact .inr ⟨cause, way, hf, fun place hp => (he place hp).trans (h place hp)⟩

variable {catalog : Catalog} {coercion : IntegerCoercion}

/-- A failure at the place itself. -/
theorem Located.here {α : Type} {good : Path → Prop} {outcome : Path → Except Error α}
    {failure : Cause → Path → Prop} {cause : Cause} (hfails : failure cause [])
    (h : ∀ place, outcome place = .error (.located cause place.dotted)) :
    Located good outcome failure :=
  .inr ⟨cause, [], hfails, fun place _ => by rw [h, List.append_nil]⟩

/-! ### Conversion -/

theorem materializeAt_of_isPrimitive {declared : DeclaredType} (hp : declared.isPrimitive = true)
    (tree : Tree) (place : Path) :
    catalog.materializeAt coercion tree declared place = convert coercion declared tree place := by
  cases tree with
  | scalar text => rw [materializeAt]
  | sequence items => rw [materializeAt, DeclaredType.memberList?_of_isPrimitive hp]
  | mapping entries =>
    cases declared with
    | record type => cases hp
    | variant family => cases hp
    | _ => rfl

theorem convert_scalar_located (declared : DeclaredType) (text : String) :
    Located (fun _ => True) (convert coercion declared (.scalar text))
      (catalog.Fails coercion (.scalar text) declared) := by
  cases hread : readScalar? coercion text declared with
  | none =>
    have htakes : declared.takes (Tree.scalar text).kind = false := by
      cases declared <;> first | rfl | simp [readScalar?] at hread
    refine .here (.shape htakes) fun place => ?_
    cases declared <;> simp only [convert, hread] <;> rfl
  | some outcome =>
    cases outcome with
    | ok value =>
      refine .inl ⟨value, fun place _ => ?_⟩
      cases declared <;> simp only [convert, hread]
    | error cause =>
      refine .here (.text hread) fun place => ?_
      cases declared <;> simp only [convert, hread]

theorem convertItems_located {item : Conversion} {R : Tree → Cause → Path → Prop}
    (h : ∀ raw, Located (fun _ => True) (item raw) (R raw)) (index : Nat) (items : List Tree) :
    Located (fun _ => True) (fun place => convertItems item place index items) fun cause way =>
      ∃ before failing after rest, items = before ++ failing :: after ∧
        (∀ earlier ∈ before, ∃ value, item earlier [] = .ok value) ∧ R failing cause rest ∧
        way = .index (index + before.length) :: rest := by
  induction items generalizing index with
  | nil => exact .inl ⟨[], fun _ _ => rfl⟩
  | cons first others ih =>
    rcases h first with ⟨value, hv⟩ | ⟨cause, way, hR, hc⟩
    · rcases ih (index + 1) with ⟨values, hvs⟩ | ⟨cause, way, hfails, hc⟩
      · refine .inl ⟨value :: values, fun place _ => ?_⟩
        simp only [convertItems, hv _ trivial, hvs place trivial]
        rfl
      · obtain ⟨before, failing, after, rest, rfl, hbefore, hR, rfl⟩ := hfails
        refine .inr ⟨cause, _, ⟨first :: before, failing, after, rest, rfl,
          List.forall_mem_cons.mpr ⟨⟨value, hv [] trivial⟩, hbefore⟩, hR, rfl⟩, fun place _ => ?_⟩
        simp only [convertItems, hv _ trivial, hc place trivial, List.length_cons,
          Nat.add_assoc, Nat.add_comm 1]
        rfl
    · refine .inr ⟨cause, _, ⟨[], first, others, way, rfl, by simp, hR, rfl⟩, fun place _ => ?_⟩
      simp only [convertItems, hc _ trivial, List.append_assoc]
      rfl

theorem convertEntries_located {key value : Conversion} {R S : Tree → Cause → Path → Prop}
    (hk : ∀ raw, Located (fun _ => True) (key raw) (R raw))
    (hv : ∀ raw, Located (fun _ => True) (value raw) (S raw)) (entries : List (String × Tree)) :
    Located (fun _ => True) (fun place => convertEntries key value place entries) fun cause way =>
      ∃ before name node after rest, entries = before ++ (name, node) :: after ∧
        (∀ earlier ∈ before, (∃ v, key (.scalar earlier.1) [] = .ok v) ∧
          ∃ v, value earlier.2 [] = .ok v) ∧
        (R (.scalar name) cause rest ∨
          (∃ v, key (.scalar name) [] = .ok v) ∧ S node cause rest) ∧
        way = .key name :: rest := by
  induction entries with
  | nil => exact .inl ⟨[], fun _ _ => rfl⟩
  | cons first others ih =>
    obtain ⟨name, node⟩ := first
    rcases hk (.scalar name) with ⟨k, hk⟩ | ⟨cause, way, hR, hc⟩
    · rcases hv node with ⟨v, hv⟩ | ⟨cause, way, hS, hc⟩
      · rcases ih with ⟨pairs, hps⟩ | ⟨cause, way, hfails, hc⟩
        · refine .inl ⟨(k, v) :: pairs, fun place _ => ?_⟩
          simp only [convertEntries, hk _ trivial, hv _ trivial, hps place trivial]
          rfl
        · obtain ⟨before, name', node', after, rest, rfl, hbefore, hfirst, rfl⟩ := hfails
          refine .inr ⟨cause, _, ⟨(name, node) :: before, name', node', after, rest, rfl,
            List.forall_mem_cons.mpr ⟨⟨⟨k, hk [] trivial⟩, v, hv [] trivial⟩, hbefore⟩, hfirst,
            rfl⟩, fun place _ => ?_⟩
          simp only [convertEntries, hk _ trivial, hv _ trivial, hc place trivial]
          rfl
      · refine .inr ⟨cause, _, ⟨[], name, node, others, way, rfl, by simp,
          .inr ⟨⟨k, hk [] trivial⟩, hS⟩, rfl⟩, fun place _ => ?_⟩
        simp only [convertEntries, hk _ trivial, hc _ trivial, List.append_assoc]
        rfl
    · refine .inr ⟨cause, _, ⟨[], name, node, others, way, rfl, by simp, .inl hR, rfl⟩,
        fun place _ => ?_⟩
      simp only [convertEntries, hc _ trivial, List.append_assoc]
      rfl

/-- Conversion reports the first failure, at every place. -/
theorem convert_located {declared : DeclaredType} (hp : declared.isPrimitive = true)
    (tree : Tree) :
    Located (fun _ => True) (convert coercion declared tree)
      (catalog.Fails coercion tree declared) := by
  have hsucceeds : ∀ {declared : DeclaredType}, declared.isPrimitive = true → ∀ {tree},
      (∃ value, convert coercion declared tree [] = .ok value) →
      catalog.Succeeds coercion tree declared := by
    rintro declared hp tree ⟨value, h⟩
    exact ⟨value, (materializeAt_of_isPrimitive hp tree []).trans h⟩
  induction declared generalizing tree with
  | list element ih =>
    have he : element.isPrimitive = true := hp
    cases tree with
    | scalar text => exact convert_scalar_located ..
    | sequence items =>
      have hconvert : ∀ place, convert coercion (.list element) (.sequence items) place =
          (convertItems (convert coercion element) place 0 items).map .list := by
        intro place
        rw [convert, if_pos he]
      have hitems := (convertItems_located (ih he) 0 items).map Value.list
      rw [show convert coercion (.list element) (.sequence items) = _ from funext hconvert]
      refine hitems.imp (fun _ h => h) ?_
      rintro cause way ⟨before, failing, after, rest, rfl, hbefore, hfails, rfl⟩
      rw [Nat.zero_add]
      exact .item he (fun earlier hmem => hsucceeds he (hbefore earlier hmem)) hfails
    | mapping entries => exact .here (.shape rfl) fun place => rfl
  | map key element ihk ihv =>
    obtain ⟨hk, he⟩ : key.isScalar = true ∧ element.isPrimitive = true := by
      simpa [DeclaredType.isPrimitive] using hp
    have hkp := DeclaredType.isPrimitive_of_isScalar hk
    cases tree with
    | scalar text => exact convert_scalar_located ..
    | sequence items => exact .here (.shape rfl) fun place => rfl
    | mapping entries =>
      have hconvert : ∀ place, convert coercion (.map key element) (.mapping entries) place =
          (convertEntries (convert coercion key) (convert coercion element) place entries).map
            .map := by
        intro place
        rw [convert, if_pos (by rw [hk, he]; rfl)]
      have hentries := (convertEntries_located (ihk hkp) (ihv he) entries).map Value.map
      rw [show convert coercion (.map key element) (.mapping entries) = _ from funext hconvert]
      refine hentries.imp (fun _ h => h) ?_
      rintro cause way ⟨before, name, node, after, rest, rfl, hbefore, hfails, rfl⟩
      have hbefore := fun earlier hmem =>
        And.intro (hsucceeds hkp (hbefore earlier hmem).1) (hsucceeds he (hbefore earlier hmem).2)
      rcases hfails with hfails | ⟨hkey, hfails⟩
      · exact .key hk he hbefore hfails
      · exact .entry hk he hbefore (hsucceeds hkp hkey) hfails
  | record type => cases hp
  | variant family => cases hp
  | _ =>
    cases tree with
    | scalar text => exact convert_scalar_located ..
    | sequence items => exact .here (.shape rfl) fun place => rfl
    | mapping entries => exact .here (.shape rfl) fun place => rfl

theorem convert_of_not_takes {tree : Tree} {declared : DeclaredType}
    (h : declared.takes tree.kind = false) (place : Path) :
    convert coercion declared tree place = .error (unsupported tree declared place) := by
  cases tree with
  | scalar text => cases declared <;> first | rfl | cases h
  | sequence items =>
    cases declared with
    | list element =>
      have he : element.isPrimitive = false := (Bool.or_eq_false_iff.mp h).1
      rw [convert, he]
      rfl
    | _ => rfl
  | mapping entries =>
    cases declared with
    | map key value =>
      have hkv : (key.isScalar && value.isPrimitive) = false := h
      rw [convert, hkv]
      rfl
    | _ => rfl

/-- A node that conversion is left with is of a primitive type or of none that takes it. -/
theorem convert_located_of_takes {tree : Tree} {declared : DeclaredType}
    (h : declared.takes tree.kind = true → declared.isPrimitive = true) :
    Located Path.Legible (convert coercion declared tree)
      (catalog.Fails coercion tree declared) := by
  cases htakes : declared.takes tree.kind with
  | true => exact (convert_located (h htakes) tree).imp (fun _ _ => trivial) fun _ _ h => h
  | false => exact .here (.shape htakes) (convert_of_not_takes htakes)

end ConfigTree.Catalog
