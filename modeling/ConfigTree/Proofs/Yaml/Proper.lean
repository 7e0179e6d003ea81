import ConfigTree.Proofs.Outcome
import ConfigTree.Proofs.Yaml.Word

/-! # What documents mean is proper

A value that a node means has numbers as they are read, and no two equal keys in one mapping
(`Value.Proper`).  Equal keys are refused as they come, and only scalars make numbers, so the
property goes from the values of the inner nodes to those of the outer ones, whatever aliases are
followed (`Value.proper_ofNode`).
-/
namespace ConfigTree.Yaml.Value

open Floating

mutual
/-- All numbers are such as are read, and no two keys of one mapping are equal. -/
def Proper : Value → Prop
  | .int i => integerFit i = .fits
  | .float x => double.IsCanonical x
  | .sequence items => ProperItems items
  | .mapping entries =>
    entries.Pairwise (fun former later => same former.1 later.1 = false) ∧ ProperEntries entries
  | .tagged _ value => Proper value
  | _ => True

/-- The values are proper. -/
def ProperItems : List Value → Prop
  | [] => True
  | item :: rest => Proper item ∧ ProperItems rest

/-- The keys and values are proper. -/
def ProperEntries : List (Value × Value) → Prop
  | [] => True
  | (key, value) :: rest => Proper key ∧ Proper value ∧ ProperEntries rest
end

theorem properItems_iff {items : List Value} : ProperItems items ↔ ∀ item ∈ items, item.Proper := by
  induction items with
  | nil => simp [ProperItems]
  | cons item rest ih => rw [ProperItems, ih, List.forall_mem_cons]

theorem properEntries_iff {entries : List (Value × Value)} :
    ProperEntries entries ↔ ∀ entry ∈ entries, entry.1.Proper ∧ entry.2.Proper := by
  induction entries with
  | nil => simp [ProperEntries]
  | cons entry rest ih => rw [ProperEntries, ih, List.forall_mem_cons, and_assoc]

/-! ### Scalars -/

theorem isCanonical_of_readFloat? {cs : List Char} {x : Floating} (h : readFloat? cs = some x) :
    double.IsCanonical x := by
  have hread : ∀ {infinite negative word signed : Bool} {unsigned : List Char},
      (if infinite = true then some (Floating.infinite false)
        else if negative = true then some (.infinite true)
        else if word = true then some .nan
        else if signed = true then none
        else (Floating.read? double unsigned).filter isFinite) = some x →
      double.IsCanonical x := by
    intro infinite negative word signed unsigned h
    rcases infinite with _ | _
    · rcases negative with _ | _
      · rcases word with _ | _
        · rcases signed with _ | _
          · exact isCanonical_of_read? (by decide) (Option.filter_eq_some_iff.mp h).1
          · cases h
        · obtain rfl := Option.some.inj h
          trivial
      · obtain rfl := Option.some.inj h
        trivial
    · obtain rfl := Option.some.inj h
      trivial
  exact hread h

/-- What a plain scalar means is null, a boolean, a string or a number. -/
theorem proper_ofPlain {text : String} {value : Value} (h : ofPlain text = .ok value) :
    value.Proper := by
  have hread : ∀ {x}, readFloat? text.toList = some x → Proper (.float x) :=
    isCanonical_of_readFloat?
  unfold ofPlain at h
  grind [Proper]

theorem proper_ofCoreTag? {tag text : String} {value : Value}
    (h : ofCoreTag? tag text = some (.ok value)) : value.Proper := by
  unfold ofCoreTag? at h
  dsimp only at h
  split at h
  · cases hbool : readBool? text <;> rw [hbool] at h <;> cases h
    trivial
  · split at h
    · cases hint : (readInt? text.toList).filter (integerFit · == .fits) with
      | none =>
        rw [hint] at h
        cases h
      | some i =>
        rw [hint] at h
        cases h
        exact beq_iff_eq.mp (Option.filter_eq_some_iff.mp hint).2
    · split at h
      · cases hfloat : readFloat? text.toList with
        | none =>
          rw [hfloat] at h
          cases h
        | some x =>
          rw [hfloat] at h
          cases h
          exact isCanonical_of_readFloat? hfloat
      · split at h
        · cases hnull : isNull text <;> rw [hnull] at h <;> cases h
          trivial
        · cases h

theorem proper_ofScalar {labelled plain : Bool} {tag : Option String} {text : String}
    {value : Value} (h : ofScalar labelled tag plain text = .ok value) : value.Proper := by
  have hmeant : ∀ {value : Value}, (if plain = true then ofPlain text else .ok (.string text)) =
      .ok value → value.Proper := by
    intro value h
    cases plain with
    | true => exact proper_ofPlain h
    | false =>
      obtain rfl := Except.ok.inj h
      trivial
  unfold ofScalar at h
  dsimp only at h
  split at h
  · exact hmeant h
  · exact hmeant h
  · next tag =>
    split at h
    · exact hmeant h
    · cases hcore : ofCoreTag? tag text with
      | none =>
        rw [hcore] at h
        cases h
        trivial
      | some found =>
        rw [hcore, Option.getD_some] at h
        exact proper_ofCoreTag? (h ▸ hcore)

theorem Proper.labelWith {value : Value} (h : value.Proper) (labelled : Bool)
    (tag : Option String) : (labelWith labelled tag value).Proper := by
  unfold Value.labelWith
  split
  · split
    · exact h
    · exact h
  · exact h

/-! ### Nodes -/

variable {α β : Type} {P : α → Prop} {Q : β → Prop}

/-- What the computation finds has the property. -/
def Gives (x : Follow α) (P : α → Prop) : Prop :=
  ∀ followed found, x.run followed = .ok found → P found.1

theorem gives_pure {a : α} (h : P a) : Gives (pure a) P := by
  intro followed found hrun
  obtain rfl := Except.ok.inj hrun
  exact h

theorem gives_throw (e : Error) : Gives (throw e : Follow α) P := fun _ _ hrun => nomatch hrun

theorem gives_lift {x : Except Error α} (h : ∀ a, x = .ok a → P a) :
    Gives (liftM x : Follow α) P := by
  intro followed found hrun
  cases x with
  | error e => cases hrun
  | ok a =>
    obtain rfl := Except.ok.inj hrun
    exact h a rfl

theorem Gives.bind {x : Follow α} {f : α → Follow β} (hx : Gives x P)
    (hf : ∀ a, P a → Gives (f a) Q) : Gives (x >>= f) Q := by
  intro followed found hrun
  rw [StateT.run_bind] at hrun
  obtain ⟨⟨a, next⟩, ha, hrun⟩ := bind_eq_ok_iff.mp hrun
  exact hf a (hx followed _ ha) next found hrun

theorem gives_mapM {items : List α} {f : α → Follow β} (h : ∀ a, Gives (f a) Q) :
    Gives (items.mapM f) (∀ b ∈ ·, Q b) := by
  induction items with
  | nil => exact gives_pure (by simp)
  | cons a rest ih =>
    rw [List.mapM_cons]
    refine (h a).bind fun b hb => ih.bind fun bs hbs => gives_pure ?_
    exact List.forall_mem_cons.mpr ⟨hb, hbs⟩

/-- No two keys of the entries found so far, which are reversed, are equal, and those that are found
now are no others. -/
theorem gives_entriesOf {key value : Node → Follow Value} (hkey : ∀ node, Gives (key node) Proper)
    (hvalue : ∀ node, Gives (value node) Proper) {seen : List (Value × Value)}
    (hseen : (Value.mapping seen.reverse).Proper) (nodes : List (Node × Node)) :
    Gives (entriesOf key value seen nodes) fun entries => (Value.mapping entries).Proper := by
  induction nodes generalizing seen with
  | nil => exact gives_pure hseen
  | cons node rest ih =>
    obtain ⟨k, v⟩ := node
    rw [entriesOf]
    refine (hkey k).bind fun k hk => ?_
    split
    · exact gives_throw _
    · next hnew =>
      refine (hvalue v).bind fun v hv => ih ?_
      obtain ⟨hapart, hproper⟩ := hseen
      refine ⟨?_, ?_⟩
      · rw [List.reverse_cons, List.pairwise_append]
        refine ⟨hapart, List.pairwise_singleton _ _, fun former hformer later hlater => ?_⟩
        obtain rfl := List.mem_singleton.mp hlater
        exact Bool.eq_false_iff.mpr fun hsame =>
          hnew (List.any_eq_true.mpr ⟨former, List.mem_reverse.mp hformer, hsame⟩)
      · rw [properEntries_iff] at hproper ⊢
        rw [List.reverse_cons]
        exact List.forall_mem_append.mpr ⟨hproper, by simpa using ⟨hk, hv⟩⟩

/-- A node means what is proper if the nodes in it do. -/
theorem gives_ofNodeStep {inner : Option (Bool → Node → Follow Value)}
    (hinner : ∀ f ∈ inner, ∀ labelled node, Gives (f labelled node) Proper) (labelled : Bool)
    (node : Node) : Gives (ofNodeStep inner labelled node) Proper := by
  cases node with
  | «alias» anchor => exact gives_throw _
  | scalar props plain text =>
    exact (gives_lift fun value h => proper_ofScalar h).bind fun value hvalue =>
      gives_pure (hvalue.labelWith labelled props.tag)
  | sequence props items =>
    cases inner with
    | none => exact gives_throw _
    | some f =>
      refine (gives_mapM (hinner f rfl false)).bind fun items hitems => gives_pure ?_
      have hproper : (Value.sequence items).Proper := properItems_iff.mpr hitems
      exact hproper.labelWith labelled props.tag
  | mapping props entries =>
    cases inner with
    | none => exact gives_throw _
    | some f =>
      have hempty : (Value.mapping [].reverse).Proper := ⟨.nil, trivial⟩
      exact (gives_entriesOf (hinner f rfl _) (hinner f rfl false) hempty entries).bind
        fun entries hentries => gives_pure (hentries.labelWith labelled props.tag)

theorem gives_ofNodeWithin (sharing : Sharing) (depth : Nat) (labelled : Bool) (node : Node) :
    Gives (ofNodeWithin sharing depth labelled node) Proper := by
  have hfollow : Gives (follow sharing node) fun _ => True := fun _ _ _ => trivial
  induction depth generalizing labelled node with
  | zero =>
    exact hfollow.bind fun node _ => gives_ofNodeStep (by simp) labelled node
  | succ depth ih =>
    refine hfollow.bind fun node _ => gives_ofNodeStep ?_ labelled node
    rintro f hf labelled node
    obtain rfl := Option.some.inj hf
    exact ih labelled node fun _ _ _ => trivial

/-- **What the node of a document means is proper.** -/
theorem proper_ofNode {node : Node} {value : Value} (h : ofNode node = .ok value) :
    value.Proper := by
  obtain ⟨found, hfound, hvalue⟩ := bind_eq_ok_iff.mp h
  obtain rfl := Except.ok.inj hvalue
  exact gives_ofNodeWithin _ maxDepth false node 0 found hfound

end ConfigTree.Yaml.Value
