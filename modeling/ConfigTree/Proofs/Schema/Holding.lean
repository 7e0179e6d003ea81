import ConfigTree.Proofs.Expression.Fitting
import ConfigTree.Proofs.Expression.Literal
import ConfigTree.Proofs.Schema.Typing

/-! # Primitive values that are held

`FieldType.Holds` says which values a field of a primitive type holds once they have been read from
a tree: integers of 64 bits, finite numbers, texts, booleans, and lists and maps of these.  It
leaves out the types that change what they are given without need (`FieldType.IsPlain`).

Such a value is read as itself, and **the tree as which it is written has no other value**
(`FieldType.Holds.typed_write_iff`).  It has this one, unless an integer in it is the least one,
whose text no expression can have.
-/
namespace ConfigTree

open Schema

/-! ### Integers in values -/

namespace Value

mutual
/-- The integers in a value, at whatever depth. -/
def integers : Value → List Int
  | .int i => [i]
  | .list items => integersOfItems items
  | .map entries => integersOfEntries entries
  | .record _ _ fields => integersOfFields fields
  | _ => []

/-- The integers in the items of a list. -/
def integersOfItems : List Value → List Int
  | [] => []
  | v :: rest => integers v ++ integersOfItems rest

/-- The integers in the entries of a map, those in keys included. -/
def integersOfEntries : List (Value × Value) → List Int
  | [] => []
  | (k, v) :: rest => integers k ++ integers v ++ integersOfEntries rest

/-- The integers in the fields of a record. -/
def integersOfFields : List (String × Value) → List Int
  | [] => []
  | (_, v) :: rest => integers v ++ integersOfFields rest
end

theorem mem_integers_list {i : Int} {items : List Value} :
    i ∈ (Value.list items).integers ↔ ∃ item ∈ items, i ∈ item.integers := by
  rw [integers]
  induction items with
  | nil => simp [integersOfItems]
  | cons item rest ih => simp [integersOfItems, ih]

theorem mem_integers_map {i : Int} {entries : List (Value × Value)} :
    i ∈ (Value.map entries).integers ↔
      ∃ entry ∈ entries, i ∈ entry.1.integers ∨ i ∈ entry.2.integers := by
  rw [integers]
  induction entries with
  | nil => simp [integersOfEntries]
  | cons entry rest ih => simp [integersOfEntries, ih, or_assoc]

theorem mem_integers_record {i : Int} {family : Option Family} {type : RecordType}
    {fields : List (String × Value)} :
    i ∈ (Value.record family type fields).integers ↔
      ∃ field ∈ fields, i ∈ field.2.integers := by
  rw [integers]
  induction fields with
  | nil => simp [integersOfFields]
  | cons field rest ih => simp [integersOfFields, ih]

end Value

/-! ### Written collections -/

section Lists

variable {α β : Type} {R : α → β → Prop} {P : α → Prop} {f : α → β}

/-- Lists that are related item by item, if each item is related to one thing at most. -/
theorem forall₂_iff_eq_map {as : List α} {bs : List β}
    (h : ∀ a ∈ as, ∀ b, R a b ↔ P a ∧ b = f a) :
    List.Forall₂ R as bs ↔ (∀ a ∈ as, P a) ∧ bs = as.map f := by
  induction as generalizing bs with
  | nil => simp
  | cons a rest ih =>
    obtain ⟨ha, hrest⟩ := List.forall_mem_cons.mp h
    simp only [List.forall₂_cons_left_iff, ha, ih hrest, List.forall_mem_cons, List.map_cons]
    constructor
    · rintro ⟨_, _, ⟨hp, rfl⟩, ⟨hps, rfl⟩, rfl⟩
      exact ⟨⟨hp, hps⟩, rfl⟩
    · rintro ⟨⟨hp, hps⟩, rfl⟩
      exact ⟨_, _, ⟨hp, rfl⟩, ⟨hps, rfl⟩, rfl⟩

/-- What follows from being related to an item of the first list. -/
theorem forall_mem_of_forall₂ {Q : β → Prop} {as : List α} {bs : List β}
    (h : ∀ a ∈ as, ∀ b, R a b → Q b) (hr : List.Forall₂ R as bs) : ∀ b ∈ bs, Q b := by
  induction hr with
  | nil => simp
  | cons hab _ ih =>
    obtain ⟨ha, hrest⟩ := List.forall_mem_cons.mp h
    exact List.forall_mem_cons.mpr ⟨ha _ hab, ih hrest⟩

end Lists

namespace Catalog

variable {catalog : Catalog}

theorem writeItems_eq (items : List Value) :
    catalog.writeItems items = items.map catalog.write := by
  induction items with
  | nil => rfl
  | cons item rest ih => rw [writeItems, ih, List.map_cons]

theorem writeFields_eq (fields : List (String × Value)) :
    catalog.writeFields fields = Entries.mapValues catalog.write fields := by
  induction fields with
  | nil => rfl
  | cons field rest ih =>
    obtain ⟨name, value⟩ := field
    rw [writeFields, ih]
    rfl

/-- A map with distinct texts as keys is written entry by entry. -/
theorem write_map {entries : Entries String Value} (h : Entries.NodupKeys entries) :
    catalog.write (.map (entries.map fun entry => (.str entry.1, entry.2))) =
      .mapping (Entries.mapValues catalog.write entries) := by
  have hentries : catalog.writeEntries (entries.map fun entry => (.str entry.1, entry.2)) =
      Entries.mapValues catalog.write entries := by
    clear h
    induction entries with
    | nil => rfl
    | cons entry rest ih =>
      rw [List.map_cons, writeEntries, ih]
      rfl
  have hnodup : Entries.NodupKeys (Entries.mapValues catalog.write entries) := by
    rwa [Entries.NodupKeys, Entries.keys_mapValues]
  rw [write, hentries, Tree.ofPairs, Entries.ofList_eq_self hnodup]

end Catalog

namespace FieldType

/-! ### What fields hold -/

/-- Are values written and read back as they are?  Numbers of fewer bits and sorted maps are not
needed here. -/
def IsPlain : FieldType → Bool
  | .integer _ | .str | .bool => true
  | .float format => format = double
  | .list element => element.IsPlain
  | .map order key value => order = .insertion && key = .str && value.IsPlain
  | .any => false

/-- **The values that a field holds.** -/
inductive Holds : FieldType → Value → Prop where
  | integer {range : IntegerRange} {i : Int} :
      IntegerRange.signed64.contains i = true → range.contains i = true →
      Holds (.integer range) (.int i)
  | float {x : Floating} :
      x.isFinite = true → double.IsCanonical x → Holds (.float double) (.float double x)
  | str (text : String) : Holds .str (.str text)
  | bool (b : Bool) : Holds .bool (.bool b)
  | list {element : FieldType} {items : List Value} :
      (∀ item ∈ items, Holds element item) → Holds (.list element) (.list items)
  | map {value : FieldType} {entries : Entries String Value} :
      Entries.NodupKeys entries → (∀ entry ∈ entries, Holds value entry.2) →
      Holds (.map .insertion .str value) (.map (entries.map fun entry => (.str entry.1, entry.2)))

theorem isPrimitive_declared (type : FieldType) : type.declared.isPrimitive = true := by
  induction type with
  | list element ih => exact ih
  | map order key value ih =>
    have hkey : key.declared.isScalar = true := by cases key <;> rfl
    rw [declared, DeclaredType.isPrimitive, hkey, ih]
    rfl
  | _ => rfl

/-- Texts as keys of a map that keeps them in the order in which they came. -/
theorem collect_texts {entries : Entries String Value} (h : Entries.NodupKeys entries) :
    collect .insertion (entries.map fun entry => (.str entry.1, entry.2)) =
      .map (entries.map fun entry => (.str entry.1, entry.2)) := by
  have hnodup : Entries.NodupKeys (entries.map fun entry => (Key.str entry.1, entry.2)) := by
    have hkeys : Entries.keys (entries.map fun entry => (Key.str entry.1, entry.2)) =
        (Entries.keys entries).map Key.str := by simp [Entries.keys]
    rw [Entries.NodupKeys, hkeys]
    exact h.map fun _ _ he => Key.str.inj he
  simp only [collect, Entries.ofList_eq_self hnodup, List.map_map]
  rfl

/-- **A value that is held is read as itself.** -/
theorem Holds.read_self {type : FieldType} {value : Value} (h : type.Holds value) :
    type.read value = .ok value := by
  induction h with
  | integer _ hrange => simp [read, IntegerRange.read, hrange, Except.map]
  | float _ hx => rw [read, FloatFormat.convert_eq Expression.Number.double_precision hx]
  | str text => rfl
  | bool b => rfl
  | list _ ih =>
    rw [read, mapM_eq_ok_iff.mpr (List.forall₂_same.mpr ih)]
    rfl
  | @map value entries hnodup _ ih =>
    have hread : (entries.map fun entry => (Value.str entry.1, entry.2)).mapM
        (fun (k, v) => do return (← KeyType.str.read k, ← value.read v)) =
          .ok (entries.map fun entry => (Key.str entry.1, entry.2)) := by
      rw [mapM_eq_ok_iff, List.forall₂_map_left_iff, List.forall₂_map_right_iff, List.forall₂_same]
      intro entry he
      simp only [KeyType.read, ih entry he]
      rfl
    rw [read, hread, Except.map, collect_texts hnodup]

/-! ### What is read is held -/

section Typing

variable {catalog : Catalog} {coercion : IntegerCoercion} {place : Path}

theorem readNumber_eq_ok_iff {text : String} {n : Expression.Number} :
    readNumber text = .ok n ↔ Expression.evaluate text = .ok n := by
  unfold readNumber
  cases Expression.evaluate text <;> simp

/-- Integers have 64 bits, whether they are written as such or as whole numbers with a point. -/
theorem contains_of_readInt {text : String} {i : Int} (h : readInt coercion text = .ok i) :
    IntegerRange.signed64.contains i = true := by
  obtain ⟨n, hn, h⟩ := bind_eq_ok_iff.mp h
  have hfits := Expression.fits_of_evaluate (readNumber_eq_ok_iff.mp hn)
  cases n with
  | int j =>
    cases h
    exact hfits
  | float x =>
    have h : integerOf coercion x = .ok i := h
    unfold integerOf at h
    split at h
    · cases h
    · split at h
      · next hwhole =>
        cases h
        exact (Bool.and_eq_true_iff.mp hwhole).2
      · cases h

theorem exists_of_typed_int {tree : Tree} {value : Value}
    (h : catalog.Typed coercion place tree .int value) :
    ∃ i, value = .int i ∧ IntegerRange.signed64.contains i = true := by
  cases h with
  | scalar hread =>
    simp only [readScalar?, Option.some.injEq, map_eq_ok_iff] at hread
    obtain ⟨i, hi, rfl⟩ := hread
    exact ⟨i, rfl, contains_of_readInt hi⟩

theorem exists_of_typed_float {tree : Tree} {value : Value}
    (h : catalog.Typed coercion place tree .float value) :
    ∃ x : Floating, value = .float double x ∧ x.isFinite = true ∧ double.IsCanonical x := by
  cases h with
  | scalar hread =>
    simp only [readScalar?, Option.some.injEq, map_eq_ok_iff] at hread
    obtain ⟨n, hn, rfl⟩ := hread
    exact ⟨_, rfl, (Expression.fits_of_evaluate (readNumber_eq_ok_iff.mp hn)).toFloating⟩

/-- Entries whose keys are all texts. -/
theorem exists_texts {entries : List (Key × Value)}
    (h : ∀ entry ∈ entries, ∃ text, entry.1 = .str text) :
    ∃ named : List (String × Value), entries = named.map fun entry => (.str entry.1, entry.2) := by
  induction entries with
  | nil => exact ⟨[], rfl⟩
  | cons entry rest ih =>
    obtain ⟨⟨text, htext⟩, hrest⟩ := List.forall_mem_cons.mp h
    obtain ⟨named, rfl⟩ := ih hrest
    exact ⟨(text, entry.2) :: named, by rw [List.map_cons, ← htext]⟩

/-- A map that is collected from texts and values is held if the values are. -/
theorem holds_collect {value : FieldType} {entries : List (Key × Value)}
    (h : ∀ entry ∈ entries, (∃ text, entry.1 = .str text) ∧ value.Holds entry.2) :
    (FieldType.map .insertion .str value).Holds (collect .insertion entries) := by
  have hkept : ∀ entry ∈ Entries.ofList entries,
      (∃ text, entry.1 = .str text) ∧ value.Holds entry.2 := fun entry he =>
    h entry (Entries.mem_of_mem_ofList he)
  have hnodup := Entries.nodupKeys_ofList entries
  obtain ⟨named, hnamed⟩ := exists_texts fun entry he => (hkept entry he).1
  have hcollect : collect .insertion entries =
      .map (named.map fun entry => (.str entry.1, entry.2)) := by
    simp only [collect, hnamed, List.map_map]
    rfl
  rw [hnamed] at hkept hnodup
  rw [hcollect]
  refine .map ?_ fun entry he => (hkept _ (List.mem_map_of_mem he)).2
  have hkeys : Entries.keys (named.map fun entry => (Key.str entry.1, entry.2)) =
      (Entries.keys named).map Key.str := by simp [Entries.keys]
  rw [Entries.NodupKeys, hkeys] at hnodup
  exact hnodup.of_map

/-- **What is read from a tree is held.** -/
theorem holds_of_read {type : FieldType} (hp : type.IsPlain = true) {tree : Tree}
    {value held : Value} (ht : catalog.Typed coercion place tree type.declared value)
    (hr : type.read value = .ok held) : type.Holds held := by
  induction type generalizing tree value held with
  | any => cases hp
  | integer range =>
    obtain ⟨i, rfl, hi⟩ := exists_of_typed_int ht
    obtain ⟨j, hj, rfl⟩ := map_eq_ok_iff.mp hr
    simp only [IntegerRange.read] at hj
    split at hj
    · next hrange =>
      cases hj
      exact .integer hi hrange
    · cases hj
  | float format =>
    obtain rfl : format = double := by simpa [IsPlain] using hp
    obtain ⟨x, rfl, hfinite, hx⟩ := exists_of_typed_float ht
    rw [read, FloatFormat.convert_eq Expression.Number.double_precision hx] at hr
    cases hr
    exact .float hfinite hx
  | str =>
    cases ht with
    | scalar hread =>
      cases hread
      cases hr
      exact .str _
  | bool =>
    cases value with
    | bool b =>
      cases hr
      exact .bool b
    | _ => cases hr
  | list element ih =>
    cases tree with
    | scalar text => cases Catalog.typed_scalar_iff.mp ht
    | mapping entries => cases ht
    | sequence trees =>
      obtain ⟨values, htyped, rfl⟩ := (Catalog.typed_list_iff element.isPrimitive_declared).mp ht
      obtain ⟨items, hitems, rfl⟩ := map_eq_ok_iff.mp hr
      have hvalues : ∀ value ∈ values,
          ∃ tree, catalog.Typed coercion place tree element.declared value :=
        forall_mem_of_forall₂ (fun tree _ _ h => ⟨tree, h⟩) htyped
      refine .list (forall_mem_of_forall₂ (fun value hvalue item hread => ?_)
        (mapM_eq_ok_iff.mp hitems))
      obtain ⟨tree, ht⟩ := hvalues value hvalue
      exact ih hp ht hread
  | map order key element ih =>
    obtain ⟨⟨rfl, rfl⟩, hp⟩ : (order = .insertion ∧ key = .str) ∧ element.IsPlain = true := by
      simpa [IsPlain] using hp
    cases tree with
    | scalar text => cases Catalog.typed_scalar_iff.mp ht
    | sequence trees => cases ht
    | mapping trees =>
      obtain ⟨pairs, htyped, rfl⟩ :=
        (Catalog.typed_map_iff rfl element.isPrimitive_declared).mp ht
      obtain ⟨entries, hentries, rfl⟩ := map_eq_ok_iff.mp hr
      have hpairs : ∀ pair ∈ pairs, ∃ tree,
          catalog.Typed coercion place tree element.declared pair.2 :=
        forall_mem_of_forall₂ (fun tree _ _ h => ⟨tree.2, h.2⟩) htyped
      refine holds_collect (forall_mem_of_forall₂ ?_ (mapM_eq_ok_iff.mp hentries))
      rintro ⟨k, v⟩ hpair entry hread
      obtain ⟨tree, ht⟩ := hpairs _ hpair
      obtain ⟨key, hkey, hread⟩ := bind_eq_ok_iff.mp hread
      obtain ⟨held, hheld, hread⟩ := bind_eq_ok_iff.mp hread
      cases hread
      refine ⟨?_, ih hp ht hheld⟩
      cases k with
      | str text =>
        cases hkey
        exact ⟨text, rfl⟩
      | _ => cases hkey

/-! ### What is held is read back -/

/-- The texts of integers are expressions, except for the least one. -/
theorem readInt_showInt_eq_ok_iff {i j : Int} (h : IntegerRange.signed64.contains i = true) :
    readInt coercion (Text.showInt i) = .ok j ↔ IntegerRange.signed64.least ≠ i ∧ j = i := by
  unfold readInt
  by_cases hleast : i = IntegerRange.signed64.least
  · have hread : ∀ n, readNumber (Text.showInt i) ≠ .ok n := by
      intro n hn
      rw [readNumber_eq_ok_iff, hleast, Expression.evaluate_least] at hn
      cases hn
    refine iff_of_false (fun hj => ?_) fun hj => hj.1 hleast.symm
    obtain ⟨n, hn, -⟩ := bind_eq_ok_iff.mp hj
    exact hread n hn
  · rw [readNumber_eq_ok_iff.mpr (Expression.evaluate_showInt h hleast)]
    show Except.ok i = .ok j ↔ _
    rw [Except.ok.injEq]
    exact ⟨fun hj => ⟨Ne.symm hleast, hj.symm⟩, fun hj => hj.2.symm⟩

/-- **The only value of what is written** for a value that is held is this value, and it has one
unless the least integer is in it. -/
theorem Holds.typed_write_iff {type : FieldType} {value other : Value} (h : type.Holds value) :
    catalog.Typed coercion place (catalog.write value) type.declared other ↔
      IntegerRange.signed64.least ∉ value.integers ∧ other = value := by
  induction h generalizing other with
  | @integer range i hi _ =>
    show catalog.Typed coercion place (.scalar (Text.showInt i)) .int other ↔ _
    rw [Catalog.typed_scalar_iff, readScalar?, Option.some.injEq, map_eq_ok_iff]
    simp only [readInt_showInt_eq_ok_iff hi, Value.integers, List.mem_singleton]
    constructor
    · rintro ⟨_, ⟨hleast, rfl⟩, rfl⟩
      exact ⟨hleast, rfl⟩
    · rintro ⟨hleast, rfl⟩
      exact ⟨i, ⟨hleast, rfl⟩, rfl⟩
  | @float x hfinite hx =>
    show catalog.Typed coercion place (.scalar (Floating.text Floating.stored double x)) .float
      other ↔ _
    have hread := readNumber_eq_ok_iff.mpr (Expression.evaluate_text hx hfinite)
    rw [Catalog.typed_scalar_iff, readScalar?, hread]
    simp [Value.integers, Except.map, Expression.Number.toFloating, eq_comm]
  | str text =>
    show catalog.Typed coercion place (.scalar text) .str other ↔ _
    rw [Catalog.typed_scalar_iff]
    simp [readScalar?, Value.integers, eq_comm]
  | bool b =>
    show catalog.Typed coercion place (.scalar (if b then "true" else "false")) .bool other ↔ _
    rw [Catalog.typed_scalar_iff, readScalar?, readBool?_of_ofBool rfl]
    simp [Value.integers, eq_comm]
  | @list element items _ ih =>
    show catalog.Typed coercion place (.sequence (catalog.writeItems items))
      (.list element.declared) other ↔ _
    rw [Catalog.typed_list_iff element.isPrimitive_declared, Catalog.writeItems_eq]
    simp only [List.forall₂_map_left_iff, forall₂_iff_eq_map fun item hitem other => ih item hitem,
      Value.mem_integers_list, not_exists, not_and, List.map_id']
    constructor
    · rintro ⟨_, ⟨hleast, rfl⟩, rfl⟩
      exact ⟨hleast, rfl⟩
    · rintro ⟨hleast, rfl⟩
      exact ⟨_, ⟨hleast, rfl⟩, rfl⟩
  | @map element entries hnodup _ ih =>
    have hentry : ∀ entry ∈ entries, ∀ pair : Value × Value,
        (catalog.Typed coercion place (.scalar entry.1) .str pair.1 ∧
            catalog.Typed coercion place (catalog.write entry.2) element.declared pair.2) ↔
          IntegerRange.signed64.least ∉ entry.2.integers ∧ pair = (.str entry.1, entry.2) := by
      rintro entry he ⟨k, v⟩
      rw [Catalog.typed_scalar_iff, ih entry he]
      simp only [readScalar?, Option.some.injEq, Except.ok.injEq, Prod.mk.injEq]
      constructor
      · rintro ⟨rfl, hleast, rfl⟩
        exact ⟨hleast, rfl, rfl⟩
      · rintro ⟨hleast, rfl, rfl⟩
        exact ⟨rfl, hleast, rfl⟩
    have hinteger : IntegerRange.signed64.least ∉
          (Value.map (entries.map fun entry => (.str entry.1, entry.2))).integers ↔
        ∀ entry ∈ entries, IntegerRange.signed64.least ∉ entry.2.integers := by
      rw [Value.mem_integers_map]
      simp [Value.integers, forall_comm (α := String)]
    rw [Catalog.write_map hnodup, declared, Catalog.typed_map_iff rfl element.isPrimitive_declared,
      hinteger]
    simp only [Entries.mapValues, List.forall₂_map_left_iff, KeyType.declared,
      forall₂_iff_eq_map hentry]
    constructor
    · rintro ⟨_, ⟨hleast, rfl⟩, rfl⟩
      exact ⟨hleast, rfl⟩
    · rintro ⟨hleast, rfl⟩
      exact ⟨_, ⟨hleast, rfl⟩, rfl⟩

end Typing

end FieldType

end ConfigTree
