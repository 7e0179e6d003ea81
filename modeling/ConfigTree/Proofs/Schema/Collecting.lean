import ConfigTree.Proofs.Entries
import ConfigTree.Proofs.Schema.Typing
import ConfigTree.Schema.Fields

/-! # Entries are collected into maps

A mapping is converted entry by entry, and what has become of one entry is not compared with what
has become of the others: two keys that are written differently may be read as one, like `2` and
`1+1`.  The map that is made of them has one entry for each key that was read, with the value that
was read last (`take_of_convert_map`).  So **no entry is lost exactly if no two keys are read as
one**, and entries that are lost are no fault.
-/
namespace ConfigTree

open Schema

/-! ### Collected entries -/

namespace FieldType

/-- A map has the entries that are left when the last value of each key counts, in its order. -/
theorem exists_perm_collect (order : MapOrder) (read : List (Key × Value)) :
    ∃ kept : Entries Key Value, kept.Perm (Entries.ofList read) ∧
      collect order read = .map (kept.map fun entry => (entry.1.toValue, entry.2)) := by
  cases order with
  | insertion => exact ⟨_, .refl _, rfl⟩
  | sorted => exact ⟨_, List.mergeSort_perm .., rfl⟩

theorem read_map_eq_ok_iff {order : MapOrder} {key : KeyType} {element : FieldType}
    {pairs : List (Value × Value)} {taken : Value} :
    (FieldType.map order key element).read (.map pairs) = .ok taken ↔
      ∃ read, List.Forall₂ (fun pair entry =>
        key.read pair.1 = .ok entry.1 ∧ element.read pair.2 = .ok entry.2) pairs read ∧
          collect order read = taken := by
  have hpair : ∀ (pair : Value × Value) (entry : Key × Value),
      (do return (← key.read pair.1, ← element.read pair.2)) = Except.ok entry ↔
        key.read pair.1 = .ok entry.1 ∧ element.read pair.2 = .ok entry.2 := by
    rintro pair ⟨k, v⟩
    simp only [bind_eq_ok_iff, pure, Except.pure, Except.ok.injEq, Prod.mk.injEq]
    constructor
    · rintro ⟨_, hk, _, hv, rfl, rfl⟩
      exact ⟨hk, hv⟩
    · rintro ⟨hk, hv⟩
      exact ⟨k, hk, v, hv, rfl, rfl⟩
  rw [read, map_eq_ok_iff]
  simp only [mapM_eq_ok_iff, hpair]

end FieldType

/-! ### Mappings -/

section Mapping

variable (coercion : IntegerCoercion) (keys values : DeclaredType) (path : Path) (key : KeyType)
  (element : FieldType)

/-- The entry of a mapping, by itself, is read as this key and this value. -/
def ReadAs (entry : String × Tree) (read : Key × Value) : Prop :=
  (∃ k, convert coercion keys (.scalar entry.1) (path ++ [.key entry.1]) = .ok k ∧
      key.read k = .ok read.1) ∧
    ∃ v, convert coercion values entry.2 (path ++ [.key entry.1]) = .ok v ∧
      element.read v = .ok read.2

variable {coercion keys values path key element}

/-- An entry is read as one key and one value at most. -/
theorem readAs_rightUnique :
    Relator.RightUnique (ReadAs coercion keys values path key element) := by
  rintro entry ⟨k, v⟩ ⟨l, w⟩ ⟨⟨_, hk, hkey⟩, _, hv, helement⟩ ⟨⟨_, hl, hother⟩, _, hw, hagain⟩
  obtain rfl := Except.ok.inj (hk.symm.trans hl)
  obtain rfl := Except.ok.inj (hv.symm.trans hw)
  exact Prod.ext (Except.ok.inj (hkey.symm.trans hother))
    (Except.ok.inj (helement.symm.trans hagain))

theorem take_insert_eq_ok_iff {fields : Fields} {name : String} {getter : Getter}
    {value taken : Value} :
    ((fields.insert name value).take name getter).1 = .ok (some taken) ↔
      getter.request.read value = .ok taken := by
  have hget : Entries.get? (fields.insert name value).values name = some value := by
    rw [Fields.insert, Entries.get?_insert, if_pos rfl]
  simp only [Fields.take, hget]
  split <;> simp [*]

theorem convert_map_eq_ok_iff (hkeys : keys.isScalar = true) (hvalues : values.isPrimitive = true)
    {raw : List (String × Tree)} {value : Value} :
    convert coercion (.map keys values) (.mapping raw) path = .ok value ↔
      ∃ pairs, List.Forall₂ (fun entry pair =>
        convert coercion keys (.scalar entry.1) (path ++ [.key entry.1]) = .ok pair.1 ∧
          convert coercion values entry.2 (path ++ [.key entry.1]) = .ok pair.2) raw pairs ∧
        .map pairs = value := by
  rw [convert, if_pos (by rw [hkeys, hvalues]; rfl), map_eq_ok_iff]
  simp only [Catalog.convertEntries_eq_ok_iff]

/-- A mapping is converted and taken as a map exactly if each of its entries can be read by
itself. -/
theorem convert_take_map_iff (hkeys : keys.isScalar = true) (hvalues : values.isPrimitive = true)
    {raw : List (String × Tree)} {fields : Fields} {name : String} {order : MapOrder}
    {absence : Absence} {taken : Value} :
    (∃ value, convert coercion (.map keys values) (.mapping raw) path = .ok value ∧
        ((fields.insert name value).take name
          ⟨.primitive (.map order key element), absence⟩).1 = .ok (some taken)) ↔
      ∃ read, List.Forall₂ (ReadAs coercion keys values path key element) raw read ∧
        FieldType.collect order read = taken := by
  have hread : ReadAs coercion keys values path key element =
      Relation.Comp
        (fun entry pair =>
          convert coercion keys (.scalar entry.1) (path ++ [.key entry.1]) = .ok pair.1 ∧
            convert coercion values entry.2 (path ++ [.key entry.1]) = .ok pair.2)
        fun (pair : Value × Value) read =>
          key.read pair.1 = .ok read.1 ∧ element.read pair.2 = .ok read.2 := by
    funext entry read
    refine propext ⟨?_, ?_⟩
    · rintro ⟨⟨k, hk, hkey⟩, v, hv, helement⟩
      exact ⟨(k, v), ⟨hk, hv⟩, hkey, helement⟩
    · rintro ⟨⟨k, v⟩, ⟨hk, hv⟩, hkey, helement⟩
      exact ⟨⟨k, hk, hkey⟩, v, hv, helement⟩
  rw [hread]
  simp only [← forall₂_comp_iff, take_insert_eq_ok_iff, Request.read,
    convert_map_eq_ok_iff hkeys hvalues]
  constructor
  · rintro ⟨_, ⟨pairs, hpairs, rfl⟩, htaken⟩
    obtain ⟨read, hreads, hcollect⟩ := FieldType.read_map_eq_ok_iff.mp htaken
    exact ⟨read, ⟨pairs, hpairs, hreads⟩, hcollect⟩
  · rintro ⟨read, ⟨pairs, hpairs, hreads⟩, hcollect⟩
    exact ⟨.map pairs, ⟨pairs, hpairs, rfl⟩,
      FieldType.read_map_eq_ok_iff.mpr ⟨read, hreads, hcollect⟩⟩

/-- **A map has one entry for each key that is read**, with the value that was read last. -/
theorem take_of_convert_map (hkeys : keys.isScalar = true) (hvalues : values.isPrimitive = true)
    (raw : List (String × Tree)) (fields : Fields) (name : String) (order : MapOrder)
    (absence : Absence) :
    (∀ value taken, convert coercion (.map keys values) (.mapping raw) path = .ok value →
      ((fields.insert name value).take name
        ⟨.primitive (.map order key element), absence⟩).1 = .ok (some taken) →
      ∃ read kept : Entries Key Value,
        List.Forall₂ (ReadAs coercion keys values path key element) raw read ∧
        taken = .map (kept.map fun entry => (entry.1.toValue, entry.2)) ∧
        Entries.NodupKeys kept ∧
        (∀ entry, entry ∈ kept ↔
          (read.filter fun other => other.1 = entry.1).getLast? = some entry) ∧
        kept.length ≤ raw.length ∧ (kept.length = raw.length ↔ Entries.NodupKeys read)) ∧
    ((∃ value taken, convert coercion (.map keys values) (.mapping raw) path = .ok value ∧
        ((fields.insert name value).take name
          ⟨.primitive (.map order key element), absence⟩).1 = .ok (some taken)) ↔
      ∀ entry ∈ raw, ∃ read, ReadAs coercion keys values path key element entry read) := by
  constructor
  · intro value taken hconvert htake
    obtain ⟨read, hread, hcollect⟩ :=
      (convert_take_map_iff hkeys hvalues).mp ⟨value, hconvert, htake⟩
    obtain ⟨kept, hperm, hkept⟩ := FieldType.exists_perm_collect order read
    have hnodup : Entries.NodupKeys (Entries.ofList read) := Entries.nodupKeys_ofList read
    refine ⟨read, kept, hread, hcollect.symm.trans hkept, (hperm.map Prod.fst).nodup_iff.mpr hnodup,
      fun entry => ?_, ?_, ?_⟩
    · rw [hperm.mem_iff, ← Entries.get?_reverse_eq_some_iff, ← Entries.get?_ofList,
        Entries.get?_eq_some_iff hnodup]
    · rw [hread.length_eq, hperm.length_eq]
      exact Entries.length_ofList_le read
    · rw [hread.length_eq, hperm.length_eq]
      exact Entries.length_ofList_eq_iff
  · rw [← exists_forall₂_iff, exists_comm]
    simp only [convert_take_map_iff hkeys hvalues]
    exact ⟨fun ⟨_, read, hread, _⟩ => ⟨read, hread⟩, fun ⟨read, hread⟩ => ⟨_, read, hread, rfl⟩⟩

end Mapping

/-- A mapping in which a key comes again, written differently. -/
def repeating : List (String × Tree) :=
  [("2", .scalar "a"), ("1*1", .scalar "b"), ("1+1", .scalar "c")]

/-- Each of its entries can be read, and two of the three are left. -/
theorem take_of_convert_map_repeating :
    ∃ value taken : Value,
      convert .strict (.map .int .str) (.mapping repeating) [.key "m"] = .ok value ∧
      (((Fields.empty "Alpha" "").insert "m" value).take "m"
        ⟨.primitive (.map .sorted (.integer .signed64) .str), .isMissing⟩).1 = .ok (some taken) ∧
      ∃ kept : Entries Key Value,
        taken = .map (kept.map fun entry => (entry.1.toValue, entry.2)) ∧
        (.int 1, .str "b") ∈ kept ∧ (.int 2, .str "c") ∈ kept ∧ kept.length < 3 := by
  let read : List (Key × Value) :=
    [(.int 2, .str "a"), (.int 1, .str "b"), (.int 2, .str "c")]
  have hread : List.Forall₂
      (ReadAs .strict .int .str [.key "m"] (.integer .signed64) .str) repeating read :=
    .cons ⟨⟨_, rfl, rfl⟩, _, rfl, rfl⟩
      (.cons ⟨⟨_, rfl, rfl⟩, _, rfl, rfl⟩ (.cons ⟨⟨_, rfl, rfl⟩, _, rfl, rfl⟩ .nil))
  obtain ⟨hmap, htaken⟩ := @take_of_convert_map .strict .int .str [.key "m"] (.integer .signed64)
    .str rfl rfl repeating (.empty "Alpha" "") "m" .sorted .isMissing
  obtain ⟨value, taken, hconvert, htake⟩ := htaken.mpr (exists_forall₂_iff.mp ⟨read, hread⟩)
  obtain ⟨other, kept, hother, hkept, -, hmem, hle, hlength⟩ := hmap value taken hconvert htake
  obtain rfl : other = read := List.right_unique_forall₂' readAs_rightUnique hother hread
  refine ⟨value, taken, hconvert, htake, kept, hkept, (hmem _).mpr rfl, (hmem _).mpr rfl, ?_⟩
  exact Nat.lt_of_le_of_ne hle fun he => absurd (hlength.mp he) (by decide)

/-- **Entries are lost without a fault**: of two keys that are read as one the later counts. -/
theorem convert_map_loses_entry :
    convert .strict (.map .int .str) (.mapping [("1", .scalar "a"), ("1*1", .scalar "b")])
        [.key "m"] = .ok (.map [(.int 1, .str "a"), (.int 1, .str "b")]) ∧
      ∀ order : MapOrder,
        (((Fields.empty "Alpha" "").insert "m"
          (.map [(.int 1, .str "a"), (.int 1, .str "b")])).take "m"
            ⟨.primitive (.map order (.integer .signed64) .str), .isMissing⟩).1 =
          .ok (some (.map [(.int 1, .str "b")])) := by
  refine ⟨rfl, fun order => ?_⟩
  let read : List (Key × Value) := [(.int 1, .str "a"), (.int 1, .str "b")]
  obtain ⟨kept, hperm, hcollect⟩ := FieldType.exists_perm_collect order read
  obtain rfl : kept = [(.int 1, .str "b")] := List.perm_singleton.mp hperm
  exact take_insert_eq_ok_iff.mpr (FieldType.read_map_eq_ok_iff.mpr
    ⟨read, .cons ⟨rfl, rfl⟩ (.cons ⟨rfl, rfl⟩ .nil), hcollect⟩)

end ConfigTree
