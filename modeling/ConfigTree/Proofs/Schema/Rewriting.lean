import ConfigTree.Proofs.Reference.Pass
import ConfigTree.Proofs.Schema.Rereading
import ConfigTree.Proofs.Tree.Validity

/-! # Records of resolved trees

Resolving the references of a tree rewrites its leaves, each by the same function of its text, and
that leaves a text alone in which there is no dollar sign (`Tree.exists_mapTexts_of_resolve`).  Of
what is written for a record, only the texts that the record holds can have one: numbers, booleans
and the names of members have none.  So **resolving the tree of a record is resolving the texts in
the record** (`Held.write_mapTexts`), and what is read from a resolved tree is known.
-/
namespace ConfigTree

/-! ### Rewritten texts -/

namespace Tree

variable {g : String → String}

theorem forall_same_of_sameItems {f : Tree → Tree} {items : List Tree}
    (h : sameItems (items.map f) items = true) : ∀ item ∈ items, (f item).same item = true := by
  induction items with
  | nil => simp
  | cons item rest ih =>
    obtain ⟨hitem, hrest⟩ := Bool.and_eq_true_iff.mp h
    exact List.forall_mem_cons.mpr ⟨hitem, ih hrest⟩

theorem forall_exists_of_entriesWithin {entries others : List (String × Tree)}
    (h : entriesWithin entries others = true) :
    ∀ entry ∈ entries, ∃ node, Entries.get? others entry.1 = some node ∧
      entry.2.same node = true := by
  induction entries with
  | nil => simp
  | cons entry rest ih =>
    obtain ⟨hentry, hrest⟩ := Bool.and_eq_true_iff.mp h
    refine List.forall_mem_cons.mpr ⟨?_, ih hrest⟩
    cases hget : Entries.get? others entry.1 with
    | none => simp [hget] at hentry
    | some node => exact ⟨node, rfl, by simpa [hget] using hentry⟩

/-- The keys of a tree with other texts are those that it had, in their order, so that it is the
same tree only if it is equal to it. -/
theorem mapTexts_eq_of_same {tree : Tree} (hvalid : tree.Valid)
    (h : (tree.mapTexts g).same tree = true) : tree.mapTexts g = tree := by
  induction tree using Tree.induction with
  | scalar text =>
    rw [mapTexts_scalar] at h ⊢
    exact congrArg scalar (eq_of_beq h)
  | sequence items ih =>
    rw [mapTexts_sequence] at h ⊢
    have hitems := forall_same_of_sameItems h
    refine congrArg sequence ?_
    nth_rewrite 2 [← List.map_id items]
    exact List.map_congr_left fun item hitem =>
      ih item hitem (validItems_iff.mp hvalid item hitem) (hitems item hitem)
  | mapping entries ih =>
    rw [mapTexts_mapping] at h ⊢
    have hentries := forall_exists_of_entriesWithin (Bool.and_eq_true_iff.mp h).2
    refine congrArg mapping ?_
    nth_rewrite 2 [← List.map_id entries]
    refine List.map_congr_left fun entry hentry => Prod.ext rfl ?_
    obtain ⟨node, hget, hsame⟩ := hentries (entry.1, entry.2.mapTexts g)
      (List.mem_map.mpr ⟨entry, hentry, rfl⟩)
    obtain rfl : entry.2 = node := Option.some.inj
      (((Entries.get?_eq_some_iff hvalid.1).mpr hentry).symm.trans hget)
    exact ih entry hentry (validEntries_iff.mp hvalid.2 entry hentry) hsame

end Tree

namespace Value

section Rewriting

variable (g : String → String)

mutual
/-- Rewrites the texts in a value; keys stay as they are. -/
def mapTexts : Value → Value
  | .str text => .str (g text)
  | .list items => .list (mapTextsItems items)
  | .map entries => .map (mapTextsEntries entries)
  | .record family type fields => .record family type (mapTextsFields fields)
  | other => other

/-- Rewrites the texts in the items of a list. -/
def mapTextsItems : List Value → List Value
  | [] => []
  | v :: rest => mapTexts v :: mapTextsItems rest

/-- Rewrites the texts in the entries of a map. -/
def mapTextsEntries : List (Value × Value) → List (Value × Value)
  | [] => []
  | (k, v) :: rest => (k, mapTexts v) :: mapTextsEntries rest

/-- Rewrites the texts in the fields of a record. -/
def mapTextsFields : List (String × Value) → List (String × Value)
  | [] => []
  | (name, v) :: rest => (name, mapTexts v) :: mapTextsFields rest
end

@[simp] theorem mapTexts_list (items : List Value) :
    (Value.list items).mapTexts g = .list (items.map (mapTexts g)) := by
  have hitems : mapTextsItems g items = items.map (mapTexts g) := by
    induction items with
    | nil => rfl
    | cons item rest ih => rw [mapTextsItems, ih, List.map_cons]
  rw [mapTexts, hitems]

@[simp] theorem mapTexts_map (entries : List (Value × Value)) :
    (Value.map entries).mapTexts g =
      .map (entries.map fun entry => (entry.1, entry.2.mapTexts g)) := by
  have hentries : mapTextsEntries g entries =
      entries.map fun entry => (entry.1, entry.2.mapTexts g) := by
    induction entries with
    | nil => rfl
    | cons entry rest ih =>
      rw [List.map_cons, ← ih]
      rfl
  rw [mapTexts, hentries]

theorem mapTexts_texts (entries : Entries String Value) :
    (Value.map (entries.map fun entry => (.str entry.1, entry.2))).mapTexts g =
      .map ((Entries.mapValues (mapTexts g) entries).map fun entry => (.str entry.1, entry.2)) := by
  simp [Entries.mapValues]

@[simp] theorem mapTexts_record (family : Option Family) (type : RecordType)
    (fields : Entries String Value) :
    (Value.record family type fields).mapTexts g =
      .record family type (Entries.mapValues (mapTexts g) fields) := by
  have hfields : mapTextsFields g fields = Entries.mapValues (mapTexts g) fields := by
    induction fields with
    | nil => rfl
    | cons field rest ih =>
      obtain ⟨name, value⟩ := field
      rw [mapTextsFields, ih]
      rfl
  rw [mapTexts, hfields]

mutual
/-- Integers are no texts. -/
theorem integers_mapTexts : (value : Value) → (value.mapTexts g).integers = value.integers
  | .list items => integersOfItems_mapTexts items
  | .map entries => integersOfEntries_mapTexts entries
  | .record _ _ fields => integersOfFields_mapTexts fields
  | .absent | .int _ | .float .. | .str _ | .bool _ => rfl

theorem integersOfItems_mapTexts : (items : List Value) →
    integersOfItems (mapTextsItems g items) = integersOfItems items
  | [] => rfl
  | v :: rest => congrArg₂ (· ++ ·) (integers_mapTexts v) (integersOfItems_mapTexts rest)

theorem integersOfEntries_mapTexts : (entries : List (Value × Value)) →
    integersOfEntries (mapTextsEntries g entries) = integersOfEntries entries
  | [] => rfl
  | (k, v) :: rest =>
    congrArg₂ (fun a b => k.integers ++ a ++ b) (integers_mapTexts v)
      (integersOfEntries_mapTexts rest)

theorem integersOfFields_mapTexts : (fields : List (String × Value)) →
    integersOfFields (mapTextsFields g fields) = integersOfFields fields
  | [] => rfl
  | (_, v) :: rest => congrArg₂ (· ++ ·) (integers_mapTexts v) (integersOfFields_mapTexts rest)
end

end Rewriting

end Value

/-! ### Texts without a dollar sign -/

/-- There is no dollar sign in the text, so it refers to nothing. -/
def HasNoDollar (text : String) : Prop := '$' ∉ text.toList

instance (text : String) : Decidable (HasNoDollar text) := inferInstanceAs (Decidable (¬ _))

theorem HasNoDollar.substituteText_eq {text : String} (h : HasNoDollar text) (table : Table) :
    substituteText table text = text := by
  have hnone : ∀ cs : List Char, '$' ∉ cs → namesIn table cs = [] := by
    intro cs hcs
    induction cs with
    | nil => rfl
    | cons c rest ih =>
      obtain ⟨hc, hrest⟩ := not_or.mp (mt List.mem_cons.mpr hcs)
      rw [namesIn_plain table (Ne.symm hc), ih hrest]
  exact substituteText_eq_iff.mpr (rewritten_eq_self (hnone _ h))

namespace Text

theorem dollar_notMem_intDigits (i : Int) : '$' ∉ intDigits i := by
  have hdigits : '$' ∉ natDigits i.natAbs := fun h => by
    have hd := isDigit_of_mem_natDigits h
    cases hd
  unfold intDigits
  split <;> simp [hdigits]

theorem hasNoDollar_showInt (i : Int) : HasNoDollar (showInt i) := by
  simpa [HasNoDollar, showInt] using dollar_notMem_intDigits i

end Text

theorem Floating.Spells.dollar_notMem {cs : List Char} {digits : Nat} {exponent : Int}
    (h : Floating.Spells cs digits exponent) : '$' ∉ cs := by
  obtain ⟨d, places, tail, rfl, hd, hplaces, htail⟩ := h.exists_places
  have hfirst : '$' ≠ d := by
    rintro rfl
    cases hd
  have hmiddle : '$' ∉ places := fun h => by
    have hplace := hplaces _ h
    cases hplace
  have hlast : '$' ∉ tail := by
    rcases htail with rfl | ⟨power, rfl⟩
    · exact List.not_mem_nil
    · simpa using Text.dollar_notMem_intDigits power
  simp [hfirst, hmiddle, hlast]

theorem Floating.hasNoDollar_text {x : Floating} (hfinite : x.isFinite = true)
    (hc : double.IsCanonical x) : HasNoDollar (Floating.text Floating.stored double x) := by
  cases x with
  | nan => cases hfinite
  | infinite negative => cases hfinite
  | finite negative m e =>
    obtain ⟨digits, exponent, hspells, -⟩ := Floating.exists_spells_stored hc
    have hdigits := hspells.dollar_notMem
    cases negative <;> simpa [HasNoDollar, Floating.text] using hdigits

/-! ### Resolving rewrites texts -/

/-- **Resolving a tree rewrites its texts**, all by one function, and those without a dollar sign
not at all. -/
theorem Tree.exists_mapTexts_of_resolve {cap : Nat} {tree result : Tree}
    (h : tree.resolve cap = .ok result) :
    ∃ g : String → String, (∀ text, HasNoDollar text → g text = text) ∧
      result = tree.mapTexts g := by
  obtain ⟨k, -, -, -, rfl⟩ := resolve_eq_ok_iff.mp h
  generalize k + 1 = passes
  induction passes with
  | zero =>
    refine ⟨id, fun _ _ => rfl, ?_⟩
    exact (mapLeaves_eq_self_iff.mpr fun _ _ => rfl).symm
  | succ passes ih =>
    obtain ⟨g, hg, hresult⟩ := ih
    -- One more pass looks texts up in the table that the tree has by then.
    rw [Function.iterate_succ_apply', hresult]
    refine ⟨fun text => substituteText (tree.mapTexts g).flatten (g text), fun text ht => ?_, ?_⟩
    · dsimp only
      rw [hg text ht, ht.substituteText_eq]
    · exact mapLeaves_mapLeaves _ _ _

/-! ### Records of rewritten trees -/

section Write

variable {catalog : Catalog} {getters : RecordType → Entries String Getter} {g : String → String}

theorem FieldType.Holds.mapTexts {type : FieldType} {value : Value} (h : type.Holds value) :
    type.Holds (value.mapTexts g) := by
  induction h with
  | integer hi hrange => exact .integer hi hrange
  | float hfinite hx => exact .float hfinite hx
  | str text => exact .str (g text)
  | bool b => exact .bool b
  | list _ ih =>
    rw [Value.mapTexts_list]
    exact .list (List.forall_mem_map.mpr ih)
  | @map element entries hnodup _ ih =>
    rw [Value.mapTexts_texts]
    refine .map ?_ ?_
    · rwa [Entries.NodupKeys, Entries.keys_mapValues]
    · exact List.forall_mem_map.mpr ih

/-- What is held is still held with other texts in it. -/
theorem Catalog.Held.mapTexts {request : Request} {value : Value}
    (h : catalog.Held getters request value) : catalog.Held getters request (value.mapTexts g) := by
  have hfields : ∀ {type : RecordType} {fields : Entries String Value},
      (∀ name getter value, (name, getter) ∈ getters type →
        (name, value) ∈ fields → catalog.Held getters getter.request (value.mapTexts g)) →
      ∀ name getter value, (name, getter) ∈ getters type →
        (name, value) ∈ Entries.mapValues (Value.mapTexts g) fields →
        catalog.Held getters getter.request value := by
    intro type fields h name getter value hg hv
    obtain ⟨field, hf, he⟩ := List.mem_map.mp hv
    cases he
    exact h _ getter _ hg hf
  induction h with
  | primitive hvalue => exact .primitive hvalue.mapTexts
  | record hnames _ ih =>
    rw [Value.mapTexts_record]
    exact .record ((Entries.keys_mapValues ..).trans hnames) (hfields ih)
  | member henrolled hnames _ ih =>
    rw [Value.mapTexts_record]
    exact .member henrolled ((Entries.keys_mapValues ..).trans hnames) (hfields ih)
  | members hmulti _ ih =>
    rw [Value.mapTexts_list]
    exact .members hmulti (List.forall_mem_map.mpr ih)

variable (hg : ∀ text, HasNoDollar text → g text = text)
include hg

theorem FieldType.Holds.write_mapTexts {type : FieldType} {value : Value} (h : type.Holds value) :
    catalog.write (value.mapTexts g) = (catalog.write value).mapTexts g := by
  induction h with
  | @integer range i _ _ =>
    show Tree.scalar (Text.showInt i) = .scalar (g (Text.showInt i))
    rw [hg _ (Text.hasNoDollar_showInt i)]
  | @float x hfinite hx =>
    show Tree.scalar (Floating.text Floating.stored double x) =
      .scalar (g (Floating.text Floating.stored double x))
    rw [hg _ (Floating.hasNoDollar_text hfinite hx)]
  | str text => rfl
  | bool b =>
    show Tree.scalar (if b then "true" else "false") = .scalar (g (if b then "true" else "false"))
    rw [hg _ (by cases b <;> decide)]
  | @list element items _ ih =>
    rw [Value.mapTexts_list, Catalog.write, Catalog.write, Catalog.writeItems_eq,
      Catalog.writeItems_eq, Tree.mapTexts_sequence, List.map_map, List.map_map]
    exact congrArg Tree.sequence (List.map_congr_left ih)
  | @map element entries hnodup _ ih =>
    have hnodup' : Entries.NodupKeys (Entries.mapValues (Value.mapTexts g) entries) := by
      rwa [Entries.NodupKeys, Entries.keys_mapValues]
    rw [Value.mapTexts_texts, Catalog.write_map hnodup', Catalog.write_map hnodup,
      Tree.mapTexts_mapping]
    simp only [Entries.mapValues, List.map_map]
    exact congrArg Tree.mapping (List.map_congr_left fun entry he => Prod.ext rfl (ih entry he))

/-- **Rewriting the texts of what is written is rewriting the texts in the value.** -/
theorem Catalog.Held.write_mapTexts (hc : catalog.Regular getters)
    (hnames : ∀ family type, catalog.Enrolled family type → HasNoDollar type.name)
    {request : Request} {value : Value} (h : catalog.Held getters request value) :
    catalog.write (value.mapTexts g) = (catalog.write value).mapTexts g := by
  have hfields : ∀ {type : RecordType} {fields : Entries String Value},
      Entries.keys fields = Entries.keys (getters type) →
      (∀ name getter value, (name, getter) ∈ getters type →
        (name, value) ∈ fields →
        catalog.write (value.mapTexts g) = (catalog.write value).mapTexts g) →
      Entries.mapValues catalog.write (Entries.mapValues (Value.mapTexts g) fields) =
        Entries.mapValues (Tree.mapTexts g) (Entries.mapValues catalog.write fields) := by
    intro type fields hkeys h
    simp only [Entries.mapValues, List.map_map]
    refine List.map_congr_left fun field hf => Prod.ext rfl ?_
    obtain ⟨getter, hgetter⟩ := exists_getter_of_mem hkeys hf
    exact h _ getter _ hgetter hf
  induction h with
  | primitive hvalue => exact hvalue.write_mapTexts hg
  | record hkeys _ ih =>
    rw [Value.mapTexts_record, hc.write_record hkeys,
      hc.write_record ((Entries.keys_mapValues ..).trans hkeys),
      Tree.mapTexts_mapping, hfields hkeys ih]
  | member henrolled hkeys _ ih =>
    rw [Value.mapTexts_record, hc.write_member _ hkeys,
      hc.write_member _ ((Entries.keys_mapValues ..).trans hkeys),
      Tree.mapTexts_mapping, hfields hkeys ih]
    -- The name in front is a text too, but not one of the record.
    have hname := hg _ (hnames _ _ henrolled)
    simp only [Entries.mapValues, List.map_cons, Tree.mapTexts_scalar, hname]
  | @members family items _ _ ih =>
    rw [Value.mapTexts_list, Catalog.write, Catalog.write, Catalog.writeItems_eq,
      Catalog.writeItems_eq, Tree.mapTexts_sequence, List.map_map, List.map_map]
    exact congrArg Tree.sequence (List.map_congr_left ih)

end Write

end ConfigTree
