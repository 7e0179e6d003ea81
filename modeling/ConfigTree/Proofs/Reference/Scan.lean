import ConfigTree.Reference.Scan
import Mathlib.Data.List.Basic

/-! # What a scan finds

`scanFrom` walks over a text with a counter of characters to skip.  `Scanned` is the same cut
without the counter: a text is empty, or starts with a character that belongs to no reference, or
starts with a dollar sign and a whole reference.  All facts about scans are proved along it.

* A place with a reference is never missed altogether: a scan that does not stop there has found
  another reference before it (`namesIn_append_ne_nil`).
* Where a name ends is seen from the reference and one character after it, so a reference is found
  again wherever that much of the text is (`match?_append`).
* Only the names of a table decide where a text is cut (`shapes_congr`), and the texts of the table
  fill the cuts (`rewritten_eq_fill`).
-/
namespace ConfigTree

/-- The names in a list of pieces. -/
def namesOf (pieces : List Piece) : List String := pieces.filterMap Piece.name?

/-- The names that a list of characters refers to. -/
def namesIn (table : Table) (text : List Char) : List String := namesOf (scanFrom table 0 text)

/-- A list of characters with its references replaced. -/
def rewritten (table : Table) (text : List Char) : List Char :=
  (scanFrom table 0 text).flatMap Piece.replacement

@[simp] theorem substituteText_toList (table : Table) (text : String) :
    (substituteText table text).toList = rewritten table text.toList := by
  simp [substituteText, rewritten, scan]

theorem substituteText_eq_iff {table : Table} {text other : String} :
    substituteText table text = other ↔ rewritten table text.toList = other.toList := by
  rw [← substituteText_toList, String.toList_inj]

/-! ### One name at one place -/

theorem eq_of_prefix_append {front token after : List Char} (h : front <+: token ++ after)
    (hlen : front.length = token.length) : front = token := by
  obtain ⟨tail, ht⟩ := h
  exact (List.append_inj ht hlen).1

namespace Reference

theorem lengthAt?_le {name body : List Char} {n : Nat} (h : lengthAt? name body = some n) :
    n ≤ body.length := by
  unfold lengthAt? at h
  split at h
  · cases h
  · split at h
    · next hp =>
      have hlen := (List.isPrefixOf_iff_prefix.mp hp).length_le
      simp at hlen h
      omega
    · split at h
      · next hp =>
        rw [Bool.and_eq_true] at hp
        have hlen := (List.isPrefixOf_iff_prefix.mp hp.1).length_le
        simp at h
        omega
      · cases h

/-- Whether a name fits is decided by the characters it takes and the next one. -/
theorem lengthAt?_append {name token after other : List Char}
    (h : lengthAt? name (token ++ after) = some token.length)
    (hother : other = [] ∨ other.head? = after.head?) :
    (lengthAt? name (token ++ other)).isSome := by
  unfold lengthAt? at h ⊢
  split at h
  · cases h
  · next hne =>
    rw [if_neg hne]
    split at h
    · next hp =>
      simp only [Option.some.injEq] at h
      have htoken : '{' :: name ++ ['}'] = token :=
        eq_of_prefix_append (List.isPrefixOf_iff_prefix.mp hp) (by simp [← h])
      have hbraced : ('{' :: name ++ ['}']).isPrefixOf (token ++ other) = true :=
        List.isPrefixOf_iff_prefix.mpr ⟨other, by rw [htoken]⟩
      rw [if_pos hbraced]
      rfl
    · split at h
      · next hp =>
        rw [Bool.and_eq_true] at hp
        obtain ⟨hpre, hnext⟩ := hp
        simp only [Option.some.injEq] at h
        have htoken : name = token :=
          eq_of_prefix_append (List.isPrefixOf_iff_prefix.mp hpre) h
        subst htoken
        split
        · rfl
        · have hword : other.head?.any isWordChar = false := by
            rcases hother with rfl | ho
            · rfl
            · rw [ho]
              simpa using hnext
          simp [hword]
      · cases h

theorem match?_isSome_iff {table : Table} {body : List Char} :
    (match? table body).isSome ↔ ∃ leaf ∈ table, (lengthAt? leaf.1.toList body).isSome := by
  induction table with
  | nil => simp [match?]
  | cons leaf rest ih =>
    obtain ⟨name, value⟩ := leaf
    cases h : lengthAt? name.toList body with
    | none => simp [match?, h, ih]
    | some n => simp [match?, h]

/-- What is found is an entry of the table whose name fits at the place. -/
theorem match?_spec {table : Table} {body : List Char} {found : Reference}
    (h : match? table body = some found) :
    (found.name, found.value) ∈ table ∧
      lengthAt? found.name.toList body = some found.length := by
  induction table with
  | nil => simp [match?] at h
  | cons leaf rest ih =>
    obtain ⟨name, value⟩ := leaf
    cases hn : lengthAt? name.toList body with
    | none =>
      simp only [match?, hn] at h
      obtain ⟨hmem, hlen⟩ := ih h
      exact ⟨List.mem_cons_of_mem _ hmem, hlen⟩
    | some n =>
      simp only [match?, hn, Option.some.injEq] at h
      subst h
      exact ⟨List.mem_cons_self .., hn⟩

theorem length_le_of_match? {table : Table} {body : List Char} {found : Reference}
    (h : match? table body = some found) : found.length ≤ body.length :=
  lengthAt?_le (match?_spec h).2

/-- A reference is found again wherever its characters and the next one are. -/
theorem match?_append {table : Table} {token after other : List Char} {found : Reference}
    (h : match? table (token ++ after) = some found) (hlen : token.length = found.length)
    (hother : other = [] ∨ other.head? = after.head?) :
    (match? table (token ++ other)).isSome := by
  obtain ⟨hmem, hfits⟩ := match?_spec h
  rw [← hlen] at hfits
  exact match?_isSome_iff.mpr ⟨_, hmem, lengthAt?_append hfits hother⟩

end Reference

/-! ### The cut of a text -/

theorem scanFrom_eq_drop (table : Table) (skip : Nat) (text : List Char) :
    scanFrom table skip text = scanFrom table 0 (text.drop skip) := by
  induction text generalizing skip with
  | nil => cases skip <;> simp [scanFrom]
  | cons c rest ih =>
    cases skip with
    | zero => rfl
    | succ skip => rw [scanFrom, ih, List.drop_succ_cons]

theorem scanFrom_plain (table : Table) {c : Char} (hc : c ≠ '$') (rest : List Char) :
    scanFrom table 0 (c :: rest) = .plain c :: scanFrom table 0 rest := by
  rw [scanFrom, if_neg hc]

theorem namesIn_plain (table : Table) {c : Char} (hc : c ≠ '$') (rest : List Char) :
    namesIn table (c :: rest) = namesIn table rest := by
  rw [namesIn, scanFrom_plain table hc]
  rfl

theorem rewritten_plain (table : Table) {c : Char} (hc : c ≠ '$') (rest : List Char) :
    rewritten table (c :: rest) = c :: rewritten table rest := by
  rw [rewritten, scanFrom_plain table hc]
  rfl

/-- The pieces of a text, one constructor for each way in which it can begin. -/
inductive Scanned (table : Table) : List Char → List Piece → Prop where
  | nil : Scanned table [] []
  | plain {c : Char} {rest : List Char} {pieces : List Piece} :
      (c = '$' → Reference.match? table rest = none) → Scanned table rest pieces →
      Scanned table (c :: rest) (.plain c :: pieces)
  | reference {token rest : List Char} {found : Reference} {pieces : List Piece} :
      Reference.match? table (token ++ rest) = some found → token.length = found.length →
      Scanned table rest pieces →
      Scanned table ('$' :: (token ++ rest)) (.reference found :: pieces)

/-- **Every text is cut in one way**, the one that `scanFrom` finds. -/
theorem scanned_iff {table : Table} {text : List Char} {pieces : List Piece} :
    Scanned table text pieces ↔ scanFrom table 0 text = pieces := by
  constructor
  · intro h
    induction h with
    | nil => rfl
    | @plain c rest pieces hc _ ih =>
      by_cases hd : c = '$'
      · simp [scanFrom, hd, hc hd, ih]
      · simp [scanFrom, hd, ih]
    | @reference token rest found pieces hm hlen _ ih =>
      rw [scanFrom, if_pos rfl, hm]
      simp only
      rw [scanFrom_eq_drop, ← hlen, List.drop_left, ih]
  · rintro rfl
    -- The rest after a reference is shorter by more than one character.
    induction hn : text.length using Nat.strongRecOn generalizing text with
    | ind n ih =>
      subst hn
      cases text with
      | nil => exact .nil
      | cons c rest =>
        have hrest : Scanned table rest (scanFrom table 0 rest) :=
          ih _ (Nat.lt_succ_self _) rfl
        by_cases hd : c = '$'
        · subst hd
          cases hm : Reference.match? table rest with
          | none =>
            simp only [scanFrom, if_pos, hm]
            exact .plain (fun _ => hm) hrest
          | some found =>
            have hle := Reference.length_le_of_match? hm
            simp only [scanFrom, if_pos, hm]
            rw [scanFrom_eq_drop]
            have hcut := List.take_append_drop found.length rest
            have hstep : Scanned table ('$' :: (rest.take found.length ++ rest.drop found.length))
                (.reference found :: scanFrom table 0 (rest.drop found.length)) :=
              .reference (by rw [hcut]; exact hm) (List.length_take_of_le hle)
                (ih _ (by rw [List.length_drop, List.length_cons]; omega) rfl)
            rwa [hcut] at hstep
        · simp only [scanFrom, if_neg hd]
          exact .plain (fun h => absurd h hd) hrest

theorem scanned (table : Table) (text : List Char) :
    Scanned table text (scanFrom table 0 text) := scanned_iff.mpr rfl

theorem Scanned.mem_table {table : Table} {text : List Char} {pieces : List Piece}
    (h : Scanned table text pieces) {found : Reference} (hf : .reference found ∈ pieces) :
    (found.name, found.value) ∈ table := by
  induction h with
  | nil => cases hf
  | plain _ _ ih => exact ih (by simpa using hf)
  | reference hm _ _ ih =>
    rcases List.mem_cons.mp hf with he | hf
    · cases he
      exact (Reference.match?_spec hm).1
    · exact ih hf

theorem mem_namesOf {pieces : List Piece} {name : String} :
    name ∈ namesOf pieces ↔ ∃ found, .reference found ∈ pieces ∧ found.name = name := by
  simp only [namesOf, List.mem_filterMap]
  constructor
  · rintro ⟨piece, hp, hn⟩
    cases piece with
    | plain c => cases hn
    | reference found => exact ⟨found, hp, Option.some.inj hn⟩
  · rintro ⟨found, hf, rfl⟩
    exact ⟨_, hf, rfl⟩

theorem namesIn_subset_keys {table : Table} {text : List Char} {name : String}
    (h : name ∈ namesIn table text) : name ∈ Entries.keys table := by
  obtain ⟨found, hf, rfl⟩ := mem_namesOf.mp h
  exact List.mem_map.mpr ⟨_, (scanned table text).mem_table hf, rfl⟩

/-- A text without references is left as it is. -/
theorem rewritten_eq_self {table : Table} {text : List Char} (h : namesIn table text = []) :
    rewritten table text = text := by
  have hs := scanned table text
  unfold namesIn at h
  unfold rewritten
  generalize scanFrom table 0 text = pieces at hs h
  induction hs with
  | nil => rfl
  | plain _ _ ih => simpa [Piece.replacement] using ih (by simpa [namesOf, Piece.name?] using h)
  | reference _ _ _ _ => simp [namesOf, Piece.name?] at h

/-- **No place with a reference is missed**: the scan finds it, or another one that covers it. -/
theorem namesIn_append_ne_nil {table : Table} {before body : List Char}
    (h : (Reference.match? table body).isSome) :
    namesIn table (before ++ '$' :: body) ≠ [] := by
  induction before with
  | nil =>
    obtain ⟨found, hm⟩ := Option.isSome_iff_exists.mp h
    simp [namesIn, namesOf, scanFrom, hm, Piece.name?]
  | cons c before ih =>
    have hplain : namesOf (.plain c :: scanFrom table 0 (before ++ '$' :: body)) ≠ [] := ih
    rw [List.cons_append, namesIn, scanFrom]
    split
    · split
      · simp [namesOf, Piece.name?]
      · exact hplain
    · exact hplain

/-! ### Names decide the cut, texts fill it -/

/-- What is left of a piece when the texts of the table are forgotten. -/
def Piece.shape : Piece → Char ⊕ String
  | .plain c => .inl c
  | .reference found => .inr found.name

/-- The cut of a text, without the texts of the table. -/
def shapes (table : Table) (text : List Char) : List (Char ⊕ String) :=
  (scanFrom table 0 text).map Piece.shape

/-- Puts texts in the place of names. -/
def fill (texts : String → List Char) (cut : List (Char ⊕ String)) : List Char :=
  cut.flatMap (Sum.elim (fun c => [c]) texts)

/-- The text of a name, empty if the table does not have it. -/
def Table.textAt (table : Table) (name : String) : List Char :=
  ((Entries.get? table name).getD "").toList

theorem Reference.match?_congr {table other : Table} (h : Entries.keys table = Entries.keys other)
    (body : List Char) :
    (match? table body).map (fun found => (found.name, found.length)) =
      (match? other body).map (fun found => (found.name, found.length)) := by
  induction table generalizing other with
  | nil =>
    cases other with
    | nil => rfl
    | cons leaf rest => simp [Entries.keys] at h
  | cons leaf rest ih =>
    cases other with
    | nil => simp [Entries.keys] at h
    | cons leaf' rest' =>
      obtain ⟨name, value⟩ := leaf
      obtain ⟨name', value'⟩ := leaf'
      simp only [Entries.keys, List.map_cons, List.cons.injEq] at h
      obtain ⟨rfl, hrest⟩ := h
      cases hn : lengthAt? name.toList body with
      | none => simpa [match?, hn] using ih hrest
      | some n => simp [match?, hn]

/-- Tables with the same names cut every text in the same places. -/
theorem shapes_congr {table other : Table} (h : Entries.keys table = Entries.keys other)
    (text : List Char) : shapes table text = shapes other text := by
  have hfrom : ∀ skip, (scanFrom table skip text).map Piece.shape =
      (scanFrom other skip text).map Piece.shape := by
    induction text with
    | nil => intro skip; cases skip <;> rfl
    | cons c rest ih =>
      intro skip
      cases skip with
      | succ skip => exact ih skip
      | zero =>
        have hm := Reference.match?_congr h rest
        by_cases hd : c = '$'
        · cases hl : Reference.match? table rest <;> cases hr : Reference.match? other rest <;>
            simp_all [scanFrom, Piece.shape]
        · simp [scanFrom, hd, Piece.shape, ih]
  exact hfrom 0

theorem namesIn_eq_shapes (table : Table) (text : List Char) :
    namesIn table text = (shapes table text).filterMap Sum.getRight? := by
  rw [namesIn, namesOf, shapes, List.filterMap_map]
  congr 1
  funext piece
  cases piece <;> rfl

/-- Tables with the same names find the same references. -/
theorem namesIn_congr {table other : Table} (h : Entries.keys table = Entries.keys other)
    (text : List Char) : namesIn table text = namesIn other text := by
  rw [namesIn_eq_shapes, shapes_congr h, ← namesIn_eq_shapes]

theorem mem_namesIn_iff {table : Table} {text : List Char} {name : String} :
    name ∈ namesIn table text ↔ .inr name ∈ shapes table text := by
  simp [namesIn_eq_shapes, List.mem_filterMap]

theorem textAt_of_mem {table : Table} (hk : Entries.NodupKeys table) {name value : String}
    (h : (name, value) ∈ table) : table.textAt name = value.toList := by
  have hget : Entries.get? table name = some value := (Entries.get?_eq_some_iff hk).mpr h
  simp [Table.textAt, hget]

theorem textAt_eq_nil_or_mem (table : Table) (name : String) :
    table.textAt name = [] ∨ ∃ text, (name, text) ∈ table ∧ table.textAt name = text.toList := by
  cases hget : Entries.get? table name with
  | none => exact Or.inl (by simp [Table.textAt, hget])
  | some text => exact Or.inr ⟨text, Entries.mem_of_get? hget, by simp [Table.textAt, hget]⟩

/-- Rewriting fills the cut with the texts of the table. -/
theorem rewritten_eq_fill {table : Table} (hk : Entries.NodupKeys table) (text : List Char) :
    rewritten table text = fill table.textAt (shapes table text) := by
  rw [rewritten, fill, shapes, List.flatMap_map]
  refine List.flatMap_congr fun piece hp => ?_
  cases piece with
  | plain c => rfl
  | reference found => exact (textAt_of_mem hk ((scanned table text).mem_table hp)).symm

/-- Only the texts of the names that are referred to count. -/
theorem fill_congr {texts others : String → List Char} {cut : List (Char ⊕ String)}
    (h : ∀ name, .inr name ∈ cut → texts name = others name) :
    fill texts cut = fill others cut := by
  refine List.flatMap_congr fun shape hs => ?_
  cases shape with
  | inl c => rfl
  | inr name => exact h name hs

end ConfigTree
