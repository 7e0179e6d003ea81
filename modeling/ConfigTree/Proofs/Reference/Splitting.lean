import ConfigTree.Proofs.Entries
import ConfigTree.Proofs.Reference.Scan

/-! # The split of a text

What a scan finds in a text is said here without scanning it.  `Split` takes the text apart into
references and the gaps between them: each reference is spelled (`Reference.Spells`) with the first
name of the table that fits at its place (`Part.IsFirst`), and no dollar sign of a gap begins a
reference (`Quiet`).

Every text has a split (`exists_split`).  Whichever it is, the scan finds the names of its
references, and replacing puts their texts between the gaps (`Split.scan_eq`).
-/
namespace ConfigTree

namespace Reference

/-- `token` refers to the name, where `rest` follows it: it has the name in braces or, if they do
not fit, the name alone with no word going on behind it. -/
inductive Spells (name : String) : List Char → List Char → Prop where
  | braced (rest : List Char) : name ≠ "" →
      Spells name ('$' :: '{' :: (name.toList ++ ['}'])) rest
  | bare {rest : List Char} : name ≠ "" →
      ¬ '{' :: (name.toList ++ ['}']) <+: name.toList ++ rest →
      rest.head?.any isWordChar = false → Spells name ('$' :: name.toList) rest

/-- The text begins with a reference to the name. -/
def BeginsWith (name : String) (text : List Char) : Prop :=
  ∃ token rest, text = token ++ rest ∧ Spells name token rest

theorem lengthAt?_of_spells {name : String} {token rest : List Char}
    (h : Spells name ('$' :: token) rest) :
    lengthAt? name.toList (token ++ rest) = some token.length := by
  generalize hsigned : '$' :: token = signed at h
  cases h with
  | braced rest hne =>
    obtain ⟨-, rfl⟩ := List.cons.inj hsigned
    simp [lengthAt?, hne]
  | bare hne hbraced hend =>
    obtain ⟨-, rfl⟩ := List.cons.inj hsigned
    simp [lengthAt?, hne, hbraced, hend]

theorem spells_of_lengthAt? {name : String} {token rest : List Char}
    (h : lengthAt? name.toList (token ++ rest) = some token.length) :
    Spells name ('$' :: token) rest := by
  unfold lengthAt? at h
  split at h
  · cases h
  · next hempty =>
    have hne : name ≠ "" := by simpa using hempty
    split at h
    · next hbraced =>
      have htoken : '{' :: name.toList ++ ['}'] = token :=
        eq_of_prefix_append (List.isPrefixOf_iff_prefix.mp hbraced) (by simpa using h)
      subst htoken
      exact .braced rest hne
    · next hbraced =>
      split at h
      · next hbare =>
        obtain ⟨hfront, hend⟩ := (Bool.and_eq_true _ _).mp hbare
        have htoken : name.toList = token :=
          eq_of_prefix_append (List.isPrefixOf_iff_prefix.mp hfront) (by simpa using h)
        subst htoken
        rw [List.drop_left] at hend
        exact .bare hne (by simpa using hbraced) (by simpa using hend)
      · cases h

theorem beginsWith_iff {name : String} {body : List Char} :
    BeginsWith name ('$' :: body) ↔ (lengthAt? name.toList body).isSome := by
  constructor
  · rintro ⟨signed, rest, happend, hspells⟩
    obtain ⟨token, rfl⟩ : ∃ token, signed = '$' :: token := by cases hspells <;> exact ⟨_, rfl⟩
    have hbody : body = token ++ rest := (List.cons.inj happend).2
    rw [hbody, lengthAt?_of_spells hspells]
    rfl
  · intro h
    obtain ⟨n, hn⟩ := Option.isSome_iff_exists.mp h
    have hcut : body.take n ++ body.drop n = body := List.take_append_drop n body
    refine ⟨'$' :: body.take n, body.drop n, by rw [List.cons_append, hcut], ?_⟩
    refine spells_of_lengthAt? ?_
    rw [hcut, hn, List.length_take_of_le (lengthAt?_le hn)]

theorem match?_eq_none_iff {table : Table} {body : List Char} :
    match? table body = none ↔ ∀ leaf ∈ table, ¬BeginsWith leaf.1 ('$' :: body) := by
  simp only [beginsWith_iff, ← Option.not_isSome_iff_eq_none, match?_isSome_iff, not_exists,
    not_and]

/-- What is found is the first name of the table that fits. -/
theorem match?_eq_some_iff_first {table : Table} {body : List Char} {found : Reference} :
    match? table body = some found ↔ ∃ earlier later,
      table = earlier ++ (found.name, found.value) :: later ∧
        (∀ leaf ∈ earlier, ¬BeginsWith leaf.1 ('$' :: body)) ∧
        lengthAt? found.name.toList body = some found.length := by
  constructor
  · intro h
    induction table with
    | nil => cases h
    | cons leaf rest ih =>
      obtain ⟨name, value⟩ := leaf
      cases hn : lengthAt? name.toList body with
      | some n =>
        simp only [match?, hn, Option.some.injEq] at h
        subst h
        exact ⟨[], rest, rfl, by simp, hn⟩
      | none =>
        simp only [match?, hn] at h
        obtain ⟨earlier, later, rfl, hearlier, hlen⟩ := ih h
        refine ⟨(name, value) :: earlier, later, rfl, ?_, hlen⟩
        refine List.forall_mem_cons.mpr ⟨?_, hearlier⟩
        rw [beginsWith_iff, hn]
        simp
  · rintro ⟨earlier, later, rfl, hearlier, hlen⟩
    induction earlier with
    | nil => simp [match?, hlen]
    | cons leaf earlier ih =>
      obtain ⟨hleaf, hearlier⟩ := List.forall_mem_cons.mp hearlier
      have hn : lengthAt? leaf.1.toList body = none := by
        rwa [beginsWith_iff, Option.not_isSome_iff_eq_none] at hleaf
      simpa [match?, hn] using ih hearlier

end Reference

/-! ### References and the gaps between them -/

open Reference (BeginsWith Spells)

/-- A reference of a text, and what stands between it and the next one. -/
structure Part where
  name : String
  value : String
  /-- The characters of the reference, from the dollar sign on. -/
  token : List Char
  gap : List Char

/-- The part is a reference to the first name of the table that fits where `rest` follows. -/
def Part.IsFirst (part : Part) (table : Table) (rest : List Char) : Prop :=
  Spells part.name part.token rest ∧
    ∃ earlier later, table = earlier ++ (part.name, part.value) :: later ∧
      ∀ leaf ∈ earlier, ¬BeginsWith leaf.1 (part.token ++ rest)

/-- No dollar sign of `gap` begins a reference, where `rest` follows. -/
def Quiet (table : Table) (gap rest : List Char) : Prop :=
  ∀ before after, gap = before ++ '$' :: after →
    ∀ leaf ∈ table, ¬BeginsWith leaf.1 ('$' :: (after ++ rest))

/-- The text is a first gap and then the parts, each a reference and the gap behind it. -/
inductive Split (table : Table) : List Char → List Char → List Part → Prop where
  | last {gap : List Char} : Quiet table gap [] → Split table gap gap []
  | part {gap rest : List Char} {part : Part} {parts : List Part} :
      Quiet table gap (part.token ++ rest) → part.IsFirst table rest →
      Split table rest part.gap parts →
      Split table (gap ++ (part.token ++ rest)) gap (part :: parts)

/-- A character that begins no reference is kept, and has no name. -/
theorem scan_char {table : Table} {c : Char} {rest : List Char}
    (hc : c = '$' → Reference.match? table rest = none) :
    rewritten table (c :: rest) = c :: rewritten table rest ∧
      namesIn table (c :: rest) = namesIn table rest := by
  have hscan : scanFrom table 0 (c :: rest) = .plain c :: scanFrom table 0 rest :=
    scanned_iff.mp (.plain hc (scanned table rest))
  rw [rewritten, namesIn, hscan]
  exact ⟨rfl, rfl⟩

section Quiet

variable {table : Table} {gap rest : List Char}

theorem quiet_nil (table : Table) (rest : List Char) : Quiet table [] rest := by
  intro before after hgap
  simp at hgap

theorem quiet_of_notMem (h : '$' ∉ gap) : Quiet table gap rest := by
  rintro before after rfl
  simp at h

theorem quiet_cons_iff {c : Char} : Quiet table (c :: gap) rest ↔
    (c = '$' → Reference.match? table (gap ++ rest) = none) ∧ Quiet table gap rest := by
  constructor
  · intro h
    refine ⟨?_, fun before after hgap => h (c :: before) after (by rw [hgap]; rfl)⟩
    rintro rfl
    exact Reference.match?_eq_none_iff.mpr (h [] gap rfl)
  · rintro ⟨hfirst, hgap⟩ before after heq
    cases before with
    | nil =>
      obtain ⟨rfl, rfl⟩ := List.cons.inj heq
      exact Reference.match?_eq_none_iff.mp (hfirst rfl)
    | cons d before =>
      exact hgap before after (List.cons.inj heq).2

/-- A gap is kept, and has no names. -/
theorem Quiet.scan_append (h : Quiet table gap rest) :
    rewritten table (gap ++ rest) = gap ++ rewritten table rest ∧
      namesIn table (gap ++ rest) = namesIn table rest := by
  induction gap with
  | nil => exact ⟨rfl, rfl⟩
  | cons c gap ih =>
    obtain ⟨hfirst, hgap⟩ := quiet_cons_iff.mp h
    obtain ⟨hwritten, hlisted⟩ := ih hgap
    obtain ⟨hwritten', hlisted'⟩ := scan_char hfirst
    rw [List.cons_append, hwritten', hlisted', hwritten, hlisted]
    exact ⟨rfl, rfl⟩

theorem Quiet.scan_eq (h : Quiet table gap []) :
    rewritten table gap = gap ∧ namesIn table gap = [] := by
  obtain ⟨hwritten, hlisted⟩ := h.scan_append
  rw [List.append_nil] at hwritten hlisted
  exact ⟨hwritten.trans (List.append_nil gap), hlisted⟩

end Quiet

/-- A reference gives its text and its name. -/
theorem scan_reference {table : Table} {token rest : List Char} {found : Reference}
    (hm : Reference.match? table (token ++ rest) = some found)
    (hlen : token.length = found.length) :
    rewritten table ('$' :: (token ++ rest)) = found.value.toList ++ rewritten table rest ∧
      namesIn table ('$' :: (token ++ rest)) = found.name :: namesIn table rest := by
  have hscan : scanFrom table 0 ('$' :: (token ++ rest)) =
      .reference found :: scanFrom table 0 rest :=
    scanned_iff.mp (.reference hm hlen (scanned table rest))
  rw [rewritten, namesIn, hscan]
  exact ⟨rfl, rfl⟩

namespace Part.IsFirst

variable {table : Table} {part : Part} {rest : List Char} (h : part.IsFirst table rest)
include h

theorem scan_append :
    rewritten table (part.token ++ rest) = part.value.toList ++ rewritten table rest ∧
      namesIn table (part.token ++ rest) = part.name :: namesIn table rest := by
  obtain ⟨name, value, signed, gap⟩ := part
  obtain ⟨hspells, earlier, later, htable, hearlier⟩ := h
  simp only at hspells htable hearlier ⊢
  obtain ⟨token, rfl⟩ : ∃ token, signed = '$' :: token := by cases hspells <;> exact ⟨_, rfl⟩
  have hm : Reference.match? table (token ++ rest) = some ⟨name, value, token.length⟩ :=
    Reference.match?_eq_some_iff_first.mpr
      ⟨earlier, later, htable, hearlier, Reference.lengthAt?_of_spells hspells⟩
  exact scan_reference hm rfl

/-- The first name that fits has the first text of the table for it. -/
theorem get? : Entries.get? table part.name = some part.value := by
  obtain ⟨hspells, earlier, later, rfl, hearlier⟩ := h
  have hnew : Entries.get? earlier part.name = none := by
    refine Entries.get?_eq_none_iff.mpr fun hname => ?_
    obtain ⟨leaf, hleaf, heq⟩ := List.mem_map.mp hname
    refine hearlier leaf hleaf ?_
    rw [heq]
    exact ⟨part.token, rest, rfl, hspells⟩
  rw [Entries.get?_append, hnew, Entries.get?_cons, if_pos rfl, Option.none_or]

end Part.IsFirst

namespace Split

variable {table : Table} {text front : List Char} {parts : List Part}

theorem text_eq (h : Split table text front parts) :
    text = front ++ parts.flatMap fun part => part.token ++ part.gap := by
  induction h with
  | last hquiet => simp
  | part hquiet hfirst hrest ih => rw [List.flatMap_cons, List.append_assoc, ← ih]

/-- The texts of the references stand between the gaps, and their names are listed. -/
theorem scan_eq (h : Split table text front parts) :
    rewritten table text = front ++ parts.flatMap (fun part => part.value.toList ++ part.gap) ∧
      namesIn table text = parts.map Part.name := by
  induction h with
  | last hquiet => simpa using hquiet.scan_eq
  | part hquiet hfirst hrest ih =>
    obtain ⟨hwritten, hlisted⟩ := ih
    rw [hquiet.scan_append.1, hquiet.scan_append.2, hfirst.scan_append.1, hfirst.scan_append.2,
      hwritten, hlisted, List.flatMap_cons, List.append_assoc]
    exact ⟨rfl, rfl⟩

theorem get?_of_mem (h : Split table text front parts) {part : Part} (hp : part ∈ parts) :
    Entries.get? table part.name = some part.value := by
  induction h with
  | last hquiet => cases hp
  | part hquiet hfirst hrest ih =>
    rcases List.mem_cons.mp hp with rfl | hp
    · exact hfirst.get?
    · exact ih hp

theorem cons {c : Char} (hc : c = '$' → Reference.match? table text = none)
    (h : Split table text front parts) : Split table (c :: text) (c :: front) parts := by
  cases h with
  | last hquiet => exact .last (quiet_cons_iff.mpr ⟨by simpa using hc, hquiet⟩)
  | part hquiet hfirst hrest => exact .part (quiet_cons_iff.mpr ⟨hc, hquiet⟩) hfirst hrest

end Split

/-- **Every text has a split.** -/
theorem exists_split (table : Table) (text : List Char) :
    ∃ front parts, Split table text front parts := by
  have hscanned := scanned table text
  generalize scanFrom table 0 text = pieces at hscanned
  induction hscanned with
  | nil => exact ⟨[], [], .last (quiet_nil table [])⟩
  | plain hc _ ih =>
    obtain ⟨front, parts, hsplit⟩ := ih
    exact ⟨_, parts, hsplit.cons hc⟩
  | @reference token rest found pieces hm hlen _ ih =>
    obtain ⟨front, parts, hsplit⟩ := ih
    obtain ⟨earlier, later, htable, hearlier, hlength⟩ :=
      Reference.match?_eq_some_iff_first.mp hm
    have hspells : Spells found.name ('$' :: token) rest :=
      Reference.spells_of_lengthAt? (by rw [hlength, hlen])
    have hfirst : Part.IsFirst ⟨found.name, found.value, '$' :: token, front⟩ table rest :=
      ⟨hspells, earlier, later, htable, hearlier⟩
    exact ⟨[], _, .part (quiet_nil table _) hfirst hsplit⟩

end ConfigTree
