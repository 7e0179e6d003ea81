import ConfigTree.Proofs.Reference.Scan
import ConfigTree.Proofs.Tree.FlatName
import Mathlib.Data.List.Infix

/-! # Texts with braced references only

A braced reference carries its own end, so what stands behind it does not matter.  A text in which
every dollar sign starts a braced reference to a name of the table is therefore cut in the same way
wherever it stands (`Braced.scanFrom_append`).  All that is asked of the names is that they hold no
braces themselves.
-/
namespace ConfigTree

/-- Every dollar sign of the text starts a braced reference to one of the names. -/
def BracedIn (names : List String) (text : List Char) : Prop :=
  ∀ after, '$' :: after <:+ text → ∃ name ∈ names, ('{' :: name.toList ++ ['}']) <+: after

instance (names : List String) (text : List Char) : Decidable (BracedIn names text) :=
  decidable_of_iff
    (∀ rest ∈ text.tails, rest.head? = some '$' →
      ∃ name ∈ names, ('{' :: name.toList ++ ['}']) <+: rest.tail) <| by
    constructor
    · intro h after hsuffix
      exact h ('$' :: after) ((List.mem_tails _ _).mpr hsuffix) rfl
    · intro h rest hrest hdollar
      obtain ⟨after, rfl⟩ := List.head?_eq_some_iff.mp hdollar
      exact h after ((List.mem_tails _ _).mp hrest)

/-- In every leaf, each dollar sign starts a braced reference to a leaf that has a name, as all
leaves but one at the root have. -/
def Tree.Braced (tree : Tree) : Prop :=
  ∀ leaf ∈ tree.leaves, BracedIn (tree.names.filter (· ≠ "")) leaf.2.toList

instance (tree : Tree) : Decidable tree.Braced :=
  inferInstanceAs (Decidable (∀ leaf ∈ tree.leaves, _))

/-- A text with braced references to names only, read from left to right. -/
inductive Braced (names : List String) : List Char → Prop where
  | nil : Braced names []
  | plain {c : Char} {rest : List Char} : c ≠ '$' → Braced names rest → Braced names (c :: rest)
  | reference {name : String} {rest : List Char} : name ∈ names → name ≠ "" →
      Braced names rest → Braced names ('$' :: '{' :: (name.toList ++ '}' :: rest))

theorem Braced.of_bracedIn {names : List String} {text : List Char}
    (h : BracedIn (names.filter (· ≠ "")) text) : Braced names text := by
  -- By induction on the length, as a reference takes more than one character off the text.
  induction hn : text.length using Nat.strongRecOn generalizing text with
  | ind n ih =>
    subst hn
    have hrest : ∀ rest, rest <:+ text → BracedIn (names.filter (· ≠ "")) rest :=
      fun rest hsuffix after hafter => h after (hafter.trans hsuffix)
    cases text with
    | nil => exact .nil
    | cons c rest =>
      by_cases hc : c = '$'
      · subst hc
        obtain ⟨name, hname, ⟨tail, rfl⟩⟩ := h rest (List.suffix_refl _)
        obtain ⟨hname, hne⟩ : name ∈ names ∧ name ≠ "" := by simpa using hname
        have heq : '$' :: ('{' :: name.toList ++ ['}'] ++ tail) =
            '$' :: '{' :: (name.toList ++ '}' :: tail) := by simp
        have htail : tail <:+ '$' :: ('{' :: name.toList ++ ['}'] ++ tail) :=
          (List.suffix_append _ tail).trans (List.suffix_cons _ _)
        have hshort : tail.length < ('$' :: ('{' :: name.toList ++ ['}'] ++ tail)).length := by
          simp
          omega
        have hbraced := Braced.reference hname hne (ih _ hshort (hrest tail htail) rfl)
        rwa [← heq] at hbraced
      · have hshort : rest.length < rest.length + 1 := Nat.lt_succ_self _
        exact .plain hc (ih _ hshort (hrest rest (List.suffix_cons _ _)) rfl)

theorem Braced.append {names : List String} {text other : List Char} (h : Braced names text)
    (ho : Braced names other) : Braced names (text ++ other) := by
  induction h with
  | nil => exact ho
  | plain hc _ ih => exact .plain hc ih
  | @reference name rest hname hne _ ih =>
    simpa using Braced.reference hname hne ih

/-- The name holds no braces. -/
def BraceFree (name : String) : Prop := '{' ∉ name.toList ∧ '}' ∉ name.toList

/-- Where one braced name stands, no other one does. -/
theorem braced_prefix_iff {name other : String} (hname : BraceFree name) (hother : BraceFree other)
    (rest : List Char) :
    ('{' :: other.toList ++ ['}']) <+: '{' :: (name.toList ++ '}' :: rest) ↔ other = name := by
  constructor
  · rintro ⟨tail, ht⟩
    have hcut : other.toList ++ '}' :: tail = name.toList ++ '}' :: rest := by
      simpa using ht
    exact String.toList_inj.mp
      (eq_of_append_stop hother.2 hname.2 (Or.inr rfl) (Or.inr rfl) hcut)
  · rintro rfl
    exact ⟨rest, by simp⟩

/-- A bare name does not start with a brace. -/
theorem BraceFree.not_prefix_brace {name : String} (h : BraceFree name) (hne : name ≠ "")
    (rest : List Char) : ¬ name.toList <+: '{' :: rest := by
  rintro ⟨tail, ht⟩
  cases hl : name.toList with
  | nil => exact hne (String.toList_eq_nil_iff.mp hl)
  | cons c cs =>
    rw [hl] at ht
    have hc : c = '{' := (List.cons.inj ht).1
    refine h.1 ?_
    rw [hl, hc]
    exact List.mem_cons_self ..

namespace Reference

/-- At a braced name only that name fits. -/
theorem lengthAt?_braced {name other : String} (hname : BraceFree name) (hother : BraceFree other)
    (hne : name ≠ "") (rest : List Char) :
    lengthAt? other.toList ('{' :: (name.toList ++ '}' :: rest)) =
      if other = name then some (name.toList.length + 2) else none := by
  unfold lengthAt?
  by_cases hempty : other = ""
  · subst hempty
    rw [if_neg (Ne.symm hne)]
    rfl
  · have hnonempty : ¬ other.toList.isEmpty = true := by
      simpa using hempty
    rw [if_neg hnonempty]
    simp only [List.isPrefixOf_iff_prefix, braced_prefix_iff hname hother, Bool.and_eq_true]
    by_cases heq : other = name
    · rw [if_pos heq, if_pos heq, heq]
    · have hbare := hother.not_prefix_brace hempty (name.toList ++ '}' :: rest)
      rw [if_neg heq, if_neg heq, if_neg fun h => hbare h.1]

/-- At a braced name the table finds that name. -/
theorem match?_braced {table : Table} (hkeys : ∀ key ∈ Entries.keys table, BraceFree key)
    {name : String} (hname : name ∈ Entries.keys table) (hne : name ≠ "") :
    ∃ value, ∀ rest, match? table ('{' :: (name.toList ++ '}' :: rest)) =
      some ⟨name, value, name.toList.length + 2⟩ := by
  have hfree := hkeys name hname
  induction table with
  | nil => cases hname
  | cons leaf table ih =>
    obtain ⟨key, value⟩ := leaf
    have hkey : BraceFree key := hkeys key (List.mem_cons_self ..)
    by_cases heq : key = name
    · refine ⟨value, fun rest => ?_⟩
      rw [match?, lengthAt?_braced hfree hkey hne, if_pos heq, heq]
    · have hlater : name ∈ Entries.keys table :=
        (List.mem_cons.mp hname).resolve_left (Ne.symm heq)
      obtain ⟨found, hfound⟩ := ih (fun k hk => hkeys k (List.mem_cons_of_mem _ hk)) hlater
      refine ⟨found, fun rest => ?_⟩
      rw [match?, lengthAt?_braced hfree hkey hne, if_neg heq]
      exact hfound rest

end Reference

/-! ### Rewriting braced texts -/

variable {table : Table} (hkeys : ∀ key ∈ Entries.keys table, BraceFree key)
include hkeys

/-- A braced reference is one piece. -/
theorem scanFrom_braced {name : String} (hname : name ∈ Entries.keys table) (hne : name ≠ "") :
    ∃ value, (name, value) ∈ table ∧
      ∀ rest, scanFrom table 0 ('$' :: '{' :: (name.toList ++ '}' :: rest)) =
        .reference ⟨name, value, name.toList.length + 2⟩ :: scanFrom table 0 rest := by
  obtain ⟨value, hmatch⟩ := Reference.match?_braced hkeys hname hne
  refine ⟨value, (Reference.match?_spec (hmatch [])).1, fun rest => scanned_iff.mp ?_⟩
  have hstep : Scanned table ('$' :: ('{' :: (name.toList ++ ['}']) ++ rest))
      (.reference ⟨name, value, name.toList.length + 2⟩ :: scanFrom table 0 rest) :=
    .reference (by simpa using hmatch rest) (by simp) (scanned table rest)
  simpa using hstep

theorem namesIn_braced {name : String} (hname : name ∈ Entries.keys table) (hne : name ≠ "")
    (rest : List Char) :
    namesIn table ('$' :: '{' :: (name.toList ++ '}' :: rest)) = name :: namesIn table rest := by
  obtain ⟨value, _, hcut⟩ := scanFrom_braced hkeys hname hne
  rw [namesIn, hcut]
  rfl

/-- **A braced text is cut alike wherever it stands.** -/
theorem Braced.scanFrom_append {text : List Char} (h : Braced (Entries.keys table) text)
    (other : List Char) :
    scanFrom table 0 (text ++ other) = scanFrom table 0 text ++ scanFrom table 0 other := by
  induction h with
  | nil => rfl
  | plain hc _ ih =>
    rw [List.cons_append, scanFrom_plain table hc, scanFrom_plain table hc, ih, List.cons_append]
  | @reference name rest hname hne _ ih =>
    obtain ⟨value, _, hcut⟩ := scanFrom_braced hkeys hname hne
    have hassoc : '$' :: '{' :: (name.toList ++ '}' :: rest) ++ other =
        '$' :: '{' :: (name.toList ++ '}' :: (rest ++ other)) := by simp
    rw [hassoc, hcut, hcut, ih, List.cons_append]

/-- Braced texts stay braced when they are rewritten with braced texts. -/
theorem Braced.rewritten {text : List Char} (h : Braced (Entries.keys table) text)
    (hvalues : ∀ leaf ∈ table, Braced (Entries.keys table) leaf.2.toList) :
    Braced (Entries.keys table) (rewritten table text) := by
  induction h with
  | nil => exact .nil
  | plain hc _ ih =>
    rw [rewritten_plain table hc]
    exact .plain hc ih
  | reference hname hne _ ih =>
    obtain ⟨value, hmem, hcut⟩ := scanFrom_braced hkeys hname hne
    rw [ConfigTree.rewritten, hcut, List.flatMap_cons]
    exact (hvalues _ hmem).append ih

end ConfigTree
