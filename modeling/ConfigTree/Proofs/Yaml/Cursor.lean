import ConfigTree.Yaml.Cursor

/-! # Moving over a text

Where a cursor stands after some characters: `Cursor.advance_append`.  Lines and characters are
counted; the column is that behind the last line end (`columnAfter`).
-/
namespace ConfigTree.Yaml

/-- The column behind some characters that begin at a column. -/
def columnAfter (column : Nat) : List Char → Nat
  | [] => column
  | c :: rest => columnAfter (if isBreak c then 0 else column + 1) rest

/-- Would these characters, at the start of a line, be taken for a document mark? -/
def startsMark (cs : List Char) : Bool :=
  (['-', '-', '-'].isPrefixOf cs || ['.', '.', '.'].isPrefixOf cs) && startsGap (cs.drop 3)

theorem columnAfter_append (column : Nat) (a b : List Char) :
    columnAfter column (a ++ b) = columnAfter (columnAfter column a) b := by
  induction a generalizing column with
  | nil => rfl
  | cons c rest ih =>
    simp only [List.cons_append, columnAfter]
    exact ih _

theorem columnAfter_of_no_break {cs : List Char} (h : ∀ c ∈ cs, isBreak c = false)
    (column : Nat) : columnAfter column cs = column + cs.length := by
  induction cs generalizing column with
  | nil => rfl
  | cons c rest ih =>
    have hc : isBreak c = false := h c (by simp)
    have hrest : ∀ d ∈ rest, isBreak d = false := fun d hd => h d (by simp [hd])
    simp only [columnAfter, hc, List.length_cons]
    have := ih hrest (column + 1)
    simp only [Bool.false_eq_true, if_false]
    omega

theorem isBreak_of_mem_spaces {n : Nat} : ∀ c ∈ List.replicate n ' ', isBreak c = false := by
  intro c hc
  rw [List.eq_of_mem_replicate hc]
  decide

@[simp] theorem columnAfter_spaces (column n : Nat) :
    columnAfter column (List.replicate n ' ') = column + n := by
  rw [columnAfter_of_no_break isBreak_of_mem_spaces, List.length_replicate]

/-- Behind characters that do not end with a line end the column is not 0. -/
theorem columnAfter_eq_zero_iff {cs : List Char} (hne : cs ≠ []) (column : Nat) :
    columnAfter column cs = 0 ↔ cs.getLast?.any isBreak = true := by
  induction cs generalizing column with
  | nil => exact absurd rfl hne
  | cons c rest ih =>
    cases rest with
    | nil => cases h : isBreak c <;> simp [columnAfter, h]
    | cons d more =>
      rw [columnAfter, ih (by simp), List.getLast?_cons_cons]

namespace Cursor

theorem advance_advance (m n : Nat) (c : Cursor) : advance n (advance m c) = advance (m + n) c := by
  induction m generalizing c with
  | zero => rw [advance, Nat.zero_add]
  | succ m ih => rw [Nat.succ_add, advance, advance, ih]

theorem next_break {c : Char} (h : isBreak c = true) (rest : List Char) (line column index : Nat) :
    next ⟨c :: rest, line, column, index⟩ = ⟨rest, line + 1, 0, index + 1⟩ := by
  simp [next, h]

theorem next_of_no_break {c : Char} (h : isBreak c = false) (rest : List Char)
    (line column index : Nat) :
    next ⟨c :: rest, line, column, index⟩ = ⟨rest, line, column + 1, index + 1⟩ := by
  simp [next, h]

/-- **Where a cursor stands after some characters.** -/
theorem advance_append (cs rest : List Char) (line column index : Nat) :
    advance cs.length ⟨cs ++ rest, line, column, index⟩ =
      ⟨rest, line + cs.countP isBreak, columnAfter column cs, index + cs.length⟩ := by
  induction cs generalizing line column index with
  | nil => rfl
  | cons c more ih =>
    rw [List.length_cons, advance, List.cons_append]
    cases h : isBreak c with
    | true =>
      rw [next_break h, ih, columnAfter, List.countP_cons_of_pos h]
      simp only [h, if_true, Cursor.mk.injEq, true_and]
      omega
    | false =>
      rw [next_of_no_break h, ih, columnAfter, List.countP_cons_of_neg (by simp [h])]
      simp only [h, Cursor.mk.injEq, true_and, Bool.false_eq_true, if_false]
      omega

theorem advance_of_no_break {cs : List Char} (h : ∀ c ∈ cs, isBreak c = false) (rest : List Char)
    (line column index : Nat) :
    advance cs.length ⟨cs ++ rest, line, column, index⟩ =
      ⟨rest, line, column + cs.length, index + cs.length⟩ := by
  have hcount : cs.countP isBreak = 0 := by
    rw [List.countP_eq_zero]
    intro c hc
    simp [h c hc]
  rw [advance_append, hcount, columnAfter_of_no_break h, Nat.add_zero]

theorem rest_advance_append {c : Cursor} {cs rest : List Char} (h : c.rest = cs ++ rest) :
    (advance cs.length c).rest = rest := by
  obtain ⟨_, line, column, index⟩ := c
  subst h
  rw [advance_append]

theorem atDocumentMark_of_column {c : Cursor} (h : c.column ≠ 0) : c.atDocumentMark = false := by
  simp [atDocumentMark, atMark, h]

theorem atDocumentMark_eq {c : Cursor} (h : c.column = 0) :
    c.atDocumentMark = startsMark c.rest := by
  simp only [atDocumentMark, atMark, h, startsMark]
  cases ['-', '-', '-'].isPrefixOf c.rest <;> simp

end Cursor

end ConfigTree.Yaml
