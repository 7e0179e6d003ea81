import ConfigTree.Text.Basic

/-! # What the lines of a text are

`Lined` takes a text apart into its lines without reading it from left to right: a line holds no
line feed, and behind each line but the last one stands its end.  The lines that are read are these
(`lined_lines`), so none of them has a line feed, and they are blank exactly if the text is
(`isBlank_lines_iff`).
-/
namespace ConfigTree.Text

/-- The text consists of the lines and their ends. -/
inductive Lined : List Char → List (List Char) → Prop where
  | nil : Lined [] []
  | last {line : List Char} : line ≠ [] → '\n' ∉ line → Lined line [line]
  | more {line stop rest : List Char} {lines : List (List Char)} : '\n' ∉ line →
      (stop = ['\n'] ∨ stop = ['\r', '\n']) → Lined rest lines →
      Lined (line ++ (stop ++ rest)) (line :: lines)

/-- A line feed ends the line, and takes a carriage return in front of it away. -/
theorem linesFrom_feed (acc rest : List Char) : ∃ line stop,
    (stop = ['\n'] ∨ stop = ['\r', '\n']) ∧ acc.reverse ++ '\n' :: rest = line ++ (stop ++ rest) ∧
      (∀ c ∈ line, c ∈ acc) ∧ linesFrom acc ('\n' :: rest) = line :: linesFrom [] rest := by
  by_cases hreturn : ∃ before, acc = '\r' :: before
  · obtain ⟨before, rfl⟩ := hreturn
    exact ⟨before.reverse, ['\r', '\n'], .inr rfl, by simp,
      fun c hc => List.mem_cons_of_mem _ (List.mem_reverse.mp hc), rfl⟩
  · refine ⟨acc.reverse, ['\n'], .inl rfl, rfl, fun c hc => List.mem_reverse.mp hc, ?_⟩
    rw [linesFrom]
    exact fun before hacc => hreturn ⟨before, hacc⟩

theorem lined_linesFrom {acc rest : List Char} (hacc : '\n' ∉ acc) :
    Lined (acc.reverse ++ rest) (linesFrom acc rest) := by
  induction rest generalizing acc with
  | nil =>
    rw [List.append_nil]
    by_cases hempty : acc = []
    · rw [hempty]
      exact .nil
    · rw [linesFrom, if_neg (by simpa using hempty)]
      exact .last (by simpa using hempty) (by simpa using hacc)
  | cons c rest ih =>
    by_cases hc : c = '\n'
    · subst hc
      obtain ⟨line, stop, hstop, htext, hline, hlines⟩ := linesFrom_feed acc rest
      rw [htext, hlines]
      exact .more (fun hmem => hacc (hline _ hmem)) hstop (ih List.not_mem_nil)
    · have hrest : Lined ((c :: acc).reverse ++ rest) (linesFrom (c :: acc) rest) :=
        ih (by simpa [Ne.symm hc] using hacc)
      have hstep : linesFrom acc (c :: rest) = linesFrom (c :: acc) rest := by
        rw [linesFrom]
        exact hc
      rw [hstep]
      simpa using hrest

/-- **The lines that are read are those of the text.** -/
theorem lined_lines (text : String) : Lined text.toList ((lines text).map String.toList) := by
  have hchars : (lines text).map String.toList = linesFrom [] text.toList := by
    simp [lines, Function.comp_def]
  rw [hchars]
  exact lined_linesFrom List.not_mem_nil

theorem Lined.notMem {text : List Char} {lines : List (List Char)} (h : Lined text lines) :
    ∀ line ∈ lines, '\n' ∉ line := by
  induction h with
  | nil => simp
  | last _ hline => simpa using hline
  | more hline _ _ ih => exact List.forall_mem_cons.mpr ⟨hline, ih⟩

theorem Lined.isBlank_iff {text : List Char} {lines : List (List Char)} (h : Lined text lines) :
    (∀ line ∈ lines, ∀ c ∈ line, isBlank c = true) ↔ ∀ c ∈ text, isBlank c = true := by
  have hfeed : isBlank '\n' = true := by decide
  have hreturn : isBlank '\r' = true := by decide
  induction h with
  | nil => simp
  | last => simp
  | more _ hstop _ ih =>
    rw [List.forall_mem_cons, List.forall_mem_append, List.forall_mem_append]
    refine and_congr_right' (ih.trans ?_)
    rcases hstop with rfl | rfl
    · simp [hfeed]
    · simp [hfeed, hreturn]

theorem notMem_lines (text : String) : ∀ line ∈ lines text, '\n' ∉ line.toList :=
  fun _ hline => (lined_lines text).notMem _ (List.mem_map_of_mem hline)

/-- Are all characters of the text blank? -/
def IsBlankText (text : String) : Prop := ∀ c ∈ text.toList, isBlank c = true

instance (text : String) : Decidable (IsBlankText text) :=
  decidable_of_iff (text.toList.all isBlank = true) List.all_eq_true

/-- **The lines of a text are blank exactly if the text is.** -/
theorem isBlank_lines_iff (text : String) :
    (∀ line ∈ lines text, IsBlankText line) ↔ IsBlankText text := by
  rw [IsBlankText, ← (lined_lines text).isBlank_iff, List.forall_mem_map]
  rfl

end ConfigTree.Text
