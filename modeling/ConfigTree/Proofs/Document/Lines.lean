import ConfigTree.Proofs.Document.Layout

/-! # The lines of a document

A document is written line by line, and what its reader gets is the text of all lines.  That text is
a layout of the tree: `shows`.  A comment is no part of it, as long as it stays on its line
(`OneLine`): it stands in front of a node, on a line of its own (`Lead`), or behind a leaf
(`Trail`).
-/
namespace ConfigTree

namespace Tree

open Yaml

/-- Every comment is written with characters that may stand in a document, none of which ends a
line. -/
structure OneLine (comments : Table) : Prop where
  allowed : ∀ {name line}, commentAt comments name = some line →
    ∀ c ∈ line.toList, isAllowed c = true
  noBreak : ∀ {name line}, commentAt comments name = some line →
    ∀ c ∈ line.toList, isBreak c = false

theorem oneLine_nil : OneLine [] where
  allowed h := nomatch h
  noBreak h := nomatch h

/-! ### Lines as characters -/

/-- A line as the reader sees it. -/
def lineChars (line : String) : List Char := line.toList.map normalizeBreak

/-- Some lines as the reader sees them, all of them from a column on. -/
def newLines (column : Nat) (lines : List String) : List Char :=
  lines.flatMap fun line => '\n' :: (List.replicate column ' ' ++ lineChars line)

@[simp] theorem lineChars_append (a b : String) :
    lineChars (a ++ b) = lineChars a ++ lineChars b := by
  simp [lineChars]

theorem lineChars_of_no_break {line : String} (h : ∀ c ∈ line.toList, isBreak c = false) :
    lineChars line = line.toList := map_normalizeBreak h

theorem lineChars_scalarLine (text : String) : lineChars (scalarLine text) = scalarChars text := rfl

@[simp] theorem newLines_nil (column : Nat) : newLines column [] = [] := rfl

theorem newLines_cons (column : Nat) (line : String) (lines : List String) :
    newLines column (line :: lines) =
      '\n' :: (List.replicate column ' ' ++ (lineChars line ++ newLines column lines)) := by
  simp [newLines]

@[simp] theorem newLines_append (column : Nat) (a b : List String) :
    newLines column (a ++ b) = newLines column a ++ newLines column b := by
  simp [newLines]

/-- Moving lines to the right moves the column at which they begin. -/
theorem newLines_indented (column : Nat) (lines : List String) :
    newLines column (lines.map indented) = newLines (column + 2) lines := by
  have hindent : lineChars "  " = [' ', ' '] := by decide
  induction lines with
  | nil => rfl
  | cons line rest ih =>
    rw [List.map_cons, newLines_cons, newLines_cons, ih, indented, lineChars_append, hindent,
      ← List.replicate_append_replicate]
    simp

/-- A dash takes the place of the first two columns. -/
theorem newLines_dashed {column : Nat} {lines : List String} {text : List Char}
    (h : newLines (column + 2) lines = '\n' :: (List.replicate (column + 2) ' ' ++ text)) :
    newLines column (dashed lines) =
      '\n' :: (List.replicate column ' ' ++ '-' :: ' ' :: text) := by
  have hdash : lineChars "- " = ['-', ' '] := by decide
  cases lines with
  | nil => cases h
  | cons line rest =>
    rw [newLines_cons] at h
    have htext : lineChars line ++ newLines (column + 2) rest = text :=
      List.append_cancel_left (List.cons.inj h).2
    rw [dashed, newLines_cons, newLines_indented, lineChars_append, hdash, ← htext]
    simp

/-! ### Comments -/

/-- What stands in front of a node on a new line: nothing, or a comment on a line of its own. -/
inductive Lead (column : Nat) : List Char → Prop where
  | none : Lead column []
  | comment {text : List Char} : (∀ c ∈ text, isBreak c = false) →
    Lead column ('#' :: (text ++ '\n' :: List.replicate column ' '))

/-- What stands behind a node on its last line: nothing or a comment. -/
inductive Trail : List Char → Prop where
  | none : Trail []
  | comment {text : List Char} : (∀ c ∈ text, isBreak c = false) →
    Trail (' ' :: ' ' :: '#' :: text)

theorem Lead.between {column : Nat} {lead : List Char} (h : Lead column lead) : Between lead := by
  cases h with
  | none => exact .nil
  | comment htext => exact .comment htext (.spaces column)

theorem Lead.column {column : Nat} {lead : List Char} (h : Lead column lead) :
    columnAfter column lead = column := by
  cases h with
  | none => rfl
  | @comment text _ =>
    rw [← List.cons_append, columnAfter_append, columnAfter, if_pos (by decide),
      columnAfter_spaces, Nat.zero_add]

/-- Between two lines of a document there is a line end. -/
theorem Trail.lineGap {column : Nat} {trail lead : List Char} (htrail : Trail trail)
    (hlead : Lead column lead) :
    LineGap (trail ++ '\n' :: (List.replicate column ' ' ++ lead)) column := by
  have hnext : Between (List.replicate column ' ' ++ lead) :=
    (Between.spaces column).append hlead.between
  refine ⟨?_, ?_, by simp [isBreak], fun start => ?_⟩
  · cases htrail with
    | none => exact .line hnext
    | comment htext => exact .space (.space (.comment htext hnext))
  · cases htrail <;> rfl
  · rw [columnAfter_append, columnAfter, if_pos (by decide), columnAfter_append,
      columnAfter_spaces, Nat.zero_add, hlead.column]

theorem Trail.end_lineGap {trail : List Char} (h : Trail trail) : LineGap (trail ++ ['\n']) 0 :=
  have hgap : LineGap (trail ++ '\n' :: (List.replicate 0 ' ' ++ [])) 0 := h.lineGap .none
  hgap

variable {comments : Table}

theorem trail_withComment (hclean : OneLine comments) (name : String) (line : String) :
    ∃ trail, lineChars (withComment line (commentAt comments name)) = lineChars line ++ trail ∧
      Trail trail := by
  have hsign : lineChars "  # " = [' ', ' ', '#', ' '] := by decide
  cases hcomment : commentAt comments name with
  | none => exact ⟨[], (List.append_nil _).symm, .none⟩
  | some text =>
    have hbreak := hclean.noBreak hcomment
    refine ⟨' ' :: ' ' :: '#' :: (' ' :: text.toList), ?_, .comment ?_⟩
    · rw [withComment, lineChars_append, lineChars_append, hsign, lineChars_of_no_break hbreak]
      simp
    · exact List.forall_mem_cons.mpr ⟨by decide, hbreak⟩

/-- A comment above some lines stands in front of them. -/
theorem lead_commentLine (hclean : OneLine comments) (name : String) {column : Nat}
    {lines : List String} {text : List Char}
    (h : newLines column lines = '\n' :: (List.replicate column ' ' ++ text)) :
    ∃ lead, newLines column (commentLine (commentAt comments name) ++ lines) =
      '\n' :: (List.replicate column ' ' ++ (lead ++ text)) ∧ Lead column lead := by
  have hsign : lineChars "# " = ['#', ' '] := by decide
  cases hcomment : commentAt comments name with
  | none => exact ⟨[], h, .none⟩
  | some line =>
    have hbreak := hclean.noBreak hcomment
    refine ⟨'#' :: (' ' :: line.toList ++ '\n' :: List.replicate column ' '), ?_, .comment ?_⟩
    · rw [commentLine, List.singleton_append, newLines_cons, h, lineChars_append, hsign,
        lineChars_of_no_break hbreak]
      simp
    · exact List.forall_mem_cons.mpr ⟨by decide, hbreak⟩

/-! ### Lines that show a tree -/

/-- The lines, from a column on, consist of a text with the property and of comments. -/
def Shows (column : Nat) (lines : List String) (P : List Char → Prop) : Prop :=
  ∃ lead text trail, newLines column lines =
      '\n' :: (List.replicate column ' ' ++ (lead ++ (text ++ trail))) ∧
    Lead column lead ∧ P text ∧ Trail trail

/-- The lines of an item with its dash. -/
def linesOfItem (comments : Table) (child : String) (item : Tree) : List String :=
  match item.inline? with
  | some text => [withComment ("- " ++ text) (commentAt comments child)]
  | none => commentLine (commentAt comments child) ++ dashed (bodyLines comments child item)

/-- The lines of an entry with its key. -/
def linesOfEntry (comments : Table) (child key : String) (value : Tree) : List String :=
  match value.inline? with
  | some text => [withComment (scalarLine key ++ ": " ++ text) (commentAt comments child)]
  | none => commentLine (commentAt comments child) ++
      (scalarLine key ++ ":") :: (bodyLines comments child value).map indented

theorem itemLines_cons (name : String) (index : Nat) (item : Tree) (rest : List Tree) :
    itemLines comments name index (item :: rest) =
      linesOfItem comments (childName name (Text.showNat index)) item ++
        itemLines comments name (index + 1) rest := rfl

theorem entryLines_cons (name key : String) (value : Tree) (rest : List (String × Tree)) :
    entryLines comments name ((key, value) :: rest) =
      linesOfEntry comments (childName name key) key value ++ entryLines comments name rest :=
  rfl

/-- Some lines after others show a text after another. -/
theorem Shows.append {column : Nat} {lines more : List String} {P Q R : List Char → Prop}
    (hlines : Shows column lines P) (hmore : Shows column more Q)
    (h : ∀ {text gap rest}, P text → LineGap gap column → Q rest → R (text ++ (gap ++ rest))) :
    Shows column (lines ++ more) R := by
  obtain ⟨lead, text, trail, hlines, hlead, htext, htrail⟩ := hlines
  obtain ⟨lead', text', trail', hmore, hlead', htext', htrail'⟩ := hmore
  refine ⟨lead, text ++ (trail ++ '\n' :: (List.replicate column ' ' ++ lead') ++ text'), trail',
    ?_, hlead, h htext (htrail.lineGap hlead') htext', htrail'⟩
  rw [newLines_append, hlines, hmore]
  simp

theorem Shows.mono {column : Nat} {lines : List String} {P Q : List Char → Prop}
    (h : Shows column lines P) (hPQ : ∀ {text}, P text → Q text) : Shows column lines Q := by
  obtain ⟨lead, text, trail, hlines, hlead, htext, htrail⟩ := h
  exact ⟨lead, text, trail, hlines, hlead, hPQ htext, htrail⟩

/-- A tree on one line is laid out as it is written. -/
theorem layout_inline {tree : Tree} {line : String} (h : tree.inline? = some line)
    (column : Nat) : Layout column tree (lineChars line) := by
  match tree, h with
  | .scalar text, h =>
    obtain rfl : scalarLine text = line := Option.some.inj h
    exact .scalar
  | .sequence [], h =>
    obtain rfl : "[]" = line := Option.some.inj h
    exact .emptySequence
  | .mapping [], h =>
    obtain rfl : "\x7b\x7d" = line := Option.some.inj h
    exact .emptyMapping

/-- The lines of a collection show it. -/
def ShowsBody (comments : Table) (tree : Tree) : Prop :=
  tree.inline? = none → ∀ name column,
    Shows column (bodyLines comments name tree) (Layout column tree)

theorem item_shows (hclean : OneLine comments) {item : Tree} (hitem : ShowsBody comments item)
    (child : String) (column : Nat) :
    Shows column (linesOfItem comments child item) fun text =>
      ∃ inner gap body, text = '-' :: (gap ++ body) ∧ DashGap column inner gap ∧
        Layout inner item body := by
  unfold linesOfItem
  cases hinline : item.inline? with
  | some line =>
    have hdash : lineChars "- " = ['-', ' '] := by decide
    obtain ⟨trail, hline, htrail⟩ := trail_withComment hclean child ("- " ++ line)
    refine ⟨[], '-' :: ([' '] ++ lineChars line), trail, ?_, .none,
      ⟨column + 2, [' '], _, rfl, ⟨.spaces 1, rfl, rfl, by omega⟩, layout_inline hinline _⟩, htrail⟩
    rw [newLines_cons, hline, lineChars_append, hdash]
    simp
  | none =>
    obtain ⟨lead, text, trail, hlines, hlead, hlayout, htrail⟩ := hitem hinline child (column + 2)
    -- The comment of an item stands above its dash, one inside the item behind the dash.
    obtain ⟨above, habove, hlead'⟩ := lead_commentLine hclean child (newLines_dashed hlines)
    refine ⟨above, '-' :: (' ' :: lead ++ text), trail, ?_, hlead', ⟨column + 2, ' ' :: lead, text,
      rfl, ⟨.space hlead.between, rfl, hlead.column, by omega⟩, hlayout⟩, htrail⟩
    rw [habove]
    simp

theorem entry_shows (hclean : OneLine comments) {value : Tree} (hvalue : ShowsBody comments value)
    (child key : String) (column : Nat) :
    Shows column (linesOfEntry comments child key value) fun text =>
      ∃ inner gap body, text = scalarChars key ++ ':' :: (gap ++ body) ∧
        ColonGap column inner value gap ∧ Layout inner value body := by
  unfold linesOfEntry
  cases hinline : value.inline? with
  | some line =>
    have hcolon : lineChars ": " = [':', ' '] := by decide
    obtain ⟨trail, hline, htrail⟩ :=
      trail_withComment hclean child (scalarLine key ++ ": " ++ line)
    refine ⟨[], scalarChars key ++ ':' :: ([' '] ++ lineChars line), trail, ?_, .none,
      ⟨column + 1, [' '], _, rfl, ⟨by omega, .inr ⟨rfl, ?_⟩⟩, layout_inline hinline _⟩, htrail⟩
    · rw [newLines_cons, hline, lineChars_append, lineChars_append, hcolon, lineChars_scalarLine]
      simp
    · rw [hinline]
      rfl
  | none =>
    have hcolon : lineChars ":" = [':'] := by decide
    obtain ⟨lead, text, trail, hlines, hlead, hlayout, htrail⟩ := hvalue hinline child (column + 2)
    have hbody : newLines column
        ((scalarLine key ++ ":") :: (bodyLines comments child value).map indented) =
        '\n' :: (List.replicate column ' ' ++ (scalarChars key ++ ':' ::
          ('\n' :: (List.replicate (column + 2) ' ' ++ lead) ++ (text ++ trail)))) := by
      rw [newLines_cons, newLines_indented, hlines, lineChars_append, hcolon, lineChars_scalarLine]
      simp
    obtain ⟨above, habove, hlead'⟩ := lead_commentLine hclean child hbody
    refine ⟨above, scalarChars key ++ ':' :: (('\n' :: (List.replicate (column + 2) ' ' ++ lead)) ++
      text), trail, ?_, hlead', ⟨column + 2, _, text, rfl,
      ⟨by omega, .inl (Trail.none.lineGap hlead)⟩, hlayout⟩, htrail⟩
    rw [habove]
    simp

theorem shows_items_cons (hclean : OneLine comments) {item : Tree} {rest : List Tree}
    (hitem : ShowsBody comments item)
    (hrest : rest ≠ [] → ∀ name index column,
      Shows column (itemLines comments name index rest) (ItemsLayout column rest))
    (name : String) (index column : Nat) :
    Shows column (itemLines comments name index (item :: rest))
      (ItemsLayout column (item :: rest)) := by
  have hfirst := item_shows hclean hitem (childName name (Text.showNat index)) column
  rw [itemLines_cons]
  cases rest with
  | nil =>
    rw [itemLines, List.append_nil]
    refine hfirst.mono ?_
    rintro _ ⟨inner, gap, body, rfl, hgap, hbody⟩
    exact .last hgap hbody
  | cons next more =>
    refine hfirst.append (hrest (List.cons_ne_nil _ _) name (index + 1) column) ?_
    rintro _ between rest ⟨inner, gap, body, rfl, hgap, hbody⟩ hbetween hmore
    exact .more hgap hbody hbetween hmore

theorem shows_entries_cons (hclean : OneLine comments) {key : String} {value : Tree}
    {rest : List (String × Tree)} (hvalue : ShowsBody comments value)
    (hrest : rest ≠ [] → ∀ name column,
      Shows column (entryLines comments name rest) (EntriesLayout column rest))
    (name : String) (column : Nat) :
    Shows column (entryLines comments name ((key, value) :: rest))
      (EntriesLayout column ((key, value) :: rest)) := by
  have hfirst := entry_shows hclean hvalue (childName name key) key column
  rw [entryLines_cons]
  cases rest with
  | nil =>
    rw [entryLines, List.append_nil]
    refine hfirst.mono ?_
    rintro _ ⟨inner, gap, body, rfl, hgap, hbody⟩
    exact .last hgap hbody
  | cons next more =>
    refine hfirst.append (hrest (List.cons_ne_nil _ _) name column) ?_
    rintro _ between rest ⟨inner, gap, body, rfl, hgap, hbody⟩ hbetween hmore
    exact .more hgap hbody hbetween hmore

mutual
/-- **The lines of a collection show it**, whatever comments they have. -/
theorem shows (hclean : OneLine comments) : (tree : Tree) → ShowsBody comments tree
  | .scalar _ => fun h => nomatch h
  | .sequence items => fun h name column =>
    (shows_items hclean items (by rintro rfl; cases h) name 0 column).mono .sequence
  | .mapping entries => fun h name column =>
    (shows_entries hclean entries (by rintro rfl; cases h) name column).mono .mapping

theorem shows_items (hclean : OneLine comments) : (items : List Tree) → items ≠ [] →
    ∀ name index column, Shows column (itemLines comments name index items)
      (ItemsLayout column items)
  | [] => fun h => absurd rfl h
  | item :: rest => fun _ => shows_items_cons hclean (shows hclean item) (shows_items hclean rest)

theorem shows_entries (hclean : OneLine comments) : (entries : List (String × Tree)) →
    entries ≠ [] → ∀ name column, Shows column (entryLines comments name entries)
      (EntriesLayout column entries)
  | [] => fun h => absurd rfl h
  | (_, value) :: rest => fun _ =>
    shows_entries_cons hclean (shows hclean value) (shows_entries hclean rest)
end

/-- The lines of a document show its tree. -/
theorem shows_document (hclean : OneLine comments) (tree : Tree) :
    Shows 0 (documentLines comments tree) (Layout 0 tree) := by
  unfold documentLines
  cases hinline : tree.inline? with
  | none => exact shows hclean tree hinline "" 0
  | some line =>
    refine ⟨[], lineChars line, [], ?_, .none, layout_inline hinline 0, .none⟩
    simp [newLines]

/-- The text of some lines begins as if a line end stood in front of it. -/
theorem newLines_unlines {lines : List String} (hne : lines ≠ []) :
    '\n' :: lineChars ("\n".intercalate lines ++ "\n") = newLines 0 lines ++ ['\n'] := by
  have hfeed : lineChars "\n" = ['\n'] := by decide
  -- The line end behind the last line is the same on both sides.
  rw [lineChars_append, hfeed, ← List.cons_append]
  congr 1
  induction lines with
  | nil => exact absurd rfl hne
  | cons line rest ih =>
    rw [newLines_cons]
    cases rest with
    | nil => simp
    | cons next more =>
      rw [← ih (List.cons_ne_nil _ _), String.intercalate_cons_cons, lineChars_append,
        lineChars_append, hfeed]
      simp

end Tree

end ConfigTree
