import ConfigTree.Document.Reading
import ConfigTree.Proofs.Document.Lines

/-! # Comments of a document

The tokens of a document are those of its tree (`tokens_toYamlWith`), unless a key or leaf is
written with a character that no document may have.  Comments have no part in this as long as each
stays on its line, so they never change what a document is read as: `ofYaml_toYamlWith`.

A comment does not always stay on its line.  The lines of its text are joined, but only line feeds
end those; for the reader a carriage return, a next-line character and the line and paragraph
separators end a line as well, and what stands behind them is no comment.
-/
namespace ConfigTree

namespace Tree

open Yaml

/-! ### The characters of a document -/

mutual
/-- The keys and leaves of a tree in the order in which they are written. -/
def texts : Tree → List String
  | .scalar text => [text]
  | .sequence items => itemTexts items
  | .mapping entries => entryTexts entries

/-- The keys and leaves of the items of a sequence. -/
def itemTexts : List Tree → List String
  | [] => []
  | item :: rest => texts item ++ itemTexts rest

/-- The keys and leaves of the entries of a mapping. -/
def entryTexts : List (String × Tree) → List String
  | [] => []
  | (key, value) :: rest => key :: (texts value ++ entryTexts rest)
end

/-- The characters with which some keys and leaves are written. -/
def written (texts : List String) : List Char :=
  texts.flatMap fun text => (scalarLine text).toList

/-- The characters of some lines. -/
def chars (lines : List String) : List Char := lines.flatMap String.toList

theorem chars_cons (line : String) (lines : List String) :
    chars (line :: lines) = line.toList ++ chars lines := List.flatMap_cons

theorem chars_append (a b : List String) : chars (a ++ b) = chars a ++ chars b :=
  List.flatMap_append

theorem chars_singleton (line : String) : chars [line] = line.toList := by simp [chars]

theorem written_cons (text : String) (texts : List String) :
    written (text :: texts) = (scalarLine text).toList ++ written texts := List.flatMap_cons

theorem written_append (a b : List String) : written (a ++ b) = written a ++ written b :=
  List.flatMap_append

/-- The characters of a document that are in no key, leaf or comment. -/
def marks : List Char := "\n -:#[]\x7b\x7d".toList

/-- A property that neither the marks nor the comments of a document have. -/
structure OfTexts (comments : Table) (p : Char → Bool) : Prop where
  mark : marks.any p = false
  comment : ∀ {name line}, commentAt comments name = some line → ∀ c ∈ line.toList, p c = false

section Characters

variable {comments : Table} {p : Char → Bool}

theorem filter_eq_nil {cs : List Char} (h : ∀ c ∈ cs, p c = false) : cs.filter p = [] := by
  rw [List.filter_eq_nil_iff]
  intro c hc
  simp [h c hc]

theorem OfTexts.filter_mark (hp : OfTexts comments p) {mark : String}
    (h : mark.toList.all marks.contains = true) : mark.toList.filter p = [] := by
  refine filter_eq_nil fun c hc => ?_
  have hmem : c ∈ marks := List.contains_iff_mem.mp (List.all_eq_true.mp h c hc)
  simpa using List.any_eq_false.mp hp.mark c hmem

theorem OfTexts.filter_withComment (hp : OfTexts comments p) (line name : String) :
    (withComment line (commentAt comments name)).toList.filter p = line.toList.filter p := by
  cases hcomment : commentAt comments name with
  | none => rfl
  | some comment =>
    have hsign : "  # ".toList.filter p = [] := hp.filter_mark (by decide)
    have htext : comment.toList.filter p = [] := filter_eq_nil (hp.comment hcomment)
    rw [withComment, String.toList_append, String.toList_append, List.filter_append,
      List.filter_append, hsign, htext, List.append_nil, List.append_nil]

theorem OfTexts.filter_commentLine (hp : OfTexts comments p) (name : String) :
    (chars (commentLine (commentAt comments name))).filter p = [] := by
  cases hcomment : commentAt comments name with
  | none => rfl
  | some comment =>
    have hsign : "# ".toList.filter p = [] := hp.filter_mark (by decide)
    have htext : comment.toList.filter p = [] := filter_eq_nil (hp.comment hcomment)
    rw [commentLine, chars_singleton, String.toList_append, List.filter_append, hsign, htext,
      List.append_nil]

theorem OfTexts.filter_indented (hp : OfTexts comments p) (lines : List String) :
    (chars (lines.map indented)).filter p = (chars lines).filter p := by
  have hindent : "  ".toList.filter p = [] := hp.filter_mark (by decide)
  induction lines with
  | nil => rfl
  | cons line rest ih =>
    simp only [List.map_cons, chars_cons, indented, String.toList_append, List.filter_append,
      hindent, List.nil_append, ih]

theorem OfTexts.filter_dashed (hp : OfTexts comments p) (lines : List String) :
    (chars (dashed lines)).filter p = (chars lines).filter p := by
  have hdash : "- ".toList.filter p = [] := hp.filter_mark (by decide)
  cases lines with
  | nil => rfl
  | cons line rest =>
    simp only [dashed, chars_cons, String.toList_append, List.filter_append, hdash,
      List.nil_append, hp.filter_indented rest]

theorem OfTexts.filter_inline (hp : OfTexts comments p) {tree : Tree} {line : String}
    (h : tree.inline? = some line) :
    line.toList.filter p = (written tree.texts).filter p := by
  match tree, h with
  | .scalar text, h =>
    obtain rfl : scalarLine text = line := Option.some.inj h
    rw [texts, written_cons, written, List.flatMap_nil, List.append_nil]
  | .sequence [], h =>
    obtain rfl : "[]" = line := Option.some.inj h
    exact hp.filter_mark (by decide)
  | .mapping [], h =>
    obtain rfl : "\x7b\x7d" = line := Option.some.inj h
    exact hp.filter_mark (by decide)

/-- The characters with the property on the lines of a collection are those of its texts. -/
def FilterBody (comments : Table) (p : Char → Bool) (tree : Tree) : Prop :=
  tree.inline? = none → ∀ name,
    (chars (bodyLines comments name tree)).filter p = (written tree.texts).filter p

theorem filter_linesOfItem (hp : OfTexts comments p) {item : Tree}
    (hitem : FilterBody comments p item) (child : String) :
    (chars (linesOfItem comments child item)).filter p = (written item.texts).filter p := by
  unfold linesOfItem
  cases hinline : item.inline? with
  | some line =>
    have hdash : "- ".toList.filter p = [] := hp.filter_mark (by decide)
    simp only [chars_singleton, hp.filter_withComment, String.toList_append, List.filter_append,
      hdash, List.nil_append, hp.filter_inline hinline]
  | none =>
    simp only [chars_append, List.filter_append, hp.filter_commentLine, hp.filter_dashed,
      List.nil_append, hitem hinline child]

theorem filter_linesOfEntry (hp : OfTexts comments p) {value : Tree}
    (hvalue : FilterBody comments p value) (child key : String) :
    (chars (linesOfEntry comments child key value)).filter p =
      (written (key :: value.texts)).filter p := by
  unfold linesOfEntry
  rw [written_cons, List.filter_append]
  cases hinline : value.inline? with
  | some line =>
    have hcolon : ": ".toList.filter p = [] := hp.filter_mark (by decide)
    simp only [chars_singleton, hp.filter_withComment, String.toList_append, List.filter_append,
      hcolon, List.append_nil, hp.filter_inline hinline]
  | none =>
    have hcolon : ":".toList.filter p = [] := hp.filter_mark (by decide)
    simp only [chars_append, chars_cons, List.filter_append, hp.filter_commentLine,
      hp.filter_indented, String.toList_append, hcolon, List.append_nil, List.nil_append,
      hvalue hinline child]

mutual
/-- **On the lines of a collection only its keys and leaves have such characters.** -/
theorem filter_bodyLines (hp : OfTexts comments p) : (tree : Tree) → FilterBody comments p tree
  | .scalar _ => fun h => nomatch h
  | .sequence items => fun _ name => filter_itemLines hp items name 0
  | .mapping entries => fun _ name => filter_entryLines hp entries name

theorem filter_itemLines (hp : OfTexts comments p) : (items : List Tree) → ∀ name index,
    (chars (itemLines comments name index items)).filter p = (written (itemTexts items)).filter p
  | [] => fun _ _ => rfl
  | item :: rest => fun name index => by
    rw [itemLines_cons, itemTexts, chars_append, written_append, List.filter_append,
      List.filter_append, filter_linesOfItem hp (filter_bodyLines hp item),
      filter_itemLines hp rest]

theorem filter_entryLines (hp : OfTexts comments p) : (entries : List (String × Tree)) → ∀ name,
    (chars (entryLines comments name entries)).filter p = (written (entryTexts entries)).filter p
  | [] => fun _ => rfl
  | (key, value) :: rest => fun name => by
    rw [entryLines_cons, entryTexts, ← List.cons_append, chars_append, written_append,
      List.filter_append, List.filter_append, filter_linesOfEntry hp (filter_bodyLines hp value),
      filter_entryLines hp rest]
end

theorem filter_documentLines (hp : OfTexts comments p) (tree : Tree) :
    (chars (documentLines comments tree)).filter p = (written tree.texts).filter p := by
  unfold documentLines
  cases hinline : tree.inline? with
  | none => exact filter_bodyLines hp tree hinline ""
  | some line =>
    simp only [chars_singleton, hp.filter_inline hinline]

theorem filter_unlines {lines : List String} (hfeed : "\n".toList.filter p = []) :
    ("\n".intercalate lines ++ "\n").toList.filter p = (chars lines).filter p := by
  rw [String.toList_append, List.filter_append, hfeed, List.append_nil]
  induction lines with
  | nil => rfl
  | cons line rest ih =>
    cases rest with
    | nil => rw [String.intercalate_singleton, chars_singleton]
    | cons next more =>
      rw [String.intercalate_cons_cons, String.toList_append, String.toList_append,
        List.filter_append, List.filter_append, hfeed, List.append_nil, ih, chars_cons line,
        List.filter_append]

/-- **In a document only keys and leaves have such characters.** -/
theorem filter_toYamlWith (hp : OfTexts comments p) (tree : Tree) :
    (tree.toYamlWith comments).toList.filter p = (written tree.texts).filter p := by
  rw [toYamlWith, filter_unlines (hp.filter_mark (by decide)), filter_documentLines hp]

end Characters

/-! ### The tokens of a document -/

/-- The first character of the keys and leaves that no document may have. -/
def forbidden? (tree : Tree) : Option Char :=
  (written tree.texts).find? (!isAllowed ·)

/-- The tokens of a document of the tree, or why it has none. -/
def documentTokens (tree : Tree) : Except Error (List Token) :=
  match tree.forbidden? with
  | some c => .error (.forbiddenCharacter c)
  | none => tree.nodeTokens

variable {comments : Table}

theorem find?_toYamlWith (hclean : OneLine comments) (tree : Tree) :
    (tree.toYamlWith comments).toList.find? (!isAllowed ·) = tree.forbidden? := by
  have hp : OfTexts comments (!isAllowed ·) := by
    refine ⟨by decide, fun hcomment c hc => ?_⟩
    rw [hclean.allowed hcomment c hc, Bool.not_true]
  rw [← List.head?_filter, filter_toYamlWith hp, List.head?_filter, forbidden?]

/-- A document has no carriage returns. -/
theorem not_mem_toYamlWith (hclean : OneLine comments) (tree : Tree) :
    '\r' ∉ (tree.toYamlWith comments).toList := by
  have hp : OfTexts comments (· == '\r') := by
    refine ⟨by decide, fun hcomment c hc => ?_⟩
    have hbreak := hclean.noBreak hcomment c hc
    simp only [isBreak, Bool.or_eq_false_iff] at hbreak
    exact hbreak.1.1.1.2
  intro hmem
  -- A carriage return could only come from a key or leaf, and those are written without any.
  have hchosen : '\r' ∈ (written tree.texts).filter (· == '\r') := by
    rw [← filter_toYamlWith hp tree, List.mem_filter]
    exact ⟨hmem, rfl⟩
  obtain ⟨text, -, htext⟩ := List.mem_flatMap.mp (List.mem_filter.mp hchosen).1
  exact (onLine_scalarLine text).no_lineFeed.2 htext

/-- **The tokens of a document are those of its tree**, whatever comments it has. -/
theorem tokens_toYamlWith (hclean : OneLine comments) (tree : Tree) :
    tokens (tree.toYamlWith comments) = tree.documentTokens := by
  obtain ⟨lead, text, trail, hlines, hlead, hlayout, htrail⟩ := shows_document hclean tree
  have hne : documentLines comments tree ≠ [] := by
    intro hnil
    rw [hnil] at hlines
    cases hlines
  have hchars : normalizeBreaks (tree.toYamlWith comments).toList =
      lead ++ (text ++ (trail ++ ['\n'])) := by
    have hunlines := newLines_unlines hne
    rw [hlines] at hunlines
    rw [normalizeBreaks_eq_map (not_mem_toYamlWith hclean tree)]
    simpa [toYamlWith, lineChars] using hunlines
  have hlength : (lead ++ (text ++ (trail ++ ['\n']))).length =
      (tree.toYamlWith comments).toList.length := by
    rw [← hchars, normalizeBreaks_eq_map (not_mem_toYamlWith hclean tree), List.length_map]
  -- The reader drops a byte order mark at the start, so none may stand there.
  have hstart : (lead ++ (text ++ (trail ++ ['\n']))).head? ≠ some byteOrderMark := by
    obtain ⟨c, more, rfl, -, hmark⟩ := hlayout.first
    cases hlead with
    | none => simpa using hmark
    | comment => simp [byteOrderMark]
  have hrun := run_layout hlead.between hlead.column hlayout htrail.end_lineGap hstart
    (Nat.lt_succ_self _)
  simp only [tokens, find?_toYamlWith hclean]
  unfold documentTokens
  cases tree.forbidden? with
  | some c => rfl
  | none =>
    rw [hchars, ← hlength]
    exact hrun

theorem mem_intercalate {lines : List String} {c : Char}
    (h : c ∈ (" ".intercalate lines).toList) : c = ' ' ∨ ∃ line ∈ lines, c ∈ line.toList := by
  induction lines with
  | nil => cases h
  | cons line rest ih =>
    cases rest with
    | nil =>
      rw [String.intercalate_singleton] at h
      exact .inr ⟨line, by simp, h⟩
    | cons next more =>
      rw [String.intercalate_cons_cons, String.toList_append, String.toList_append,
        List.mem_append, List.mem_append] at h
      rcases h with (h | h) | h
      · exact .inr ⟨line, by simp, h⟩
      · exact .inl (by simpa using h)
      · rcases ih h with h | ⟨line, hline, hc⟩
        · exact .inl h
        · exact .inr ⟨line, by simp [hline], hc⟩

/-- The lines of a text have no line ends of another kind, and no forbidden characters. -/
def staysOnLine (text : String) : Bool :=
  (Text.lines text).all fun line => line.toList.all fun c => isAllowed c && !isBreak c

theorem oneLine_of_staysOnLine (h : ∀ entry ∈ comments, staysOnLine entry.2 = true) :
    OneLine comments := by
  have hcomment : ∀ {name line}, commentAt comments name = some line →
      ∀ c ∈ line.toList, isAllowed c = true ∧ isBreak c = false := by
    intro name line hline c hc
    obtain ⟨hline, -⟩ := Option.filter_eq_some_iff.mp hline
    obtain ⟨text, htext, rfl⟩ := Option.map_eq_some_iff.mp hline
    rcases mem_intercalate hc with rfl | ⟨line, hmem, hc⟩
    · decide
    · have hline := List.all_eq_true.mp (h (name, text) (Entries.mem_of_get? htext)) line hmem
      simpa using List.all_eq_true.mp hline c hc
  exact ⟨fun h c hc => (hcomment h c hc).1, fun h c hc => (hcomment h c hc).2⟩

/-- **Comments never change what a document is read as**, tree or error, if each of them stays on
its line.  Errors agree in what is wrong; the position at which it is found is not part of them, and
moves by the lines of the comments in front of it. -/
theorem ofYaml_toYamlWith (comments : Table) (tree : Tree) (h : OneLine comments) :
    ofYaml (tree.toYamlWith comments) = ofYaml tree.toYaml := by
  have htokens : tokens (tree.toYamlWith comments) = tokens tree.toYaml := by
    rw [tokens_toYamlWith h, toYaml, tokens_toYamlWith oneLine_nil]
  rw [ofYaml, htokens, ofYaml]

/-- A tree with a comment in front of a nested collection and one behind a leaf. -/
def commented : Tree := .mapping [("a", .sequence [.mapping [("b", .scalar "1")]])]

theorem ofYaml_toYamlWith_commented :
    OneLine [("a.0", "- c:\n'"), ("a.0.b", "# \x22")] ∧
      ofYaml (commented.toYamlWith [("a.0", "- c:\n'"), ("a.0.b", "# \x22")]) =
        ofYaml commented.toYaml := by
  have h : OneLine [("a.0", "- c:\n'"), ("a.0.b", "# \x22")] :=
    oneLine_of_staysOnLine (List.all_eq_true.mp (by decide))
  exact ⟨h, ofYaml_toYamlWith _ commented h⟩

/-- A mapping that gets a comment with a carriage return. -/
def returned : Tree := .mapping [("a", .scalar "1"), ("b", .scalar "2")]

/-- Behind the carriage return there is an entry. -/
theorem ofYaml_toYamlWith_returned :
    ofYaml (returned.toYamlWith [("a", "x\rc: 3")]) ≠ ofYaml returned.toYaml := by
  intro h
  have hread : (ofYaml (returned.toYamlWith [("a", "x\rc: 3")])).toOption ≠
      (ofYaml returned.toYaml).toOption := by
    decide +kernel
  exact hread (congrArg Except.toOption h)

end Tree

end ConfigTree
