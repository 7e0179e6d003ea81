import ConfigTree.Proofs.Document.Comments
import ConfigTree.Proofs.Document.Naming
import ConfigTree.Proofs.Text.Lines
import ConfigTree.Proofs.Tree.Node
import Mathlib.Data.List.Nodup

/-! # The rows of a document

Without its comments a document is one `Row` after the other.  The value of a key has the row of the
key, which is the whole value if it is a leaf or an empty collection, and only its key otherwise
(`entryRow`).  An item that is a leaf or an empty collection has a row as well, and that of another
item is taken by the first one inside it, behind the dash.

Comments are put at rows (`Row.lines`): behind the row of a whole value, and otherwise above the
row.  A comment above the first row of an item takes the dash, and the row itself moves to the right
instead.  Where no item has a comment, **the lines with comments are the lines of the rows**
(`linesBy_eq_rows`), and each value of a key has one row (`exists_row`, `nodup_rows`), so its
comment is written once.
-/
namespace ConfigTree.Tree

/-- What is written in one line of a document without comments. -/
structure Row where
  /-- The place of the node that the row is about. -/
  place : Path
  /-- The spaces and dashes in front. -/
  lead : String
  text : String
  /-- Is the whole node written in the row, and not only its key? -/
  closed : Bool
deriving DecidableEq, Repr

namespace Row

/-- The row of the same node, seen from above the segment. -/
def under (segment : Segment) (row : Row) : Row := { row with place := segment :: row.place }

/-- The row behind a mark. -/
def behind (mark : String) (row : Row) : Row := { row with lead := mark ++ row.lead }

/-- The lines of a row, perhaps with a comment. -/
def lines (row : Row) : Option String → List String
  | none => [row.lead ++ row.text]
  | some comment =>
    if row.closed then [row.lead ++ row.text ++ "  # " ++ comment]
    else [row.lead ++ "# " ++ comment,
      String.ofList (List.replicate row.lead.length ' ') ++ row.text]

@[simp] theorem under_place (segment : Segment) (row : Row) :
    (row.under segment).place = segment :: row.place := rfl

@[simp] theorem lines_under (segment : Segment) (row : Row) (comment : Option String) :
    (row.under segment).lines comment = row.lines comment := rfl

@[simp] theorem behind_place (mark : String) (row : Row) : (row.behind mark).place = row.place :=
  rfl

theorem spaces_add_two (n : Nat) : String.ofList (List.replicate (2 + n) ' ') =
    "  " ++ String.ofList (List.replicate n ' ') := by
  rw [← List.replicate_append_replicate, String.ofList_append]
  rfl

theorem lines_behind_spaces (row : Row) (comment : Option String) :
    (row.behind "  ").lines comment = (row.lines comment).map indented := by
  have hmark : "  ".length = 2 := rfl
  cases comment with
  | none => simp [lines, behind, indented, String.append_assoc]
  | some comment =>
    cases hclosed : row.closed <;>
      simp [lines, behind, hclosed, indented, hmark, spaces_add_two, String.append_assoc]

theorem lines_behind_dash (row : Row) (comment : Option String) :
    (row.behind "- ").lines comment = dashed (row.lines comment) := by
  have hmark : "- ".length = 2 := rfl
  cases comment with
  | none => simp [lines, behind, dashed, String.append_assoc]
  | some comment =>
    cases hclosed : row.closed <;>
      simp [lines, behind, hclosed, dashed, indented, hmark, spaces_add_two, String.append_assoc]

theorem lines_ne_nil (row : Row) (comment : Option String) : row.lines comment ≠ [] := by
  cases comment with
  | none => simp [lines]
  | some comment => cases hclosed : row.closed <;> simp [lines, hclosed]

end Row

/-- The row of a key and its value. -/
def entryRow (key : String) (value : Tree) : Row where
  place := []
  lead := ""
  text := scalarLine key ++ value.inline?.elim ":" (": " ++ ·)
  closed := value.inline?.isSome

/-- Puts a dash before the first of some rows and moves the others to the right of it. -/
def dashedRows : List Row → List Row
  | [] => []
  | first :: rest => first.behind "- " :: rest.map (Row.behind "  ")

/-- The rows of an item, from its rows as a collection. -/
def itemRows (item : Tree) (body : List Row) : List Row :=
  item.inline?.elim (dashedRows body) fun text => [⟨[], "- ", text, true⟩]

mutual
/-- The rows of a collection. -/
def bodyRows : Tree → List Row
  | .scalar _ => []
  | .sequence items => rowsOfItems 0 items
  | .mapping entries => rowsOfEntries entries

/-- The rows of the items of a sequence, counted from `index` on. -/
def rowsOfItems (index : Nat) : List Tree → List Row
  | [] => []
  | item :: rest =>
    (itemRows item (bodyRows item)).map (Row.under (.index index)) ++ rowsOfItems (index + 1) rest

/-- The rows of the entries of a mapping. -/
def rowsOfEntries : List (String × Tree) → List Row
  | [] => []
  | (key, value) :: rest =>
    (entryRow key value :: (bodyRows value).map (Row.behind "  ")).map (Row.under (.key key)) ++
      rowsOfEntries rest
end

/-- The rows of a document. -/
def rows (tree : Tree) : List Row :=
  tree.inline?.elim tree.bodyRows fun text => [⟨[], "", text, true⟩]

/-- A tree that is written on one line has no rows as a collection. -/
theorem bodyRows_of_inline {tree : Tree} {text : String} (h : tree.inline? = some text) :
    tree.bodyRows = [] := by
  match tree, h with
  | .scalar _, _ => rfl
  | .sequence [], _ => rfl
  | .mapping [], _ => rfl

theorem inline?_of_mem_bodyRows {tree : Tree} {row : Row} (h : row ∈ tree.bodyRows) :
    tree.inline? = none := by
  cases hinline : tree.inline? with
  | none => rfl
  | some text =>
    rw [bodyRows_of_inline hinline] at h
    cases h

/-! ### The lines of the rows -/

/-- The lines of some rows, with the comments that are found by place. -/
def linesOf (look : Path → Option String) (rows : List Row) : List String :=
  rows.flatMap fun row => row.lines (look row.place)

section Lines

variable (look : Path → Option String)

theorem linesOf_append (rows others : List Row) :
    linesOf look (rows ++ others) = linesOf look rows ++ linesOf look others :=
  List.flatMap_append

theorem linesOf_under (segment : Segment) (rows : List Row) :
    linesOf look (rows.map (Row.under segment)) =
      linesOf (fun way => look (segment :: way)) rows := by
  simp [linesOf, List.flatMap_map]

theorem linesOf_behind (rows : List Row) :
    linesOf look (rows.map (Row.behind "  ")) = (linesOf look rows).map indented := by
  simp [linesOf, List.flatMap_map, List.map_flatMap, Row.lines_behind_spaces]

theorem linesOf_dashedRows (rows : List Row) :
    linesOf look (dashedRows rows) = dashed (linesOf look rows) := by
  cases rows with
  | nil => rfl
  | cons first rest =>
    -- the dash goes before the first line of the first row, which may be its comment
    have hrest := linesOf_behind look rest
    have hfirst := first.lines_behind_dash (look first.place)
    obtain ⟨line, more, hlines⟩ :=
      List.exists_cons_of_ne_nil (first.lines_ne_nil (look first.place))
    unfold linesOf at hrest ⊢
    rw [dashedRows, List.flatMap_cons, List.flatMap_cons, hrest, Row.behind_place, hfirst, hlines]
    simp [dashed]

theorem entryPart_eq (comment : Option String) (body : List String) (key : String)
    (value : Tree) :
    entryPart comment body key value =
      (entryRow key value).lines comment ++ value.inline?.elim (body.map indented) fun _ => [] := by
  unfold entryPart entryRow
  cases value.inline? <;> cases comment <;>
    simp [Row.lines, withComment, commentLine, String.append_assoc]

theorem itemsBy_eq_rows {items : List Tree} {place : Path} {index : Nat}
    (h : ∀ i item, items[i]? = some item →
      look (place ++ [.index (index + i)]) = none ∧
        bodyBy look (place ++ [.index (index + i)]) item =
          linesOf (fun way => look (place ++ .index (index + i) :: way)) item.bodyRows) :
    itemsBy look place index items =
      linesOf (fun way => look (place ++ way)) (rowsOfItems index items) := by
  induction items generalizing index with
  | nil => rfl
  | cons item rest ih =>
    obtain ⟨hnone, hbody⟩ := h 0 item rfl
    rw [Nat.add_zero] at hnone hbody
    have hitem : itemPart none (bodyBy look (place ++ [.index index]) item) item =
        linesOf (fun way => look (place ++ .index index :: way)) (itemRows item item.bodyRows) := by
      unfold itemPart itemRows
      cases item.inline? with
      | some text => simp [linesOf, hnone, Row.lines, withComment]
      | none => simp [hbody, linesOf_dashedRows, commentLine]
    have hrest : itemsBy look place (index + 1) rest =
        linesOf (fun way => look (place ++ way)) (rowsOfItems (index + 1) rest) := by
      refine ih fun i next hnext => ?_
      rw [Nat.add_assoc, Nat.add_comm 1 i]
      exact h (i + 1) next hnext
    rw [itemsBy, rowsOfItems, linesOf_append, linesOf_under, hnone, hitem, hrest]

theorem entriesBy_eq_rows {entries : List (String × Tree)} {place : Path}
    (h : ∀ entry ∈ entries, bodyBy look (place ++ [.key entry.1]) entry.2 =
      linesOf (fun way => look (place ++ .key entry.1 :: way)) entry.2.bodyRows) :
    entriesBy look place entries =
      linesOf (fun way => look (place ++ way)) (rowsOfEntries entries) := by
  induction entries with
  | nil => rfl
  | cons entry rest ih =>
    obtain ⟨key, value⟩ := entry
    obtain ⟨hbody, hrest⟩ := List.forall_mem_cons.mp h
    have hvalue : (value.inline?.elim ((bodyBy look (place ++ [.key key]) value).map indented)
        fun _ => []) = linesOf (fun way => look (place ++ .key key :: way))
          (value.bodyRows.map (Row.behind "  ")) := by
      cases hinline : value.inline? with
      | some text =>
        rw [bodyRows_of_inline hinline]
        rfl
      | none => simp [hbody, linesOf_behind]
    rw [entriesBy, rowsOfEntries, linesOf_append, linesOf_under, entryPart_eq, hvalue, ih hrest]
    rfl

/-- No item of a list in the tree has a comment. -/
def AtKeys (look : Path → Option String) (tree : Tree) : Prop :=
  ∀ front index node, NodeAt tree (front ++ [.index index]) node →
    look (front ++ [.index index]) = none

theorem bodyBy_eq_rows (tree : Tree) (hvalid : tree.Valid) {place : Path}
    (h : AtKeys (fun way => look (place ++ way)) tree) :
    bodyBy look place tree = linesOf (fun way => look (place ++ way)) tree.bodyRows := by
  induction tree using Tree.induction generalizing place with
  | scalar text => rfl
  | sequence items ih =>
    refine itemsBy_eq_rows look fun i item hitem => ?_
    rw [Nat.zero_add]
    have hmem := List.mem_of_getElem? hitem
    refine ⟨h [] i item (.item hitem (.here item)), ?_⟩
    rw [ih item hmem (validItems_iff.mp hvalid item hmem)]
    · simp
    · intro front index node hnode
      simpa using h (.index i :: front) index node (.item hitem hnode)
  | mapping entries ih =>
    refine entriesBy_eq_rows look fun entry hentry => ?_
    have hget := (Entries.get?_eq_some_iff hvalid.1).mpr hentry
    rw [ih entry hentry (validEntries_iff.mp hvalid.2 entry hentry)]
    · simp
    · intro front index node hnode
      simpa using h (.key entry.1 :: front) index node (.entry hget hnode)

/-- **The lines with comments are the lines of the rows.** -/
theorem linesBy_eq_rows {tree : Tree} (hvalid : tree.Valid) (hroot : look [] = none)
    (hkeys : AtKeys look tree) : linesBy look tree = linesOf look tree.rows := by
  unfold linesBy rows
  cases tree.inline? with
  | none => exact bodyBy_eq_rows look tree hvalid hkeys
  | some text => simp [linesOf, hroot, Row.lines]

/-- Without comments each row is a line. -/
theorem documentLines_nil {tree : Tree} (hvalid : tree.Valid) :
    documentLines [] tree = tree.rows.map fun row => row.lead ++ row.text := by
  have hnone : ∀ place : Path, commentAt [] place.flatName = none := fun _ => rfl
  rw [documentLines_eq_linesBy,
    linesBy_eq_rows _ hvalid (hnone []) fun front index _ _ => hnone (front ++ [.index index])]
  exact List.map_eq_flatMap.symm

end Lines

/-! ### Comments from texts -/

/-- Where all keys are segments, the names of comments are the dotted forms of places. -/
theorem NodeAt.flatName_eq {tree node : Tree} {way : Path} (h : NodeAt tree way node)
    (hkeys : tree.AllKeys IsSegment) : way.flatName = way.dotted := by
  rw [Path.flatName_eq_dotted_iff]
  rintro ⟨segment, rest, rfl⟩
  exact (h.isSegment hkeys (.key "") (by simp)).1 rfl

theorem isBlankText_intercalate_iff {lines : List String} :
    Text.IsBlankText (" ".intercalate lines) ↔ ∀ line ∈ lines, Text.IsBlankText line := by
  have hspace : Text.IsBlankText " " := by decide
  induction lines with
  | nil => simp [Text.IsBlankText]
  | cons line rest ih =>
    cases rest with
    | nil => simp
    | cons next more =>
      rw [List.forall_mem_cons, String.intercalate_cons_cons]
      refine Iff.trans ?_ (and_congr_right' ih)
      simp only [Text.IsBlankText, String.toList_append, List.forall_mem_append]
      exact ⟨fun h => ⟨h.1.1, h.2⟩, fun h => ⟨⟨h.1, hspace⟩, h.2⟩⟩

/-- **A comment is a text that is not blank**, its lines joined by a space. -/
theorem commentAt_eq_some_iff {comments : Table} {name line : String} :
    commentAt comments name = some line ↔ ∃ text, Entries.get? comments name = some text ∧
      ¬Text.IsBlankText text ∧ line = " ".intercalate (Text.lines text) := by
  have hblank : ∀ text, (" ".intercalate (Text.lines text)).toList.all Text.isBlank = true ↔
      Text.IsBlankText text := by
    intro text
    rw [← Text.isBlank_lines_iff, ← isBlankText_intercalate_iff, List.all_eq_true]
    rfl
  rw [commentAt, Option.filter_eq_some_iff, Option.map_eq_some_iff]
  constructor
  · rintro ⟨⟨text, hget, rfl⟩, hline⟩
    refine ⟨text, hget, ?_, rfl⟩
    rw [← hblank]
    simpa using hline
  · rintro ⟨text, hget, hline, rfl⟩
    refine ⟨⟨text, hget, rfl⟩, ?_⟩
    rw [← hblank] at hline
    simpa using hline

theorem notMem_intercalate_lines (text : String) :
    '\n' ∉ (" ".intercalate (Text.lines text)).toList := by
  intro hmem
  rcases mem_intercalate hmem with heq | ⟨line, hline, hmem⟩
  · cases heq
  · exact Text.notMem_lines text line hline hmem

/-! ### One row for each value -/

theorem mem_rowsOfItems_iff {items : List Tree} {index : Nat} {row : Row} :
    row ∈ rowsOfItems index items ↔ ∃ i item, items[i]? = some item ∧
      ∃ inner ∈ itemRows item item.bodyRows, row = inner.under (.index (index + i)) := by
  induction items generalizing index with
  | nil => simp [rowsOfItems]
  | cons first rest ih =>
    rw [rowsOfItems, List.mem_append, List.mem_map, ih]
    constructor
    · rintro (⟨inner, hinner, rfl⟩ | ⟨i, item, hitem, inner, hinner, rfl⟩)
      · exact ⟨0, first, rfl, inner, hinner, rfl⟩
      · exact ⟨i + 1, item, hitem, inner, hinner, by rw [Nat.add_assoc, Nat.add_comm 1 i]⟩
    · rintro ⟨i, item, hitem, inner, hinner, rfl⟩
      cases i with
      | zero =>
        obtain rfl : first = item := Option.some.inj hitem
        exact .inl ⟨inner, hinner, rfl⟩
      | succ i =>
        exact .inr ⟨i, item, hitem, inner, hinner, by rw [Nat.add_assoc, Nat.add_comm 1 i]⟩

theorem mem_rowsOfEntries_iff {entries : List (String × Tree)} {row : Row} :
    row ∈ rowsOfEntries entries ↔ ∃ key value, (key, value) ∈ entries ∧
      ∃ inner ∈ entryRow key value :: value.bodyRows.map (Row.behind "  "),
        row = inner.under (.key key) := by
  induction entries with
  | nil => simp [rowsOfEntries]
  | cons first rest ih =>
    obtain ⟨key, value⟩ := first
    rw [rowsOfEntries, List.mem_append, List.mem_map, ih]
    constructor
    · rintro (⟨inner, hinner, rfl⟩ | ⟨other, child, hentry, hrow⟩)
      · exact ⟨key, value, List.mem_cons_self .., inner, hinner, rfl⟩
      · exact ⟨other, child, List.mem_cons_of_mem _ hentry, hrow⟩
    · rintro ⟨other, child, hentry, inner, hinner, rfl⟩
      rcases List.mem_cons.mp hentry with heq | hentry
      · cases heq
        exact .inl ⟨inner, hinner, rfl⟩
      · exact .inr ⟨other, child, hentry, inner, hinner, rfl⟩

theorem exists_mem_dashedRows {rows : List Row} {row : Row} (h : row ∈ rows) :
    ∃ mark, row.behind mark ∈ dashedRows rows := by
  cases rows with
  | nil => cases h
  | cons first rest =>
    rcases List.mem_cons.mp h with rfl | h
    · exact ⟨"- ", List.mem_cons_self ..⟩
    · exact ⟨"  ", List.mem_cons_of_mem _ (List.mem_map_of_mem h)⟩

/-- The row of the key at the end of a place. -/
def entryRowAt (front : Path) (lead key : String) (value : Tree) : Row :=
  { entryRow key value with place := front ++ [.key key], lead := lead }

theorem exists_bodyRow {tree node : Tree} {front : Path} {key : String}
    (h : NodeAt tree (front ++ [.key key]) node) :
    ∃ lead, entryRowAt front lead key node ∈ tree.bodyRows := by
  induction front generalizing tree with
  | nil =>
    cases h with
    | entry hvalue hnode =>
      cases hnode
      exact ⟨"", mem_rowsOfEntries_iff.mpr ⟨_, _, Entries.mem_of_get? hvalue, _,
        List.mem_cons_self .., rfl⟩⟩
  | cons segment front ih =>
    cases h with
    | @item items index item _ _ hitem hnode =>
      obtain ⟨lead, hrow⟩ := ih hnode
      -- the item has a row inside, and so it is not written on one line
      have hinline := inline?_of_mem_bodyRows hrow
      obtain ⟨mark, hdashed⟩ := exists_mem_dashedRows hrow
      exact ⟨mark ++ lead, mem_rowsOfItems_iff.mpr ⟨index, item, hitem,
        entryRowAt front (mark ++ lead) key node, by rwa [itemRows, hinline], by
          rw [Nat.zero_add]; rfl⟩⟩
    | entry hvalue hnode =>
      obtain ⟨lead, hrow⟩ := ih hnode
      exact ⟨"  " ++ lead, mem_rowsOfEntries_iff.mpr ⟨_, _, Entries.mem_of_get? hvalue, _,
        List.mem_cons_of_mem _ (List.mem_map_of_mem hrow), rfl⟩⟩

/-- **The value of a key has a row.** -/
theorem exists_row {tree node : Tree} {front : Path} {key : String}
    (h : NodeAt tree (front ++ [.key key]) node) :
    ∃ lead, entryRowAt front lead key node ∈ tree.rows := by
  obtain ⟨lead, hrow⟩ := exists_bodyRow h
  refine ⟨lead, ?_⟩
  rw [rows, inline?_of_mem_bodyRows hrow]
  exact hrow

theorem place_ne_nil_of_mem_bodyRows {tree : Tree} {row : Row} (h : row ∈ tree.bodyRows) :
    row.place ≠ [] := by
  cases tree with
  | scalar text => cases h
  | sequence items =>
    obtain ⟨_, _, _, _, _, rfl⟩ := mem_rowsOfItems_iff.mp h
    simp
  | mapping entries =>
    obtain ⟨_, _, _, _, _, rfl⟩ := mem_rowsOfEntries_iff.mp h
    simp

theorem places_dashedRows (rows : List Row) :
    (dashedRows rows).map Row.place = rows.map Row.place := by
  cases rows with
  | nil => rfl
  | cons first rest => simp [dashedRows, Function.comp_def]

theorem exists_node_of_mem_bodyRows (tree : Tree) (hvalid : tree.Valid) {row : Row}
    (h : row ∈ tree.bodyRows) : ∃ node, NodeAt tree row.place node := by
  induction tree using Tree.induction generalizing row with
  | scalar text => cases h
  | sequence items ih =>
    obtain ⟨i, item, hitem, inner, hinner, rfl⟩ := mem_rowsOfItems_iff.mp h
    rw [Nat.zero_add]
    have hmem := List.mem_of_getElem? hitem
    suffices hnode : ∃ node, NodeAt item inner.place node by
      obtain ⟨node, hnode⟩ := hnode
      exact ⟨node, .item hitem hnode⟩
    unfold itemRows at hinner
    cases hinline : item.inline? with
    | some text =>
      rw [hinline, Option.elim_some, List.mem_singleton] at hinner
      subst hinner
      exact ⟨item, .here item⟩
    | none =>
      rw [hinline, Option.elim_none] at hinner
      have hplace : inner.place ∈ item.bodyRows.map Row.place := by
        rw [← places_dashedRows]
        exact List.mem_map_of_mem hinner
      obtain ⟨origin, horigin, hsame⟩ := List.mem_map.mp hplace
      rw [← hsame]
      exact ih item hmem (validItems_iff.mp hvalid item hmem) horigin
  | mapping entries ih =>
    obtain ⟨key, value, hentry, inner, hinner, rfl⟩ := mem_rowsOfEntries_iff.mp h
    have hget := (Entries.get?_eq_some_iff hvalid.1).mpr hentry
    rcases List.mem_cons.mp hinner with rfl | hinner
    · exact ⟨value, .entry hget (.here value)⟩
    · obtain ⟨origin, horigin, rfl⟩ := List.mem_map.mp hinner
      obtain ⟨node, hnode⟩ := ih (key, value) hentry (validEntries_iff.mp hvalid.2 _ hentry) horigin
      exact ⟨node, .entry hget hnode⟩

/-- **A row is about a node of the tree.** -/
theorem exists_node_of_mem_rows {tree : Tree} (hvalid : tree.Valid) {row : Row}
    (h : row ∈ tree.rows) : ∃ node, NodeAt tree row.place node := by
  unfold rows at h
  cases hinline : tree.inline? with
  | none =>
    rw [hinline] at h
    exact exists_node_of_mem_bodyRows tree hvalid h
  | some text =>
    rw [hinline, Option.elim_some, List.mem_singleton] at h
    subst h
    exact ⟨tree, .here tree⟩

/-- The rows below a segment have different places if they have below their node, and other rows
have other places if they are not below the segment. -/
theorem nodup_under_append {segment : Segment} {rows later : List Row}
    (hrows : (rows.map Row.place).Nodup) (hlater : (later.map Row.place).Nodup)
    (hother : ∀ row ∈ later, ∀ way, row.place ≠ segment :: way) :
    ((rows.map (Row.under segment) ++ later).map Row.place).Nodup := by
  have hcons : (rows.map (Row.under segment)).map Row.place =
      (rows.map Row.place).map (segment :: ·) := by
    simp [Function.comp_def]
  rw [List.map_append, hcons, List.nodup_append]
  refine ⟨List.Nodup.map List.cons_injective hrows, hlater, ?_⟩
  rintro place hplace _ hsame rfl
  obtain ⟨way, -, rfl⟩ := List.mem_map.mp hplace
  obtain ⟨row, hrow, heq⟩ := List.mem_map.mp hsame
  exact hother row hrow way heq

theorem nodup_rowsOfItems {items : List Tree}
    (h : ∀ item ∈ items, (item.bodyRows.map Row.place).Nodup) (index : Nat) :
    ((rowsOfItems index items).map Row.place).Nodup := by
  induction items generalizing index with
  | nil => exact List.nodup_nil
  | cons item rest ih =>
    obtain ⟨hitem, hrest⟩ := List.forall_mem_cons.mp h
    have hfirst : ((itemRows item item.bodyRows).map Row.place).Nodup := by
      unfold itemRows
      cases item.inline? with
      | none => rwa [Option.elim_none, places_dashedRows]
      | some text => simp
    refine nodup_under_append hfirst (ih hrest (index + 1)) fun row hrow way heq => ?_
    obtain ⟨i, _, _, _, _, rfl⟩ := mem_rowsOfItems_iff.mp hrow
    have hindex : index + 1 + i = index := Segment.index.inj (List.cons.inj heq).1
    omega

theorem nodup_rowsOfEntries {entries : List (String × Tree)} (hkeys : Entries.NodupKeys entries)
    (h : ∀ entry ∈ entries, (entry.2.bodyRows.map Row.place).Nodup) :
    ((rowsOfEntries entries).map Row.place).Nodup := by
  induction entries with
  | nil => exact List.nodup_nil
  | cons entry rest ih =>
    obtain ⟨key, value⟩ := entry
    obtain ⟨hvalue, hrest⟩ := List.forall_mem_cons.mp h
    obtain ⟨hnew, hkeys⟩ := List.nodup_cons.mp hkeys
    have hfirst : ((entryRow key value :: value.bodyRows.map (Row.behind "  ")).map
        Row.place).Nodup := by
      have hplaces : (value.bodyRows.map (Row.behind "  ")).map Row.place =
          value.bodyRows.map Row.place := by simp [Function.comp_def]
      rw [List.map_cons, hplaces, List.nodup_cons]
      refine ⟨fun hnil => ?_, hvalue⟩
      obtain ⟨row, hrow, heq⟩ := List.mem_map.mp hnil
      exact place_ne_nil_of_mem_bodyRows hrow heq
    refine nodup_under_append hfirst (ih hkeys hrest) fun row hrow way heq => ?_
    obtain ⟨other, child, hother, _, _, rfl⟩ := mem_rowsOfEntries_iff.mp hrow
    obtain rfl : other = key := Segment.key.inj (List.cons.inj heq).1
    exact hnew (List.mem_map.mpr ⟨(other, child), hother, rfl⟩)

/-- **No place has two rows.** -/
theorem nodup_bodyRows (tree : Tree) (hvalid : tree.Valid) :
    (tree.bodyRows.map Row.place).Nodup := by
  induction tree using Tree.induction with
  | scalar text => exact List.nodup_nil
  | sequence items ih =>
    exact nodup_rowsOfItems (fun item hitem => ih item hitem (validItems_iff.mp hvalid _ hitem)) 0
  | mapping entries ih =>
    exact nodup_rowsOfEntries hvalid.1 fun entry hentry =>
      ih entry hentry (validEntries_iff.mp hvalid.2 _ hentry)

theorem nodup_rows (tree : Tree) (hvalid : tree.Valid) : (tree.rows.map Row.place).Nodup := by
  unfold rows
  cases tree.inline? with
  | none => exact nodup_bodyRows tree hvalid
  | some text => simp

/-! ### Rows are lines -/

/-- The row has no line end in it. -/
def Row.IsLine (row : Row) : Prop := '\n' ∉ (row.lead ++ row.text).toList

theorem Row.IsLine.behind {row : Row} (h : row.IsLine) {mark : String}
    (hmark : '\n' ∉ mark.toList) : (row.behind mark).IsLine := by
  simp only [IsLine, Row.behind, String.toList_append, List.mem_append, not_or] at h ⊢
  exact ⟨⟨hmark, h.1⟩, h.2⟩

theorem notMem_inline {tree : Tree} {text : String} (h : tree.inline? = some text) :
    '\n' ∉ text.toList := by
  match tree, h with
  | .scalar text, h =>
    obtain rfl := Option.some.inj h
    exact (onLine_scalarLine text).no_lineFeed.1
  | .sequence [], h =>
    obtain rfl := Option.some.inj h
    decide
  | .mapping [], h =>
    obtain rfl := Option.some.inj h
    decide

theorem isLine_entryRow (key : String) (value : Tree) : (entryRow key value).IsLine := by
  have hkey : '\n' ∉ (scalarLine key).toList := (onLine_scalarLine key).no_lineFeed.1
  unfold entryRow Row.IsLine
  cases hinline : value.inline? with
  | none => simpa using hkey
  | some text => simpa [hkey] using notMem_inline hinline

theorem isLine_dashedRows {rows : List Row} (h : ∀ row ∈ rows, row.IsLine) :
    ∀ row ∈ dashedRows rows, row.IsLine := by
  cases rows with
  | nil => exact h
  | cons first rest =>
    obtain ⟨hfirst, hrest⟩ := List.forall_mem_cons.mp h
    refine List.forall_mem_cons.mpr ⟨hfirst.behind (by decide), ?_⟩
    exact List.forall_mem_map.mpr fun row hrow => (hrest row hrow).behind (by decide)

mutual
theorem isLine_bodyRows : (tree : Tree) → ∀ row ∈ tree.bodyRows, row.IsLine
  | .scalar _ => by simp [bodyRows]
  | .sequence items => isLine_rowsOfItems 0 items
  | .mapping entries => isLine_rowsOfEntries entries

theorem isLine_rowsOfItems (index : Nat) : (items : List Tree) →
    ∀ row ∈ rowsOfItems index items, row.IsLine
  | [] => by simp [rowsOfItems]
  | item :: rest => by
    have hitem : ∀ row ∈ itemRows item item.bodyRows, row.IsLine := by
      unfold itemRows
      cases hinline : item.inline? with
      | none => exact isLine_dashedRows (isLine_bodyRows item)
      | some text => simpa [Row.IsLine] using notMem_inline hinline
    rw [rowsOfItems, List.forall_mem_append, List.forall_mem_map]
    exact ⟨hitem, isLine_rowsOfItems (index + 1) rest⟩

theorem isLine_rowsOfEntries : (entries : List (String × Tree)) →
    ∀ row ∈ rowsOfEntries entries, row.IsLine
  | [] => by simp [rowsOfEntries]
  | (key, value) :: rest => by
    rw [rowsOfEntries, List.forall_mem_append, List.forall_mem_map, List.forall_mem_cons,
      List.forall_mem_map]
    exact ⟨⟨isLine_entryRow key value, fun row hrow =>
      (isLine_bodyRows value row hrow).behind (by decide)⟩, isLine_rowsOfEntries rest⟩
end

theorem isLine_rows (tree : Tree) : ∀ row ∈ tree.rows, row.IsLine := by
  unfold rows
  cases hinline : tree.inline? with
  | none => exact isLine_bodyRows tree
  | some text => simpa [Row.IsLine] using notMem_inline hinline

/-- **The lines of rows are lines**, if their comments are. -/
theorem notMem_linesOf {look : Path → Option String}
    (hlook : ∀ place comment, look place = some comment → '\n' ∉ comment.toList) {rows : List Row}
    (hrows : ∀ row ∈ rows, row.IsLine) : ∀ line ∈ linesOf look rows, '\n' ∉ line.toList := by
  intro line hline
  obtain ⟨row, hrow, hline⟩ := List.mem_flatMap.mp hline
  have hrow := hrows row hrow
  simp only [Row.IsLine, String.toList_append, List.mem_append, not_or] at hrow
  cases hcomment : look row.place with
  | none =>
    obtain rfl : line = row.lead ++ row.text := by simpa [hcomment, Row.lines] using hline
    simp [hrow]
  | some comment =>
    have hnone := hlook row.place comment hcomment
    cases hclosed : row.closed with
    | true =>
      obtain rfl : line = row.lead ++ row.text ++ "  # " ++ comment := by
        simpa [hcomment, Row.lines, hclosed] using hline
      simp [hrow, hnone]
    | false =>
      have hlines : line = row.lead ++ "# " ++ comment ∨
          line = String.ofList (List.replicate row.lead.length ' ') ++ row.text := by
        simpa [hcomment, Row.lines, hclosed] using hline
      rcases hlines with rfl | rfl
      · simp [hrow, hnone]
      · simp [hrow, List.mem_replicate]

end ConfigTree.Tree
