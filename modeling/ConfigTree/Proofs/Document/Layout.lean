import ConfigTree.Proofs.Document.Scalar
import ConfigTree.Proofs.Yaml.Entry

/-! # Layouts of a tree

A tree has many texts in block style: comments, and lines that hold nothing else, can stand between
its tokens.  `Layout column tree text` says that `text` is one of them, its first token being at
`column`.  All layouts of a tree have the same tokens, `Tree.nodeTokens`, and they fail to be read
for the same reason if they do: `reads`.
-/
namespace ConfigTree

namespace Tree

open Yaml

/-! ### The tokens of a tree -/

mutual
/-- The tokens of a tree, or why it cannot be read. -/
def nodeTokens : Tree → Except Error (List Token)
  | .scalar text => (scalarToken text).map ([·])
  | .sequence items =>
    if items.isEmpty then .ok [.flowSequenceStart, .flowSequenceEnd]
    else (itemTokens items).map fun tokens => .blockSequenceStart :: (tokens ++ [.blockEnd])
  | .mapping entries =>
    if entries.isEmpty then .ok [.flowMappingStart, .flowMappingEnd]
    else (entryTokens true entries).map fun tokens => .blockMappingStart :: (tokens ++ [.blockEnd])

/-- The tokens of the items of a sequence. -/
def itemTokens : List Tree → Except Error (List Token)
  | [] => .ok []
  | item :: rest => do
    let tokens ← nodeTokens item
    let more ← itemTokens rest
    return .blockEntry :: (tokens ++ more)

/-- The tokens of the entries of a mapping, of which the first may come first. -/
def entryTokens (first : Bool) : List (String × Tree) → Except Error (List Token)
  | [] => .ok []
  | (key, value) :: rest => do
    let token ← keyToken first (scalarChars key) (scalarToken key)
    let tokens ← nodeTokens value
    let more ← entryTokens false rest
    return .key :: token :: .value :: (tokens ++ more)
end

/-! ### Layouts -/

/-- The gap between a dash and its item, which stands at column `inner`. -/
structure DashGap (column inner : Nat) (gap : List Char) : Prop where
  between : Between gap
  starts : gap.head?.any isGap = true
  leads : columnAfter (column + 1) gap = inner
  right : column < inner

/-- The gap between a colon and its value, which stands at column `inner` unless it is on the line
of the colon. -/
structure ColonGap (column inner : Nat) (value : Tree) (gap : List Char) : Prop where
  right : column < inner
  leads : LineGap gap inner ∨ gap = [' '] ∧ value.inline?.isSome = true

mutual
/-- A text of a tree that begins at a column. -/
inductive Layout : Nat → Tree → List Char → Prop
  | scalar {column : Nat} {text : String} : Layout column (.scalar text) (scalarChars text)
  | emptySequence {column : Nat} : Layout column (.sequence []) ['[', ']']
  | emptyMapping {column : Nat} : Layout column (.mapping []) ['\x7b', '\x7d']
  | sequence {column : Nat} {items : List Tree} {text : List Char} :
    ItemsLayout column items text → Layout column (.sequence items) text
  | mapping {column : Nat} {entries : List (String × Tree)} {text : List Char} :
    EntriesLayout column entries text → Layout column (.mapping entries) text

/-- A text of the items of a sequence. -/
inductive ItemsLayout : Nat → List Tree → List Char → Prop
  | last {column inner : Nat} {item : Tree} {gap text : List Char} :
    DashGap column inner gap → Layout inner item text →
    ItemsLayout column [item] ('-' :: (gap ++ text))
  | more {column inner : Nat} {item : Tree} {rest : List Tree} {gap text next more : List Char} :
    DashGap column inner gap → Layout inner item text → LineGap next column →
    ItemsLayout column rest more →
    ItemsLayout column (item :: rest) ('-' :: (gap ++ text) ++ (next ++ more))

/-- A text of the entries of a mapping. -/
inductive EntriesLayout : Nat → List (String × Tree) → List Char → Prop
  | last {column inner : Nat} {key : String} {value : Tree} {gap text : List Char} :
    ColonGap column inner value gap → Layout inner value text →
    EntriesLayout column [(key, value)] (scalarChars key ++ ':' :: (gap ++ text))
  | more {column inner : Nat} {key : String} {value : Tree} {rest : List (String × Tree)}
    {gap text next more : List Char} :
    ColonGap column inner value gap → Layout inner value text → LineGap next column →
    EntriesLayout column rest more →
    EntriesLayout column ((key, value) :: rest)
      (scalarChars key ++ ':' :: (gap ++ text) ++ (next ++ more))
end

theorem ColonGap.starts {column inner : Nat} {value : Tree} {gap : List Char}
    (h : ColonGap column inner value gap) : gap.head?.any isGap = true := by
  rcases h.leads with hline | ⟨rfl, -⟩
  · exact hline.starts
  · rfl

theorem first_scalarChars (text : String) :
    ∃ c more, scalarChars text = c :: more ∧ startsToken [c] = true ∧ c ≠ byteOrderMark := by
  obtain ⟨c, more, htext, hstart, -, hmark, -⟩ := (written_scalarChars text).first
  rw [htext] at hstart
  exact ⟨c, more, htext, hstart, hmark⟩

/-- A layout begins with a token, not with a byte order mark. -/
theorem Layout.first {column : Nat} {tree : Tree} {text : List Char} (h : Layout column tree text) :
    ∃ c more, text = c :: more ∧ startsToken [c] = true ∧ c ≠ byteOrderMark := by
  have hdash : startsToken ['-'] = true ∧ '-' ≠ byteOrderMark := by decide
  have hkey : ∀ key more, ∃ c rest, scalarChars key ++ more = c :: rest ∧
      startsToken [c] = true ∧ c ≠ byteOrderMark := by
    intro key more
    obtain ⟨c, rest, hkey, hfirst⟩ := first_scalarChars key
    exact ⟨c, rest ++ more, by rw [hkey]; rfl, hfirst⟩
  cases h with
  | scalar => exact first_scalarChars _
  | emptySequence => exact ⟨'[', _, rfl, by decide⟩
  | emptyMapping => exact ⟨'\x7b', _, rfl, by decide⟩
  | sequence h => cases h <;> exact ⟨'-', _, rfl, hdash⟩
  | mapping h =>
    cases h with
    | last => exact hkey _ _
    | more => rw [List.append_assoc]; exact hkey _ _

theorem Layout.starts {column : Nat} {tree : Tree} {text : List Char} (h : Layout column tree text)
    (rest : List Char) : startsToken (text ++ rest) = true := by
  obtain ⟨c, more, rfl, hstart, -⟩ := h.first
  exact hstart

theorem ItemsLayout.starts {column : Nat} {items : List Tree} {text : List Char}
    (h : ItemsLayout column items text) (rest : List Char) :
    startsToken (text ++ rest) = true :=
  (Layout.sequence h).starts rest

theorem EntriesLayout.starts {column : Nat} {entries : List (String × Tree)} {text : List Char}
    (h : EntriesLayout column entries text) (rest : List Char) :
    startsToken (text ++ rest) = true :=
  (Layout.mapping h).starts rest

/-- A tree on the line of its key can stand at any column. -/
theorem Layout.inline {column : Nat} {tree : Tree} {text : List Char} (h : Layout column tree text)
    (hinline : tree.inline?.isSome = true) (other : Nat) : Layout other tree text := by
  cases h with
  | scalar => exact .scalar
  | emptySequence => exact .emptySequence
  | emptyMapping => exact .emptyMapping
  | sequence h => cases h <;> cases hinline
  | mapping h => cases h <;> cases hinline

/-! ### Reading a layout -/

/-- The layouts of a tree are read as its tokens, whatever stands in front of them and behind. -/
def Reads (tree : Tree) : Prop :=
  ∀ {column below : Nat} {text gap rest : List Char} {b : Blocks}
    {outcome : Except Error (List Token)} {allowed : Bool},
    Layout column tree text → LineEnd b.indent gap rest below → b.indent < column →
    (allowed = true ∨ tree.inline?.isSome = true) →
    b.Follows (nodeTokens tree) rest below outcome →
    b.Continues (text ++ (gap ++ rest)) column allowed outcome

/-- The layouts of the items of a sequence, which may be further items, are read as their tokens. -/
def ReadsItems (items : List Tree) : Prop :=
  ∀ {column below : Nat} {text gap rest : List Char} {b : Blocks}
    {outcome : Except Error (List Token)},
    ItemsLayout column items text → LineEnd column gap rest below → b.indent ≤ column →
    (b.opened column .blockSequenceStart).Follows (itemTokens items) rest below outcome →
    b.Continues (text ++ (gap ++ rest)) column true outcome

/-- The layouts of the entries of a mapping, which may be further entries, are read as their
tokens. -/
def ReadsEntries (entries : List (String × Tree)) : Prop :=
  ∀ {column below : Nat} {text gap rest : List Char} {b : Blocks}
    {outcome : Except Error (List Token)},
    EntriesLayout column entries text → LineEnd column gap rest below → b.indent ≤ column →
    (b.opened column .blockMappingStart).Follows
      (entryTokens (decide (b.indent < column)) entries) rest below outcome →
    b.Continues (text ++ (gap ++ rest)) column true outcome

variable {b : Blocks} {outcome : Except Error (List Token)} {column inner below after : Nat}
  {gap text lineEnd next rest : List Char}

/-- An item of a sequence is read, and then what comes behind it. -/
theorem item_reads {item : Tree} {items : List Tree} (hgap : DashGap column inner gap)
    (hlayout : Layout inner item text) (hend : LineEnd column lineEnd next after)
    (hindent : b.indent ≤ column) (hreads : Reads item)
    (hfollows : (b.opened column .blockSequenceStart).Follows (itemTokens (item :: items)) rest
      below outcome)
    (hmore : ∀ d : Blocks, d.indent = column → d.Follows (itemTokens items) rest below outcome →
      d.Continues next after true outcome) :
    b.Continues ('-' :: (gap ++ text) ++ (lineEnd ++ next)) column true outcome := by
  let d := (b.opened column .blockSequenceStart).append [.blockEntry]
  have hd : d.indent = column := Blocks.indent_opened hindent .blockSequenceStart
  -- An item is to the right of its dash, so the block of the sequence stays open.
  have hright : d.indent < inner := by
    have := hgap.right
    omega
  have hitem : d.Follows (nodeTokens item) next after outcome := by
    rw [itemTokens] at hfollows
    exact hfollows.parts fun d' hd' => hmore d' (hd'.trans hd)
  have htext : '-' :: (gap ++ text) ++ (lineEnd ++ next) =
      '-' :: (gap ++ (text ++ (lineEnd ++ next))) := by simp
  rw [htext]
  refine .dash (startsGap_append hgap.starts _) hindent fun line index => ?_
  refine Blocks.Continues.gap hgap.between (hlayout.starts _) ?_ (fun _ h => by cases h)
  rw [hgap.leads, Bool.true_or]
  exact hreads hlayout (hd ▸ hend) hright (.inl rfl) hitem

/-- An entry of a mapping is read, and then what comes behind it. -/
theorem entry_reads {key : String} {value : Tree} {entries : List (String × Tree)}
    (hgap : ColonGap column inner value gap) (hlayout : Layout inner value text)
    (hend : LineEnd column lineEnd next after) (hindent : b.indent ≤ column)
    (hreads : Reads value)
    (hfollows : (b.opened column .blockMappingStart).Follows
      (entryTokens (decide (b.indent < column)) ((key, value) :: entries)) rest below outcome)
    (hmore : ∀ d : Blocks, d.indent = column → d.Follows (entryTokens false entries) rest below
      outcome → d.Continues next after true outcome) :
    b.Continues (scalarChars key ++ ':' :: (gap ++ text) ++ (lineEnd ++ next)) column true
      outcome := by
  have htext : scalarChars key ++ ':' :: (gap ++ text) ++ (lineEnd ++ next) =
      scalarChars key ++ ':' :: (gap ++ (text ++ (lineEnd ++ next))) := by simp
  rw [htext]
  refine .key (written_scalarChars key) (startsGap_append hgap.starts _) hindent ?_
  rw [entryTokens] at hfollows
  cases hkey : keyToken (decide (b.indent < column)) (scalarChars key) (scalarToken key) with
  | error e =>
    rw [hkey] at hfollows
    exact hfollows
  | ok token =>
    rw [hkey] at hfollows
    let d := (b.opened column .blockMappingStart).append [.key, token, .value]
    have hd : d.indent = column := Blocks.indent_opened hindent .blockMappingStart
    have hvalue : d.Follows (nodeTokens value) next after outcome :=
      Blocks.Follows.parts hfollows fun d' hd' => hmore d' (hd'.trans hd)
    intro line column' index hcolumn
    rcases hgap.leads with hline | ⟨rfl, hinline⟩
    · have hright : d.indent < inner := by
        have := hgap.right
        omega
      refine Blocks.Continues.gap hline.between (hlayout.starts _) ?_ (fun _ h => by cases h)
      rw [hline.column, hline.breaks, Bool.or_true]
      exact hreads hlayout (hd ▸ hend) hright (.inl rfl) hvalue
    · -- On the line of its key the value may stand at any column.
      have hright : d.indent < (column' + 1 : Nat) := by omega
      refine Blocks.Continues.gap (.space .nil) (hlayout.starts _) ?_ (fun _ h => by cases h)
      exact hreads (hlayout.inline hinline (column' + 1)) (hd ▸ hend) hright (.inr hinline) hvalue

theorem reads_scalar (text : String) : Reads (.scalar text) := by
  intro column below written gap rest b outcome allowed h hend hindent _ hnext
  cases h
  exact .value (written_scalarChars text) hend hindent hnext

theorem reads_sequence {items : List Tree} (hitems : ReadsItems items) :
    Reads (.sequence items) := by
  intro column below text gap rest b outcome allowed h hend hindent hallowed hnext
  cases h with
  | emptySequence =>
    show b.Continues ('[' :: ']' :: (gap ++ rest)) column allowed outcome
    exact .brackets (.inl ⟨rfl, rfl, rfl, rfl⟩) hend.gap hend.starts hindent hnext
  | sequence h =>
    obtain ⟨item, more, rfl⟩ : ∃ item more, items = item :: more := by
      cases h <;> exact ⟨_, _, rfl⟩
    obtain rfl : allowed = true := hallowed.resolve_right (by simp [inline?])
    have hlow : (below : Int) < column ∨ rest = [] :=
      hend.low.imp_left fun hlow => Int.lt_of_le_of_lt hlow hindent
    exact hitems h (hend.mono (Int.le_of_lt hindent)) (Int.le_of_lt hindent)
      (.opened hindent hend.starts hlow hnext)

theorem reads_mapping {entries : List (String × Tree)} (hentries : ReadsEntries entries) :
    Reads (.mapping entries) := by
  intro column below text gap rest b outcome allowed h hend hindent hallowed hnext
  cases h with
  | emptyMapping =>
    show b.Continues ('\x7b' :: '\x7d' :: (gap ++ rest)) column allowed outcome
    exact .brackets (.inr ⟨rfl, rfl, rfl, rfl⟩) hend.gap hend.starts hindent hnext
  | mapping h =>
    obtain ⟨entry, more, rfl⟩ : ∃ entry more, entries = entry :: more := by
      cases h <;> exact ⟨_, _, rfl⟩
    obtain rfl : allowed = true := hallowed.resolve_right (by simp [inline?])
    have hlow : (below : Int) < column ∨ rest = [] :=
      hend.low.imp_left fun hlow => Int.lt_of_le_of_lt hlow hindent
    have hfirst : decide (b.indent < column) = true := by simpa using hindent
    refine hentries h (hend.mono (Int.le_of_lt hindent)) (Int.le_of_lt hindent) ?_
    rw [hfirst]
    exact .opened hindent hend.starts hlow hnext

theorem readsItems_cons {item : Tree} {items : List Tree} (hitem : Reads item)
    (hitems : ReadsItems items) : ReadsItems (item :: items) := by
  intro column below text gap rest b outcome h hend hindent hnext
  cases h with
  | last hdash hlayout =>
    refine item_reads hdash hlayout hend hindent hitem hnext fun d _ hfollows => ?_
    simpa [Blocks.Follows, itemTokens] using hfollows
  | @more _ inner _ _ dash text next more hdash hlayout hline hlayouts =>
    have hmore : LineEnd column next (more ++ (gap ++ rest)) column :=
      ⟨hline, hlayouts.starts _, .inl (Int.le_refl _)⟩
    rw [List.append_assoc, List.append_assoc next]
    refine item_reads hdash hlayout hmore hindent hitem hnext fun d hd hfollows => ?_
    refine hitems hlayouts hend (Int.le_of_eq hd) ?_
    rw [Blocks.opened_of_le (Int.le_of_eq hd.symm)]
    exact hfollows

theorem readsEntries_cons {key : String} {value : Tree} {entries : List (String × Tree)}
    (hvalue : Reads value) (hentries : ReadsEntries entries) :
    ReadsEntries ((key, value) :: entries) := by
  intro column below text gap rest b outcome h hend hindent hnext
  cases h with
  | last hcolon hlayout =>
    refine entry_reads hcolon hlayout hend hindent hvalue hnext fun d _ hfollows => ?_
    simpa [Blocks.Follows, entryTokens] using hfollows
  | @more _ inner _ _ _ colon text next more hcolon hlayout hline hlayouts =>
    have hmore : LineEnd column next (more ++ (gap ++ rest)) column :=
      ⟨hline, hlayouts.starts _, .inl (Int.le_refl _)⟩
    rw [List.append_assoc, List.append_assoc next]
    refine entry_reads hcolon hlayout hmore hindent hvalue hnext fun d hd hfollows => ?_
    have hfirst : decide (d.indent < column) = false := by
      simpa using Int.le_of_eq hd.symm
    refine hentries hlayouts hend (Int.le_of_eq hd) ?_
    rw [Blocks.opened_of_le (Int.le_of_eq hd.symm), hfirst]
    exact hfollows

mutual
/-- **All layouts of a tree are read alike**: as the tokens of the tree. -/
theorem reads : (tree : Tree) → Reads tree
  | .scalar text => reads_scalar text
  | .sequence items => reads_sequence (reads_items items)
  | .mapping entries => reads_mapping (reads_entries entries)

theorem reads_items : (items : List Tree) → ReadsItems items
  | [] => fun h _ _ _ => nomatch h
  | item :: rest => readsItems_cons (reads item) (reads_items rest)

theorem reads_entries : (entries : List (String × Tree)) → ReadsEntries entries
  | [] => fun h _ _ _ => nomatch h
  | (_, value) :: rest => readsEntries_cons (reads value) (reads_entries rest)
end

/-- The whole text of a layout has the tokens of the tree. -/
theorem run_layout {tree : Tree} {lead text gap : List Char} (hlead : Between lead)
    (hcolumn : columnAfter 0 lead = 0) (hlayout : Layout 0 tree text) (hgap : LineGap gap 0)
    (hstart : (lead ++ (text ++ gap)).head? ≠ some byteOrderMark) {fuel : Nat}
    (hfuel : (lead ++ (text ++ gap)).length < fuel) :
    Lexer.run fuel (Lexer.start (lead ++ (text ++ gap))) = nodeTokens tree := by
  let b : Blocks := ⟨[], 0, -1, []⟩
  have hmark : (Cursor.start (lead ++ (text ++ gap))).at? byteOrderMark = false := by
    simpa [Cursor.at?, Cursor.start] using hstart
  have hlexer : Lexer.start (lead ++ (text ++ gap)) =
      b.lexer ⟨lead ++ (text ++ gap), 0, 0, 0⟩ none true := by
    rw [Lexer.start, hmark]
    rfl
  have hfollows : b.Follows (nodeTokens tree) [] 0 (nodeTokens tree) := by
    cases htokens : nodeTokens tree with
    | error e => rfl
    | ok tokens =>
      have hfinish : (b.append tokens).Continues [] 0 true (.ok (b.append tokens).done.reverse) :=
        .finish rfl
      simpa [b, Blocks.append, Blocks.Follows] using hfinish
  have hreads := reads tree hlayout ⟨hgap, rfl, .inr rfl⟩ (b := b) (by show (-1 : Int) < 0; omega)
    (.inl rfl) hfollows
  rw [List.append_nil] at hreads
  rw [hlexer]
  refine Blocks.Continues.gap hlead (hlayout.starts gap) ?_ (fun _ h => by cases h) fuel hfuel
  rw [hcolumn]
  exact hreads

end Tree

end ConfigTree
