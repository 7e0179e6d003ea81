import ConfigTree.Proofs.Yaml.Plain
import ConfigTree.Proofs.Yaml.Quoted
import ConfigTree.Yaml.Token.Lexer

/-! # Steps of the lexer

A text in block style is read token by token, and how the lexer goes on depends on little: the
tokens so far, the block collections that are open, the column, and whether a key may begin.
`Blocks.Continues` says that the lexer, at some place of a text, answers a given outcome with this
much known, whichever line the place is on.  A document is read backwards from its end
(`Continues.finish`): a gap, a token and the end of a block collection each lead from an outcome
behind it to one in front of it (`Continues.gap`, `Continues.token`, `Continues.close`).
-/
namespace ConfigTree.Yaml

/-- What stands between two tokens: spaces, line ends and comments. -/
inductive Between : List Char → Prop where
  | nil : Between []
  | space {rest : List Char} : Between rest → Between (' ' :: rest)
  | line {rest : List Char} : Between rest → Between ('\n' :: rest)
  | comment {text rest : List Char} : (∀ c ∈ text, isBreak c = false) → Between rest →
    Between ('#' :: (text ++ '\n' :: rest))

/-- Does a text begin with a token, if it goes on at all? -/
def startsToken : List Char → Bool
  | [] => true
  | c :: _ => !isGap c && c != '#'

/-- A gap that ends a line and leads to a column of a later one. -/
structure LineGap (gap : List Char) (below : Nat) : Prop where
  between : Between gap
  starts : gap.head?.any isGap = true
  breaks : gap.any isBreak = true
  column : ∀ column, columnAfter column gap = below

/-- What comes behind a node: the end of its line, and a token that stands no further to the right
than `indent`, or nothing. -/
structure LineEnd (indent : Int) (gap rest : List Char) (below : Nat) : Prop where
  gap : LineGap gap below
  starts : startsToken rest = true
  low : (below : Int) ≤ indent ∨ rest = []

theorem LineEnd.mono {indent indent' : Int} {gap rest : List Char} {below : Nat}
    (h : LineEnd indent gap rest below) (hle : indent ≤ indent') :
    LineEnd indent' gap rest below :=
  ⟨h.gap, h.starts, h.low.imp_left fun hlow => Int.le_trans hlow hle⟩

theorem LineGap.countP_pos {gap : List Char} {below : Nat} (h : LineGap gap below) :
    0 < gap.countP isBreak := by
  rw [List.countP_pos_iff]
  exact List.any_eq_true.mp h.breaks

theorem startsGap_append {gap : List Char} (h : gap.head?.any isGap = true) (rest : List Char) :
    startsGap (gap ++ rest) = true := by
  cases gap with
  | nil => cases h
  | cons c more =>
    show isGap c = true
    simpa using h

theorem LineGap.head?_ne {gap rest : List Char} {below : Nat} (h : LineGap gap below) {c : Char}
    (hc : isGap c = false) : (gap ++ rest).head? ≠ some c := by
  intro hhead
  obtain ⟨more, hmore⟩ := List.head?_eq_some_iff.mp hhead
  have hstart := startsGap_append h.starts rest
  rw [hmore, startsGap, hc] at hstart
  cases hstart

namespace Between

theorem append {a b : List Char} (ha : Between a) (hb : Between b) : Between (a ++ b) := by
  induction ha with
  | nil => exact hb
  | space _ ih => exact .space ih
  | line _ ih => exact .line ih
  | comment htext _ ih =>
    rw [List.cons_append, List.append_assoc, List.cons_append]
    exact .comment htext ih

theorem spaces (n : Nat) : Between (List.replicate n ' ') := by
  induction n with
  | zero => exact .nil
  | succ n ih => exact .space ih

theorem leadingGap_start {rest : List Char} (h : startsToken rest = true) :
    leadingGap rest = [] := by
  cases rest with
  | nil => rfl
  | cons c more =>
    simp only [startsToken, Bool.and_eq_true, Bool.not_eq_true'] at h
    simp [leadingGap, h.1]

/-- A gap begins with spaces and line ends, up to its first comment. -/
theorem split {gap rest : List Char} (h : Between gap) (hrest : startsToken rest = true) :
    ∃ more, gap = leadingGap (gap ++ rest) ++ more ∧ Between more ∧
      '\t' ∉ leadingGap (gap ++ rest) ∧ (more = [] ∨ more.head? = some '#') := by
  induction h with
  | nil =>
    rw [List.nil_append, leadingGap_start hrest]
    exact ⟨[], rfl, .nil, by simp, .inl rfl⟩
  | space _ ih =>
    obtain ⟨more, hsplit, hmore, htab, hend⟩ := ih
    exact ⟨more, congrArg (' ' :: ·) hsplit, hmore,
      by simpa [leadingGap, isGap, isBlank] using htab, hend⟩
  | line _ ih =>
    obtain ⟨more, hsplit, hmore, htab, hend⟩ := ih
    exact ⟨more, congrArg ('\n' :: ·) hsplit, hmore,
      by simpa [leadingGap, isGap, isBlank, isBreak] using htab, hend⟩
  | @comment text more htext hmore _ =>
    exact ⟨_, rfl, .comment htext hmore, by simp [leadingGap, isGap, isBlank, isBreak], .inr rfl⟩

end Between

namespace Lexer

theorem gapLength_comment {text : List Char} (htext : ∀ c ∈ text, isBreak c = false)
    (allowed : Bool) (rest : List Char) :
    gapLength false allowed true (text ++ '\n' :: rest) =
      ((gapLength false true false rest).1 + (text.length + 1),
        (gapLength false true false rest).2) := by
  induction text with
  | nil => simp [gapLength, isBreak]
  | cons c more ih =>
    obtain ⟨hc, hmore⟩ := List.forall_mem_cons.mp htext
    simp only [List.cons_append, gapLength, hc, ih hmore, Bool.false_eq_true, if_false, if_true,
      List.length_cons, Prod.mk.injEq, and_true]
    omega

/-- What lies between two tokens is passed over, and behind a line end a key may begin. -/
theorem gapLength_between {gap rest : List Char} (hgap : Between gap)
    (hrest : startsToken rest = true) (allowed : Bool) :
    gapLength false allowed false (gap ++ rest) = (gap.length, allowed || gap.any isBreak) := by
  induction hgap generalizing allowed with
  | nil =>
    cases rest with
    | nil => simp [gapLength]
    | cons c more =>
      simp only [startsToken, isGap, isBlank, Bool.and_eq_true, Bool.not_eq_true',
        Bool.or_eq_false_iff, bne_iff_ne, ne_eq] at hrest
      obtain ⟨⟨⟨hspace, htab⟩, hbreak⟩, hcomment⟩ := hrest
      simp [gapLength, hspace, htab, hbreak, hcomment]
  | space _ ih => simp [gapLength, isBreak, ih]
  | line _ ih => simp [gapLength, isBreak, ih]
  | @comment text more htext _ ih =>
    rw [List.cons_append, List.append_assoc, List.cons_append, gapLength]
    simp [gapLength_comment htext, ih, isBreak]
    omega

/-! ### Runs -/

/-- With fuel for the rest of its text, the lexer answers `outcome`. -/
def Yields (l : Lexer) (outcome : Except Error (List Token)) : Prop :=
  ∀ fuel, l.cursor.rest.length < fuel → run fuel l = outcome

/-- Reads the token at the cursor. -/
def tokenHere (l : Lexer) (c : Char) (rest : List Char) : Except Error Lexer :=
  if l.cursor.column == 0 && c == '%' then do
    let (token, after) ← scanDirective l.cursor
    l.structural token after
  else if l.cursor.atMark '-' then l.structural .documentStart (l.cursor.advance 3)
  else if l.cursor.atMark '.' then l.structural .documentEnd (l.cursor.advance 3)
  else l.token c rest

/-- Goes on at the start of a token, the block collections to the right of it being ended. -/
def proceed (fuel : Nat) (l : Lexer) : Except Error (List Token) :=
  match l.cursor.rest with
  | [] => do
    let l ← (l.closeBlocks (-1)).dropKey
    return l.done.reverse
  | c :: rest => do
    let l ← l.tokenHere c rest
    run fuel l

theorem run_succ (fuel : Nat) (l : Lexer) :
    run (fuel + 1) l =
      l.skipGap.dropStaleKeys >>= fun l => proceed fuel (l.closeBlocks l.cursor.column) := by
  rw [run]
  rfl

theorem proceed_cons {l : Lexer} {c : Char} {rest : List Char} (h : l.cursor.rest = c :: rest)
    (fuel : Nat) : proceed fuel l = l.tokenHere c rest >>= run fuel := by
  unfold proceed
  rw [h]

theorem proceed_nil {l : Lexer} (h : l.cursor.rest = []) (fuel : Nat) :
    proceed fuel l = (l.closeBlocks (-1)).dropKey.map fun l => l.done.reverse := by
  unfold proceed
  rw [h]
  cases (l.closeBlocks (-1)).dropKey <;> rfl

theorem Yields.of_skipGap {l m : Lexer} {outcome : Except Error (List Token)}
    (hgap : l.skipGap.dropStaleKeys = m.skipGap.dropStaleKeys)
    (hlength : m.cursor.rest.length ≤ l.cursor.rest.length) (h : Yields m outcome) :
    Yields l outcome := by
  intro fuel hfuel
  have hm := h fuel (by omega)
  obtain _ | fuel := fuel
  · exact absurd hfuel (Nat.not_lt_zero _)
  rw [run_succ, hgap, ← run_succ, hm]

end Lexer

/-! ### Block collections -/

/-- What the lexer keeps from token to token while no flow collection is open. -/
structure Blocks where
  done : List Token
  count : Nat
  indent : Int
  outer : List Int

namespace Blocks

/-- The lexer at a place of the text. -/
def lexer (b : Blocks) (cursor : Cursor) (pending : Option PendingKey) (allowed : Bool) : Lexer :=
  ⟨cursor, b.done, b.count, b.indent, b.outer, pending, [], allowed⟩

/-- After some more tokens. -/
def append (b : Blocks) (tokens : List Token) : Blocks :=
  { b with done := tokens.reverse ++ b.done, count := b.count + tokens.length }

/-- In a block collection at the column, which is begun unless there is one. -/
def opened (b : Blocks) (column : Nat) (token : Token) : Blocks :=
  if (column : Int) ≤ b.indent then b
  else ⟨token :: b.done, b.count + 1, column, b.indent :: b.outer⟩

/-- After the end of the innermost block collection. -/
def closed (b : Blocks) : Blocks :=
  match b.outer with
  | [] => b
  | indent :: outer => ⟨.blockEnd :: b.done, b.count + 1, indent, outer⟩

/-- The lexer answers `outcome` from here on, whichever line this is. -/
def Continues (b : Blocks) (rest : List Char) (column : Nat) (allowed : Bool)
    (outcome : Except Error (List Token)) : Prop :=
  ∀ line index, (b.lexer ⟨rest, line, column, index⟩ none allowed).Yields outcome

/-- The lexer goes on behind the tokens that have been read, or has failed as they have. -/
def Follows (b : Blocks) (read : Except Error (List Token)) (rest : List Char) (column : Nat)
    (outcome : Except Error (List Token)) : Prop :=
  match read with
  | .ok tokens => (b.append tokens).Continues rest column true outcome
  | .error e => outcome = .error e

variable {b : Blocks} {outcome : Except Error (List Token)}

@[simp] theorem append_nil : b.append [] = b := by simp [append]

theorem append_append (tokens more : List Token) :
    (b.append tokens).append more = b.append (tokens ++ more) := by
  simp [append, Nat.add_assoc]

/-- Tokens that come from two parts of the text: the first part is read, and then the second. -/
theorem Follows.parts {front : List Token} {first second : Except Error (List Token)}
    {next rest : List Char} {column below : Nat}
    (h : b.Follows (first >>= fun tokens => second >>= fun more => pure (front ++ (tokens ++ more)))
      rest below outcome)
    (hnext : ∀ d : Blocks, d.indent = b.indent → d.Follows second rest below outcome →
      d.Continues next column true outcome) :
    (b.append front).Follows first next column outcome := by
  cases first with
  | error e => exact h
  | ok tokens =>
    refine hnext ((b.append front).append tokens) rfl ?_
    cases second with
    | error e => exact h
    | ok more =>
      show (((b.append front).append tokens).append more).Continues rest below true outcome
      rw [append_append, append_append]
      exact h

theorem opened_of_le {column : Nat} (h : (column : Int) ≤ b.indent) (token : Token) :
    b.opened column token = b := by
  rw [opened, if_pos h]

theorem opened_of_lt {column : Nat} (h : b.indent < column) (token : Token) :
    b.opened column token = ⟨token :: b.done, b.count + 1, column, b.indent :: b.outer⟩ := by
  rw [opened, if_neg (by omega)]

theorem indent_opened {column : Nat} (h : b.indent ≤ column) (token : Token) :
    (b.opened column token).indent = column := by
  by_cases hlt : b.indent < column
  · rw [opened_of_lt hlt]
  · rw [opened_of_le (by omega)]
    omega

/-- Ending the collection that has been begun leads back to the one around it. -/
theorem closed_opened {column : Nat} (h : b.indent < column) (token : Token)
    (tokens : List Token) :
    ((b.opened column token).append tokens).closed =
      b.append (token :: (tokens ++ [.blockEnd])) := by
  rw [opened_of_lt h]
  simp only [append, closed, List.reverse_cons, List.reverse_append, List.length_cons,
    List.length_append, List.length_nil, List.reverse_nil, List.nil_append, List.append_assoc,
    List.cons_append, Blocks.mk.injEq, true_and, and_true]
  omega

theorem skipGap_between {gap rest : List Char} (hgap : Between gap)
    (hrest : startsToken rest = true) (pending : Option PendingKey) (allowed : Bool)
    (line column index : Nat) :
    (b.lexer ⟨gap ++ rest, line, column, index⟩ pending allowed).skipGap =
      b.lexer ⟨rest, line + gap.countP isBreak, columnAfter column gap, index + gap.length⟩ pending
        (allowed || gap.any isBreak) := by
  simp only [lexer, Lexer.skipGap, Lexer.inFlow, List.isEmpty_nil, Bool.not_true,
    Lexer.gapLength_between hgap hrest, Cursor.advance_append]

theorem skipGap_start {rest : List Char} (hrest : startsToken rest = true)
    (pending : Option PendingKey) (allowed : Bool) (line column index : Nat) :
    (b.lexer ⟨rest, line, column, index⟩ pending allowed).skipGap =
      b.lexer ⟨rest, line, column, index⟩ pending allowed := by
  have h := skipGap_between (b := b) .nil hrest pending allowed line column index
  simpa [columnAfter] using h

theorem dropStaleKeys_eq (cursor : Cursor) (pending : Option PendingKey) (allowed : Bool) :
    (b.lexer cursor pending allowed).dropStaleKeys =
      (Lexer.dropStale cursor pending).map fun pending => b.lexer cursor pending allowed := by
  simp only [lexer, Lexer.dropStaleKeys]
  cases Lexer.dropStale cursor pending <;> rfl

theorem dropStaleKeys_none (cursor : Cursor) (allowed : Bool) :
    (b.lexer cursor none allowed).dropStaleKeys = .ok (b.lexer cursor none allowed) := rfl

/-- Behind a gap the lexer goes on at the next token.  A pending key does not survive a line end. -/
theorem Continues.gap {gap rest : List Char} {column : Nat} {allowed : Bool}
    (hgap : Between gap) (hrest : startsToken rest = true)
    (h : b.Continues rest (columnAfter column gap) (allowed || gap.any isBreak) outcome)
    {pending : Option PendingKey} {line index : Nat}
    (hpending : ∀ key ∈ pending,
      key.required = false ∧ key.start.line < line + gap.countP isBreak) :
    (b.lexer ⟨gap ++ rest, line, column, index⟩ pending allowed).Yields outcome := by
  refine Lexer.Yields.of_skipGap ?_ ?_ (h (line + gap.countP isBreak) (index + gap.length))
  · rw [skipGap_between hgap hrest, skipGap_start hrest, dropStaleKeys_none]
    cases pending with
    | none => rfl
    | some key =>
      obtain ⟨hrequired, hstale⟩ := hpending key rfl
      simp [dropStaleKeys_eq, Lexer.dropStale, hstale, hrequired, Except.map]
  · simp only [lexer, List.length_append]
    omega

theorem closeBlocks_of_le {column : Nat} (h : b.indent ≤ column) (cursor : Cursor)
    (pending : Option PendingKey) (allowed : Bool) :
    (b.lexer cursor pending allowed).closeBlocks column = b.lexer cursor pending allowed := by
  have hclosed : Lexer.closedBy column b.indent b.outer = (0, b.indent, b.outer) := by
    cases b.outer with
    | nil => rfl
    | cons => rw [Lexer.closedBy, if_neg (by omega)]
  simp [Lexer.closeBlocks, lexer, Lexer.inFlow, hclosed]

/-- At a token that stands in the innermost block collection the lexer reads it. -/
theorem run_token {c : Char} {rest : List Char} {line column index : Nat}
    {pending pending' : Option PendingKey} {allowed : Bool}
    (hstart : startsToken (c :: rest) = true) (hindent : b.indent ≤ column)
    (hmark : startsMark (c :: rest) = false) (hdirective : c ≠ '%')
    (hkey : Lexer.dropStale ⟨c :: rest, line, column, index⟩ pending = .ok pending') (fuel : Nat) :
    Lexer.run (fuel + 1) (b.lexer ⟨c :: rest, line, column, index⟩ pending allowed) =
      ((b.lexer ⟨c :: rest, line, column, index⟩ pending' allowed).token c rest >>=
        Lexer.run fuel) := by
  have hdrop : (b.lexer ⟨c :: rest, line, column, index⟩ pending allowed).dropStaleKeys =
      .ok (b.lexer ⟨c :: rest, line, column, index⟩ pending' allowed) := by
    rw [dropStaleKeys_eq, hkey]
    rfl
  -- What is no document mark at the start of a line is none at any column.
  have hdash : Cursor.atMark ⟨c :: rest, line, column, index⟩ '-' = false := by
    simp only [startsMark, Bool.and_or_distrib_right, Bool.or_eq_false_iff] at hmark
    simp only [Cursor.atMark, Bool.and_assoc, hmark.1, Bool.and_false]
  have hdot : Cursor.atMark ⟨c :: rest, line, column, index⟩ '.' = false := by
    simp only [startsMark, Bool.and_or_distrib_right, Bool.or_eq_false_iff] at hmark
    simp only [Cursor.atMark, Bool.and_assoc, hmark.2, Bool.and_false]
  have hhere : (b.lexer ⟨c :: rest, line, column, index⟩ pending' allowed).tokenHere c rest =
      (b.lexer ⟨c :: rest, line, column, index⟩ pending' allowed).token c rest := by
    simp [Lexer.tokenHere, lexer, hdash, hdot, hdirective]
  rw [Lexer.run_succ, skipGap_start hstart, hdrop]
  show Lexer.proceed fuel
    ((b.lexer ⟨c :: rest, line, column, index⟩ pending' allowed).closeBlocks column) = _
  rw [closeBlocks_of_le hindent, Lexer.proceed_cons rfl, hhere]

/-- A token with which the lexer goes on. -/
theorem Continues.token {c : Char} {rest : List Char} {column : Nat} {allowed : Bool}
    (hstart : startsToken (c :: rest) = true) (hindent : b.indent ≤ column)
    (hmark : startsMark (c :: rest) = false) (hdirective : c ≠ '%')
    (h : ∀ line index, ∃ next,
      (b.lexer ⟨c :: rest, line, column, index⟩ none allowed).token c rest = .ok next ∧
      next.cursor.rest.length ≤ rest.length ∧ next.Yields outcome) :
    b.Continues (c :: rest) column allowed outcome := by
  intro line index fuel hfuel
  obtain ⟨next, htoken, hlength, hnext⟩ := h line index
  obtain _ | fuel := fuel
  · exact absurd hfuel (Nat.not_lt_zero _)
  have hfuel : rest.length < fuel := by simpa [lexer] using hfuel
  rw [run_token hstart hindent hmark hdirective rfl, htoken]
  exact hnext fuel (by omega)

/-- A token that cannot be read. -/
theorem Continues.failure {c : Char} {rest : List Char} {column : Nat} {allowed : Bool} {e : Error}
    (hstart : startsToken (c :: rest) = true) (hindent : b.indent ≤ column)
    (hmark : startsMark (c :: rest) = false) (hdirective : c ≠ '%')
    (h : ∀ line index,
      (b.lexer ⟨c :: rest, line, column, index⟩ none allowed).token c rest = .error e) :
    b.Continues (c :: rest) column allowed (.error e) := by
  intro line index fuel hfuel
  obtain _ | fuel := fuel
  · exact absurd hfuel (Nat.not_lt_zero _)
  rw [run_token hstart hindent hmark hdirective rfl, h]
  rfl

/-! ### The ends of collections -/

theorem closedBy_closedBy {column : Int} (hcolumn : -1 ≤ column) (indent : Int) (outer : List Int) :
    let first := Lexer.closedBy column indent outer
    let second := Lexer.closedBy (-1) first.2.1 first.2.2
    Lexer.closedBy (-1) indent outer = (first.1 + second.1, second.2) := by
  induction outer generalizing indent with
  | nil => simp [Lexer.closedBy]
  | cons o rest ih =>
    by_cases h : column < indent
    · have h' : -1 < indent := by omega
      simp only [Lexer.closedBy, h, h', if_true, ih]
      simp only [Prod.mk.injEq, and_true]
      omega
    · simp [Lexer.closedBy, h]

theorem closeBlocks_closed {column : Int} (h : column < b.indent) (hne : b.outer ≠ [])
    (cursor : Cursor) (pending : Option PendingKey) (allowed : Bool) :
    (b.lexer cursor pending allowed).closeBlocks column =
      (b.closed.lexer cursor pending allowed).closeBlocks column := by
  obtain ⟨done, count, indent, outer⟩ := b
  obtain _ | ⟨o, rest⟩ := outer
  · exact absurd rfl hne
  simp only [lexer, closed, Lexer.closeBlocks, Lexer.inFlow, Lexer.closedBy]
  simp only [h, List.isEmpty_nil, Bool.not_true, Bool.false_eq_true, if_false, if_true]
  simp only [List.replicate_succ', List.append_assoc, List.singleton_append, Lexer.mk.injEq,
    true_and, and_true]
  omega

theorem closeBlocks_closeBlocks {column : Int} (h : -1 ≤ column) (cursor : Cursor)
    (pending : Option PendingKey) (allowed : Bool) :
    ((b.lexer cursor pending allowed).closeBlocks column).closeBlocks (-1) =
      (b.lexer cursor pending allowed).closeBlocks (-1) := by
  have hclosed := closedBy_closedBy h b.indent b.outer
  simp only [lexer, Lexer.closeBlocks, Lexer.inFlow, List.isEmpty_nil, Bool.not_true,
    Bool.false_eq_true, if_false, hclosed, Lexer.mk.injEq, true_and, and_true]
  refine ⟨?_, Nat.add_assoc _ _ _⟩
  rw [← List.append_assoc, List.replicate_append_replicate, Nat.add_comm]

/-- A token to the left of the innermost block collection, or the end of the text, ends it. -/
theorem Continues.close {rest : List Char} {column : Nat} {allowed : Bool} (hne : b.outer ≠ [])
    (hstart : startsToken rest = true)
    (hends : (column : Int) < b.indent ∨ rest = [] ∧ -1 < b.indent)
    (h : b.closed.Continues rest column allowed outcome) :
    b.Continues rest column allowed outcome := by
  intro line index fuel hfuel
  have hclosed := h line index fuel hfuel
  obtain _ | fuel := fuel
  · exact absurd hfuel (Nat.not_lt_zero _)
  rw [Lexer.run_succ, skipGap_start hstart, dropStaleKeys_none] at hclosed ⊢
  rw [← hclosed]
  let here : Cursor := ⟨rest, line, column, index⟩
  show Lexer.proceed fuel ((b.lexer here none allowed).closeBlocks column) =
    Lexer.proceed fuel ((b.closed.lexer here none allowed).closeBlocks column)
  rcases hends with hlow | ⟨rfl, hopen⟩
  · rw [closeBlocks_closed hlow hne]
  · have hcolumn : (-1 : Int) ≤ column := by omega
    rw [Lexer.proceed_nil rfl, Lexer.proceed_nil rfl, closeBlocks_closeBlocks hcolumn,
      closeBlocks_closeBlocks hcolumn, closeBlocks_closed hopen hne]

/-- The tokens of a block collection, when it has been begun. -/
theorem Follows.opened {column below : Nat} {token : Token} {read : Except Error (List Token)}
    {rest : List Char} (hindent : b.indent < column) (hstart : startsToken rest = true)
    (hends : (below : Int) < column ∨ rest = [])
    (h : b.Follows (read.map fun tokens => token :: (tokens ++ [.blockEnd])) rest below outcome) :
    (b.opened column token).Follows read rest below outcome := by
  cases read with
  | error e => exact h
  | ok tokens =>
    have hclosed := closed_opened hindent token tokens
    rw [opened_of_lt hindent] at hclosed ⊢
    refine Continues.close (List.cons_ne_nil _ _) hstart ?_ ?_
    · rcases hends with hlow | hrest
      · exact .inl hlow
      · exact .inr ⟨hrest, by show (-1 : Int) < (column : Int); omega⟩
    · rw [hclosed]
      exact h

/-- At the end of the text, outside all collections, the tokens are complete. -/
theorem Continues.finish {column : Nat} {allowed : Bool} (houter : b.outer = []) :
    b.Continues [] column allowed (.ok b.done.reverse) := by
  intro line index fuel hfuel
  obtain _ | fuel := fuel
  · exact absurd hfuel (Nat.not_lt_zero _)
  rw [Lexer.run_succ, skipGap_start rfl, dropStaleKeys_none]
  let here : Cursor := ⟨[], line, column, index⟩
  show Lexer.proceed fuel ((b.lexer here none allowed).closeBlocks column) = _
  have hcolumn : (-1 : Int) ≤ column := by omega
  have hclosed : Lexer.closedBy (-1) b.indent [] = (0, b.indent, []) := rfl
  rw [Lexer.proceed_nil rfl, closeBlocks_closeBlocks hcolumn]
  simp [lexer, Lexer.closeBlocks, Lexer.inFlow, Lexer.dropKey, houter, hclosed, Except.map]

end Blocks

end ConfigTree.Yaml
