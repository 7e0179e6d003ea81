import ConfigTree.Proofs.Yaml.Written

/-! # Entries of block collections

What the lexer does at the start of an entry: at a scalar with a colon behind it, which is a key if
it is on one line and not too long (`Continues.key`, `fitsKey`), and at a dash (`Continues.dash`).
Empty collections are written between brackets (`Continues.brackets`).
-/
namespace ConfigTree.Yaml

/-- Does the text of a scalar stay on its line, and is it short enough for a key? -/
def fitsKey (written : List Char) : Bool :=
  !written.any isBreak && decide (written.length ≤ 1024)

theorem fitsKey_iff {written : List Char} :
    fitsKey written = true ↔ (∀ x ∈ written, isBreak x = false) ∧ written.length ≤ 1024 := by
  simp [fitsKey]

/-- A scalar that does not fit ends on a later line than it began, or too far away. -/
theorem stale_of_not_fitsKey {written : List Char} (h : fitsKey written = false)
    (line index : Nat) :
    line < line + written.countP isBreak ∨ index + 1024 < index + written.length := by
  simp only [fitsKey, Bool.and_eq_false_iff, Bool.not_eq_false', decide_eq_false_iff_not,
    Nat.not_le] at h
  rcases h with hline | hlength
  · have hcount : 0 < written.countP isBreak := by
      rw [List.countP_pos_iff]
      exact List.any_eq_true.mp hline
    exact .inl (Nat.lt_add_of_pos_right hcount)
  · exact .inr (Nat.add_lt_add_left hlength index)

/-- The token of a scalar before a colon.  Where a key has to stand, as one stands at each further
entry of a mapping, it is missed; before the first entry the colon comes unexpected. -/
def keyToken (first : Bool) (written : List Char) (read : Except Error Token) :
    Except Error Token := do
  let token ← read
  if fitsKey written then return token
  else throw (if first then .entryNotAllowed else .keyWithoutValue)

namespace Blocks

variable {b : Blocks} {outcome : Except Error (List Token)} {written : List Char}
  {read : Except Error Token}

/-! ### Keys -/

theorem plainEnds_colon {rest : List Char} (hrest : startsGap rest = true) (indent : Int)
    (line column index : Nat) : PlainEnds indent ⟨':' :: rest, line, column, index⟩ := by
  have hlead : leadingGap (':' :: rest) = [] := by simp [leadingGap, isGap, isBlank, isBreak]
  refine ⟨by simp [plainChunk, isGap, isBlank, isBreak, hrest], ?_, fun hne => absurd hlead hne⟩
  rw [hlead]
  simp

/-- The colon behind a scalar that may be a key makes it one. -/
theorem valueIndicator_key (token : Token) (cursor start : Cursor) (required : Bool) :
    ((b.append [token]).lexer cursor (some ⟨b.count, required, start⟩) false).valueIndicator =
      .ok (((b.opened start.column .blockMappingStart).append [.key, token, .value]).lexer
        cursor.next none false) := by
  have hlater : b.count + [token].length - b.count = 1 := by
    rw [List.length_singleton]
    omega
  -- The first key at a column begins a mapping; its tokens go in front of the one of the scalar.
  by_cases hopen : (start.column : Int) ≤ b.indent
  · simp [Lexer.valueIndicator, lexer, append, opened, Lexer.openBlock, Lexer.insertToken,
      Lexer.push, Lexer.inFlow, hopen]
  · have hlater' : b.count + 1 + 1 - b.count = 2 := by omega
    simp [Lexer.valueIndicator, lexer, append, opened, Lexer.openBlock, Lexer.insertToken,
      Lexer.push, Lexer.inFlow, hopen, hlater']

/-- Without such a scalar the colon is an error. -/
theorem yields_colon {rest : List Char} (hrest : startsGap rest = true) (line column index : Nat) :
    (b.lexer ⟨':' :: rest, line, column, index⟩ none false).Yields (.error .entryNotAllowed) := by
  intro fuel hfuel
  obtain _ | fuel := fuel
  · exact absurd hfuel (Nat.not_lt_zero _)
  rw [Lexer.run_succ, skipGap_start rfl, dropStaleKeys_none]
  let here : Cursor := ⟨':' :: rest, line, column, index⟩
  show Lexer.proceed fuel ((b.lexer here none false).closeBlocks column) = _
  obtain ⟨d, hd⟩ : ∃ d : Blocks, (b.lexer here none false).closeBlocks column =
      d.lexer here none false := ⟨⟨_, _, _, _⟩, rfl⟩
  have hhere : (d.lexer here none false).tokenHere ':' rest = .error .entryNotAllowed := by
    simp [Lexer.tokenHere, lexer, here, Cursor.atMark, List.isPrefixOf, Lexer.token, hrest,
      Lexer.valueIndicator, Lexer.inFlow]
  rw [hd, Lexer.proceed_cons rfl, hhere]
  rfl

/-- The colon behind a scalar on its line that is short enough. -/
theorem yields_key {token : Token} {rest : List Char} {start : Cursor} {required : Bool}
    {column index : Nat} (hrest : startsGap rest = true) (hshort : index ≤ start.index + 1024)
    (hindent : b.indent ≤ column)
    (hnext : (((b.opened start.column .blockMappingStart).append [.key, token, .value]).lexer
      ⟨rest, start.line, column + 1, index + 1⟩ none false).Yields outcome) :
    ((b.append [token]).lexer ⟨':' :: rest, start.line, column, index⟩
      (some ⟨b.count, required, start⟩) false).Yields outcome := by
  intro fuel hfuel
  obtain _ | fuel := fuel
  · exact absurd hfuel (Nat.not_lt_zero _)
  have hkeep : Lexer.dropStale ⟨':' :: rest, start.line, column, index⟩
      (some ⟨b.count, required, start⟩) = .ok (some ⟨b.count, required, start⟩) := by
    simp [Lexer.dropStale, Nat.not_lt.mpr hshort]
  have hindent' : (b.append [token]).indent ≤ column := hindent
  have hfuel : rest.length < fuel := by simpa [lexer] using hfuel
  have hcolon : ((b.append [token]).lexer ⟨':' :: rest, start.line, column, index⟩
      (some ⟨b.count, required, start⟩) false).token ':' rest =
      .ok (((b.opened start.column .blockMappingStart).append [.key, token, .value]).lexer
        ⟨rest, start.line, column + 1, index + 1⟩ none false) := by
    have hindicator := valueIndicator_key (b := b) token
      ⟨':' :: rest, start.line, column, index⟩ start required
    rw [Cursor.next_of_no_break (by decide)] at hindicator
    rw [← hindicator]
    simp [Lexer.token, hrest]
  rw [run_token rfl hindent' rfl (by decide) hkeep, hcolon]
  exact hnext fuel hfuel

/-- The colon behind a scalar that is too long or goes over several lines. -/
theorem yields_staleKey {token : Token} {rest : List Char} {start : Cursor} {required : Bool}
    {line column index : Nat} (hrest : startsGap rest = true)
    (hstale : start.line < line ∨ start.index + 1024 < index) :
    ((b.append [token]).lexer ⟨':' :: rest, line, column, index⟩
      (some ⟨b.count, required, start⟩) false).Yields
        (.error (if required then .keyWithoutValue else .entryNotAllowed)) := by
  have hdrop : Lexer.dropStale ⟨':' :: rest, line, column, index⟩
      (some ⟨b.count, required, start⟩) =
        if required then .error .keyWithoutValue else .ok none := by
    simp [Lexer.dropStale, hstale]
  cases required with
  | false =>
    have hyields := yields_colon (b := b.append [token]) hrest line column index
    simp only [Bool.false_eq_true, if_false] at hdrop ⊢
    refine Lexer.Yields.of_skipGap ?_ ?_ hyields
    · rw [skipGap_start rfl, skipGap_start rfl, dropStaleKeys_eq, hdrop]
      rfl
    · exact Nat.le_refl _
  | true =>
    intro fuel hfuel
    obtain _ | fuel := fuel
    · exact absurd hfuel (Nat.not_lt_zero _)
    rw [Lexer.run_succ, skipGap_start rfl, dropStaleKeys_eq, hdrop]
    rfl

/-- A scalar before a colon is read up to the colon. -/
theorem token_beforeColon {c : Char} {more rest : List Char} (h : Written (c :: more) read)
    {column : Nat} (hrest : startsGap rest = true) (hindent : b.indent ≤ column)
    (hmark : startsMark (c :: more ++ ':' :: rest) = false) (line index : Nat) :
    (b.lexer ⟨c :: more ++ ':' :: rest, line, column, index⟩ none true).token c
        (more ++ ':' :: rest) =
      read.map fun token => (b.append [token]).lexer
        ⟨':' :: rest, line + (c :: more).countP isBreak, columnAfter column (c :: more),
          index + (c :: more).length⟩
        (b.keyAt ⟨c :: more ++ ':' :: rest, line, column, index⟩ true) false := by
  have hends := plainEnds_colon hrest (b.indent + 1) (line + (c :: more).countP isBreak)
    (columnAfter column (c :: more)) (index + (c :: more).length)
  rw [← Cursor.advance_append] at hends
  obtain ⟨d, ds, lead, heq, hlead, htoken⟩ := token_written true h hindent (by simp) hmark hends
  obtain ⟨rfl, rfl⟩ := List.cons.inj heq
  have hlead : lead = [] := by
    rcases hlead with rfl | rfl
    · rfl
    · simp [leadingGap, isGap, isBlank, isBreak]
  subst hlead
  rw [← Cursor.advance_append]
  exact htoken

/-- The colon behind a scalar, which is a key if it fits. -/
theorem yields_beforeColon {token : Token} {rest : List Char} {column : Nat}
    (hrest : startsGap rest = true) (hindent : b.indent ≤ column)
    (hkey : fitsKey written = true → ∀ line column' index, column < column' →
      (((b.opened column .blockMappingStart).append [.key, token, .value]).lexer
        ⟨rest, line, column', index⟩ none false).Yields outcome)
    (hnone : fitsKey written = false →
      outcome = .error (if b.indent < column then .entryNotAllowed else .keyWithoutValue))
    (line index : Nat) :
    ((b.append [token]).lexer ⟨':' :: rest, line + written.countP isBreak,
        columnAfter column written, index + written.length⟩
      (b.keyAt ⟨written ++ ':' :: rest, line, column, index⟩ true) false).Yields outcome := by
  let start : Cursor := ⟨written ++ ':' :: rest, line, column, index⟩
  let key : PendingKey := ⟨b.count, b.indent == column, start⟩
  let here : Cursor := ⟨':' :: rest, line + written.countP isBreak, columnAfter column written,
    index + written.length⟩
  show ((b.append [token]).lexer here (some key) false).Yields outcome
  cases hfits : fitsKey written with
  | true =>
    obtain ⟨hbreak, hshort⟩ := fitsKey_iff.mp hfits
    have hhere : here = ⟨':' :: rest, line, column + written.length, index + written.length⟩ := by
      have hafter := Cursor.advance_append written (':' :: rest) line column index
      rw [Cursor.advance_of_no_break hbreak] at hafter
      exact hafter.symm
    have hyields : ((b.append [token]).lexer ⟨':' :: rest, start.line, column + written.length,
        index + written.length⟩ (some key) false).Yields outcome :=
      yields_key hrest (Nat.add_le_add_left hshort index) (by omega)
        (hkey hfits line _ _ (by omega))
    rw [hhere]
    exact hyields
  | false =>
    have hyields : ((b.append [token]).lexer here (some key) false).Yields _ :=
      yields_staleKey hrest (stale_of_not_fitsKey hfits line index)
    -- A key has to stand exactly at the column of an open mapping.
    rw [hnone hfits]
    by_cases hfirst : b.indent < column
    · have hne : b.indent ≠ column := Int.ne_of_lt hfirst
      simpa [hfirst, hne] using hyields
    · have heq : b.indent = column := by omega
      simpa [hfirst, heq] using hyields

/-- A scalar before a colon becomes a key, if it is short and on one line. -/
theorem Continues.key (h : Written written read) {rest : List Char} {column : Nat}
    (hrest : startsGap rest = true) (hindent : b.indent ≤ column)
    (hnext : match keyToken (decide (b.indent < column)) written read with
      | .ok token => ∀ line column' index, column < column' →
        (((b.opened column .blockMappingStart).append [.key, token, .value]).lexer
          ⟨rest, line, column', index⟩ none false).Yields outcome
      | .error e => outcome = .error e) :
    b.Continues (written ++ ':' :: rest) column true outcome := by
  obtain ⟨c, more, rfl, hstart, hdirective, -, hmark⟩ := h.first
  have hmark := hmark (':' :: rest) (by simp) (by simp)
  have hstart : startsToken (c :: more ++ ':' :: rest) = true := by simpa [startsToken] using hstart
  have hread := token_beforeColon h hrest hindent hmark
  cases read with
  | error e =>
    rw [show outcome = .error e from hnext]
    exact .failure hstart hindent hmark hdirective hread
  | ok token =>
    refine .token hstart hindent hmark hdirective fun line index =>
      ⟨_, hread line index, ?_, yields_beforeColon hrest hindent ?_ ?_ line index⟩
    · show (':' :: rest).length ≤ (more ++ ':' :: rest).length
      rw [List.length_append]
      omega
    · intro hfits
      simp only [keyToken, hfits, bind, Except.bind, if_true] at hnext
      exact hnext
    · intro hfits
      simpa [keyToken, hfits, bind, Except.bind, throw, throwThe, MonadExceptOf.throw] using hnext

/-! ### Dashes -/

/-- A dash begins an entry of a sequence. -/
theorem Continues.dash {rest : List Char} {column : Nat} (hrest : startsGap rest = true)
    (hindent : b.indent ≤ column)
    (hnext : ∀ line index,
      (((b.opened column .blockSequenceStart).append [.blockEntry]).lexer
        ⟨rest, line, column + 1, index⟩ none true).Yields outcome) :
    b.Continues ('-' :: rest) column true outcome := by
  have hmark : startsMark ('-' :: rest) = false := by
    cases rest with
    | nil => rfl
    | cons x xs =>
      have hx : ('-' == x) = false := by
        rw [← Bool.not_eq_true, beq_iff_eq]
        rintro rfl
        cases hrest
      simp [startsMark, List.isPrefixOf, hx]
  refine .token rfl hindent hmark (by decide) fun line index =>
    ⟨_, ?_, Nat.le_refl rest.length, hnext line (index + 1)⟩
  by_cases hopen : (column : Int) ≤ b.indent
  · simp [lexer, Lexer.token, hrest, Lexer.entry, Lexer.openBlock, Lexer.inFlow, opened, append,
      hopen, Lexer.dropKey, Lexer.push]
    rfl
  · simp [lexer, Lexer.token, hrest, Lexer.entry, Lexer.openBlock, Lexer.inFlow, opened, append,
      hopen, Lexer.dropKey, Lexer.push, Lexer.insertToken]
    rfl

/-! ### Empty collections -/

/-- Between the brackets of an empty collection. -/
def bracket (b : Blocks) (cursor : Cursor) (key : Option PendingKey) (start : Token) : Lexer :=
  ⟨cursor, start :: b.done, b.count + 1, b.indent, b.outer, none, [key], true⟩

/-- The brackets of an empty collection, and their tokens. -/
def IsBrackets (o c : Char) (start stop : Token) : Prop :=
  o = '[' ∧ c = ']' ∧ start = .flowSequenceStart ∧ stop = .flowSequenceEnd ∨
    o = '\x7b' ∧ c = '\x7d' ∧ start = .flowMappingStart ∧ stop = .flowMappingEnd

theorem token_open {o c : Char} {start stop : Token} (h : IsBrackets o c start stop)
    (cursor : Cursor) (allowed : Bool) (rest : List Char) :
    (b.lexer cursor none allowed).token o rest =
      .ok (b.bracket cursor.next (b.keyAt cursor allowed) start) := by
  rcases h with ⟨rfl, rfl, rfl, rfl⟩ | ⟨rfl, rfl, rfl, rfl⟩
  · cases allowed <;> rfl
  · cases allowed <;> rfl

/-- Behind the closing bracket a key may have begun at the opening one. -/
theorem yields_bracket {o c : Char} {start stop : Token} (h : IsBrackets o c start stop)
    {rest : List Char} {key : Option PendingKey} {line column index : Nat}
    (hkey : Lexer.dropStale ⟨c :: rest, line, column + 1, index⟩ key = .ok key)
    (hnext : ((b.append [start, stop]).lexer ⟨rest, line, column + 2, index + 1⟩ key
      false).Yields outcome) :
    (b.bracket ⟨c :: rest, line, column + 1, index⟩ key start).Yields outcome := by
  intro fuel hfuel
  obtain _ | fuel := fuel
  · exact absurd hfuel (Nat.not_lt_zero _)
  have hfuel : rest.length < fuel := by simpa [bracket] using hfuel
  let l := b.bracket ⟨c :: rest, line, column + 1, index⟩ key start
  have hskip : l.skipGap = l := by
    rcases h with ⟨rfl, rfl, rfl, rfl⟩ | ⟨rfl, rfl, rfl, rfl⟩ <;> rfl
  have hdrop : l.dropStaleKeys = .ok l := by
    simp only [l, bracket, Lexer.dropStaleKeys, List.mapM_cons, List.mapM_nil, hkey]
    rfl
  have hhere : l.tokenHere c rest =
      .ok ((b.append [start, stop]).lexer ⟨rest, line, column + 2, index + 1⟩ key false) := by
    rcases h with ⟨rfl, rfl, rfl, rfl⟩ | ⟨rfl, rfl, rfl, rfl⟩ <;> rfl
  rw [Lexer.run_succ]
  show (l.skipGap.dropStaleKeys >>= fun l => Lexer.proceed fuel (l.closeBlocks l.cursor.column)) = _
  rw [hskip, hdrop]
  show Lexer.proceed fuel (l.closeBlocks l.cursor.column) = _
  have hclose : l.closeBlocks l.cursor.column = l := rfl
  rw [hclose, Lexer.proceed_cons rfl, hhere]
  exact hnext fuel hfuel

/-- An empty collection that is a value, and the gap up to the next line with a token. -/
theorem Continues.brackets {o c : Char} {start stop : Token} (h : IsBrackets o c start stop)
    {gap rest : List Char} {column below : Nat} {allowed : Bool} (hgap : LineGap gap below)
    (hrest : startsToken rest = true) (hindent : b.indent < column)
    (hnext : (b.append [start, stop]).Continues rest below true outcome) :
    b.Continues (o :: c :: (gap ++ rest)) column allowed outcome := by
  have hstart : startsToken (o :: c :: (gap ++ rest)) = true := by
    rcases h with ⟨rfl, rfl, rfl, rfl⟩ | ⟨rfl, rfl, rfl, rfl⟩ <;> rfl
  have hmark : startsMark (o :: c :: (gap ++ rest)) = false := by
    rcases h with ⟨rfl, rfl, rfl, rfl⟩ | ⟨rfl, rfl, rfl, rfl⟩ <;> rfl
  have hdirective : o ≠ '%' := by
    rcases h with ⟨rfl, rfl, rfl, rfl⟩ | ⟨rfl, rfl, rfl, rfl⟩ <;> decide
  have hbreaks : isBreak o = false ∧ isBreak c = false := by
    rcases h with ⟨rfl, rfl, rfl, rfl⟩ | ⟨rfl, rfl, rfl, rfl⟩ <;> decide
  refine .token hstart (Int.le_of_lt hindent) hmark hdirective fun line index =>
    ⟨_, token_open h _ allowed _, ?_, ?_⟩
  · rw [Cursor.next_of_no_break hbreaks.1]
    exact Nat.le_refl _
  · let key := b.keyAt ⟨o :: c :: (gap ++ rest), line, column, index⟩ allowed
    have hkey : Lexer.dropStale ⟨c :: (gap ++ rest), line, column + 1, index + 1⟩ key =
        .ok key := by
      cases allowed with
      | false => rfl
      | true => simp [key, keyAt, Lexer.dropStale]
    rw [Cursor.next_of_no_break hbreaks.1]
    refine yields_bracket h hkey (Continues.gap hgap.between hrest ?_ ?_)
    · rw [hgap.column, hgap.breaks]
      exact hnext
    · intro pending hpending
      obtain ⟨hrequired, hstart⟩ := of_mem_keyAt hindent pending hpending
      have hcount := hgap.countP_pos
      refine ⟨hrequired, ?_⟩
      rw [hstart]
      show line < line + gap.countP isBreak
      omega

end Blocks

end ConfigTree.Yaml
