import ConfigTree.Proofs.Yaml.Lexer

/-! # Scalars in a text

`Written` says that some characters are a plain or quoted scalar, and which token is read from them.
The token does not depend on the place (`Written.readWritten_eq`).  Where a value stands, with the
end of a line behind it, the lexer reads that token and goes on (`Continues.value`).
-/
namespace ConfigTree.Yaml

/-- The text of a scalar, and the token that is read from it. -/
inductive Written : List Char → Except Error Token → Prop where
  | plain {cs : List Char} : PlainText cs → startsLikeIndicator cs = false →
    cs.head? ≠ some byteOrderMark → Written cs (.ok (.scalar true (String.ofList cs)))
  | quoted {single : Bool} {body : List Char} {read : Except Error (List Char)} :
    Quoted single body read →
    Written (quoteChar single :: (body ++ [quoteChar single]))
      (read.map fun text => .scalar false (String.ofList text))

/-- The token of a scalar that stands on its own. -/
def readWritten (written : List Char) : Except Error Token :=
  let read := fun (single : Bool) (rest : List Char) =>
    (scanQuoted single (rest.length + 1) ⟨rest, 0, 1, 1⟩).map fun scanned =>
      .scalar false (String.ofList scanned.text)
  match written with
  | '\'' :: rest => read true rest
  | '"' :: rest => read false rest
  | _ => .ok (.scalar true (String.ofList written))

theorem atDocumentMark_of_startsMark {c : Cursor} (h : startsMark c.rest = false) :
    c.atDocumentMark = false := by
  by_cases hcolumn : c.column = 0
  · rw [Cursor.atDocumentMark_eq hcolumn, h]
  · exact Cursor.atDocumentMark_of_column hcolumn

/-- No character of a mark completes a text that is none. -/
theorem isPrefixOf_append_eq_false {d : Char} {cs rest : List Char}
    (h : [d, d, d].isPrefixOf cs = false) (hne : cs ≠ []) (hrest : rest.head? ≠ some d) :
    [d, d, d].isPrefixOf (cs ++ rest) = false := by
  have hd : ∀ x more, rest = x :: more → (d == x) = false := by
    rintro x more rfl
    simpa using fun h => hrest (by simp [h])
  rcases cs with _ | ⟨x, _ | ⟨y, _ | ⟨z, more⟩⟩⟩
  · exact absurd rfl hne
  · cases rest with
    | nil => simp [List.isPrefixOf]
    | cons a as => simp [List.isPrefixOf, hd a as rfl]
  · cases rest with
    | nil => simp [List.isPrefixOf]
    | cons a as => simp [List.isPrefixOf, hd a as rfl]
  · simpa [List.isPrefixOf] using h

namespace Written

variable {written : List Char} {read : Except Error Token}

/-- The first character of a scalar does not let the lexer take it for something else. -/
theorem first (h : Written written read) :
    ∃ c more, written = c :: more ∧ startsToken written = true ∧ c ≠ '%' ∧ c ≠ byteOrderMark ∧
      ∀ rest : List Char, rest.head? ≠ some '-' → rest.head? ≠ some '.' →
        startsMark (written ++ rest) = false := by
  cases h with
  | plain htext hindicator hmark =>
    obtain ⟨c, more, rfl, hgap, hcomment⟩ := htext.head_eq
    simp only [startsLikeIndicator, Bool.or_eq_false_iff] at hindicator
    obtain ⟨⟨⟨hchar, -⟩, hdash⟩, hdot⟩ := hindicator
    refine ⟨c, more, rfl, by simp [startsToken, hgap, hcomment], ?_, ?_, fun rest hr hr' => ?_⟩
    · rintro rfl
      exact absurd hchar (by decide)
    · rintro rfl
      exact hmark rfl
    · have hdash : ['-', '-', '-'].isPrefixOf (c :: more ++ rest) = false :=
        isPrefixOf_append_eq_false hdash (List.cons_ne_nil c more) hr
      have hdot : ['.', '.', '.'].isPrefixOf (c :: more ++ rest) = false :=
        isPrefixOf_append_eq_false hdot (List.cons_ne_nil c more) hr'
      simp only [startsMark, hdash, hdot, Bool.or_self, Bool.false_and]
  | @quoted single body read _ =>
    refine ⟨quoteChar single, _, rfl, ?_, ?_, ?_, fun rest _ _ => ?_⟩
    · cases single <;> rfl
    · cases single <;> decide
    · cases single <;> decide
    · cases single <;> simp [startsMark, List.isPrefixOf, quoteChar]

/-- The token is determined by the text. -/
theorem readWritten_eq (h : Written written read) : readWritten written = read := by
  cases h with
  | plain htext hindicator _ =>
    unfold readWritten
    split
    · exact absurd hindicator (by simp [startsLikeIndicator])
    · exact absurd hindicator (by simp [startsLikeIndicator])
    · rfl
  | @quoted single body outcome hbody =>
    have hfuel : body.length < (body ++ [quoteChar single]).length + 1 := by
      rw [List.length_append]
      omega
    have hscan : scanQuoted single ((body ++ [quoteChar single]).length + 1)
        ⟨body ++ [quoteChar single], 0, 1, 1⟩ = _ :=
      hbody.scans _ _ [] hfuel (Cursor.atDocumentMark_of_column Nat.one_ne_zero) rfl
        fun _ => by simp
    have hread : readWritten (quoteChar single :: (body ++ [quoteChar single])) =
        (scanQuoted single ((body ++ [quoteChar single]).length + 1)
          ⟨body ++ [quoteChar single], 0, 1, 1⟩).map fun scanned =>
            .scalar false (String.ofList scanned.text) := by
      cases single <;> rfl
    rw [hread, hscan]
    cases outcome <;> rfl

end Written

namespace Blocks

variable {b : Blocks} {outcome : Except Error (List Token)} {written : List Char}
  {read : Except Error Token}

/-- The key that may have begun at a place. -/
def keyAt (b : Blocks) (cursor : Cursor) (allowed : Bool) : Option PendingKey :=
  if allowed then some ⟨b.count, b.indent == cursor.column, cursor⟩ else none

/-- To the right of the innermost block collection there need not be a key. -/
theorem of_mem_keyAt {cursor : Cursor} {allowed : Bool} (h : b.indent < cursor.column) :
    ∀ key ∈ b.keyAt cursor allowed, key.required = false ∧ key.start = cursor := by
  intro key hkey
  cases allowed with
  | false => cases hkey
  | true =>
    obtain rfl : _ = key := Option.some.inj hkey
    refine ⟨?_, rfl⟩
    simpa using Int.ne_of_lt h

theorem keyLike_eq (cursor : Cursor) (allowed : Bool) (read : Token × Cursor) :
    (b.lexer cursor none allowed).keyLike read =
      .ok ((b.append [read.1]).lexer read.2 (b.keyAt cursor allowed) false) := by
  cases allowed <;> rfl

/-- What begins like no indicator: its first character is none, or one that needs a gap behind it
and has none. -/
theorem ne_of_not_indicator {c : Char} {more : List Char}
    (h : startsLikeIndicator (c :: more) = false) :
    (∀ d ∈ "#,[]\x7b\x7d&*!|>'\"%@\x60".toList, c ≠ d) ∧
      ∀ rest, ∀ d ∈ "-?:".toList, (c == d && startsGap (more ++ rest)) = false := by
  simp only [startsLikeIndicator, Bool.or_eq_false_iff] at h
  obtain ⟨⟨⟨hchar, hstart⟩, -⟩, -⟩ := h
  refine ⟨?_, fun rest d hd => ?_⟩
  · rintro d hd rfl
    rw [List.contains_iff_mem.mpr hd] at hchar
    cases hchar
  · by_cases hcd : c = d
    · subst hcd
      rw [List.contains_iff_mem.mpr hd, Bool.true_and] at hstart
      cases more with
      | nil => cases hstart
      | cons x xs =>
        have hx : startsGap (x :: xs ++ rest) = false := hstart
        rw [hx, Bool.and_false]
    · simp [hcd]

theorem startsPlain_of_not_indicator {c : Char} {more : List Char} (hgap : isGap c = false)
    (h : startsLikeIndicator (c :: more) = false) (rest : List Char) :
    Lexer.startsPlain false (c :: (more ++ rest)) = true := by
  obtain ⟨hne, halone⟩ := ne_of_not_indicator h
  have halone : ∀ d ∈ "-?:".toList, c = d → startsGap (more ++ rest) = false := by
    rintro d hd rfl
    simpa using halone rest c hd
  have hsubset : ∀ d ∈ ",[]\x7b\x7d#&*!|>'\"%@\x60".toList,
      "#,[]\x7b\x7d&*!|>'\"%@\x60".toList.contains d = true := List.all_eq_true.mp (by decide)
  have hother : ",[]\x7b\x7d#&*!|>'\"%@\x60".toList.contains c = false := by
    rw [← Bool.not_eq_true]
    intro hc
    exact hne c (List.contains_iff_mem.mp (hsubset c (List.contains_iff_mem.mp hc))) rfl
  have hblank : startsGap (more ++ rest) = false → (more ++ rest).head?.any isBlank = false := by
    cases more ++ rest with
    | nil => exact fun _ => rfl
    | cons d _ =>
      intro hd
      rw [startsGap, isGap, Bool.or_eq_false_iff] at hd
      simpa using hd.1
  rw [Lexer.startsPlain]
  split
  · next hc => rw [hblank (halone '-' (by decide) (by simpa using hc)), Bool.not_false]
  split
  · next hc =>
    have hgap : startsGap (more ++ rest) = false := by
      rw [Bool.or_eq_true, beq_iff_eq, beq_iff_eq] at hc
      rcases hc with hc | hc
      · exact halone '?' (by decide) hc
      · exact halone ':' (by decide) hc
    rw [hgap]
    rfl
  · rw [hgap, hother]
    rfl

/-- A text that begins like no indicator is read as a plain scalar. -/
theorem token_plain {c : Char} {more rest : List Char} (hgap : isGap c = false)
    (h : startsLikeIndicator (c :: more) = false)
    (cursor : Cursor) (pending : Option PendingKey) (allowed : Bool) :
    (b.lexer cursor pending allowed).token c (more ++ rest) =
      (b.lexer cursor pending allowed).plainScalar := by
  obtain ⟨hne, halone⟩ := ne_of_not_indicator h
  have hflow : (b.lexer cursor pending allowed).inFlow = false := rfl
  unfold Lexer.token
  split
  · exact absurd rfl (hne '[' (by decide))
  · exact absurd rfl (hne '\x7b' (by decide))
  · exact absurd rfl (hne ']' (by decide))
  · exact absurd rfl (hne '\x7d' (by decide))
  · exact absurd rfl (hne ',' (by decide))
  · exact absurd rfl (hne '*' (by decide))
  · exact absurd rfl (hne '&' (by decide))
  · exact absurd rfl (hne '!' (by decide))
  · exact absurd rfl (hne '\'' (by decide))
  · exact absurd rfl (hne '"' (by decide))
  · have hbar : ¬ ((c == '|' && !false) = true) := by simpa using hne '|' (by decide)
    have hfold : ¬ ((c == '>' && !false) = true) := by simpa using hne '>' (by decide)
    rw [hflow, if_neg, if_neg, if_neg, if_neg hbar, if_neg hfold,
      if_pos (startsPlain_of_not_indicator hgap h rest)]
    · simpa using halone rest ':' (by decide)
    · simpa using halone rest '?' (by decide)
    · simpa using halone rest '-' (by decide)

theorem plainScalar_eq {cs rest : List Char} (htext : PlainText cs) {line column index : Nat}
    (allowed : Bool) (hindent : b.indent ≤ column) (hmark : startsMark (cs ++ rest) = false)
    (hends : PlainEnds (b.indent + 1)
      (Cursor.advance cs.length ⟨cs ++ rest, line, column, index⟩)) :
    (b.lexer ⟨cs ++ rest, line, column, index⟩ none allowed).plainScalar =
      .ok ((b.append [.scalar true (String.ofList cs)]).lexer
        (Cursor.advance (cs.length + (leadingGap rest).length) ⟨cs ++ rest, line, column, index⟩)
        (b.keyAt ⟨cs ++ rest, line, column, index⟩ allowed) ((leadingGap rest).any isBreak)) := by
  have hfuel : cs.length < (cs ++ rest).length + 1 := by
    rw [List.length_append]
    omega
  have hscan : scanPlain false (b.indent + 1) ((cs ++ rest).length + 1) []
      ⟨cs ++ rest, line, column, index⟩ = .ok ⟨cs,
        Cursor.advance (cs.length + (leadingGap rest).length) ⟨cs ++ rest, line, column, index⟩,
        (leadingGap rest).any isBreak⟩ :=
    htext.scan hfuel (atDocumentMark_of_startsMark hmark) (by omega) hends
  unfold Lexer.plainScalar
  show (do
    let read ← scanPlain false (b.indent + 1) ((cs ++ rest).length + 1) []
      ⟨cs ++ rest, line, column, index⟩
    let l ← (b.lexer ⟨cs ++ rest, line, column, index⟩ none allowed).keyLike
      (.scalar true (String.ofList read.text), read.after)
    return { l with keyAllowed := read.endsLine } : Except Error Lexer) = _
  rw [hscan]
  simp only [bind, Except.bind, keyLike_eq]
  rfl

theorem quotedScalar_eq {single : Bool} {body rest : List Char}
    {outcome : Except Error (List Char)} (hbody : Quoted single body outcome)
    {line column index : Nat} (allowed : Bool) (hquote : rest.head? ≠ some '\'') :
    (b.lexer ⟨quoteChar single :: (body ++ [quoteChar single]) ++ rest, line, column, index⟩ none
        allowed).quotedScalar single =
      outcome.map fun text => (b.append [.scalar false (String.ofList text)]).lexer
        (Cursor.advance (quoteChar single :: (body ++ [quoteChar single])).length
          ⟨quoteChar single :: (body ++ [quoteChar single]) ++ rest, line, column, index⟩)
        (b.keyAt ⟨quoteChar single :: (body ++ [quoteChar single]) ++ rest, line, column, index⟩
          allowed) false := by
  have hbreak : isBreak (quoteChar single) = false := by cases single <;> decide
  have htext : quoteChar single :: (body ++ [quoteChar single]) ++ rest =
      quoteChar single :: (body ++ quoteChar single :: rest) := by simp
  rw [htext]
  let here : Cursor := ⟨quoteChar single :: (body ++ quoteChar single :: rest), line, column, index⟩
  have hnext : here.next = ⟨body ++ quoteChar single :: rest, line, column + 1, index + 1⟩ :=
    Cursor.next_of_no_break hbreak _ line column index
  have hmark : here.next.atDocumentMark = false := by
    rw [hnext]
    exact Cursor.atDocumentMark_of_column (Nat.succ_ne_zero column)
  have hfuel : body.length < here.rest.length + 1 := by
    simp only [here, List.length_cons, List.length_append]
    omega
  have hscan : scanQuoted single (here.rest.length + 1) here.next =
      outcome.map fun text => ⟨text, here.next.advance (body.length + 1), false⟩ :=
    hbody.scans _ _ rest hfuel hmark (by rw [hnext]) fun _ => hquote
  have hafter : here.next.advance (body.length + 1) =
      here.advance (quoteChar single :: (body ++ [quoteChar single])).length := by
    rw [List.length_cons, List.length_append, List.length_singleton]
    rfl
  unfold Lexer.quotedScalar
  show (do
    let read ← scanQuoted single (here.rest.length + 1) here.next
    (b.lexer here none allowed).keyLike (.scalar false (String.ofList read.text), read.after)) = _
  rw [hscan, hafter]
  cases outcome with
  | error e => rfl
  | ok text => exact keyLike_eq here allowed _

/-- The scalar at the cursor is read, a plain one together with the gap behind it. -/
theorem token_written (allowed : Bool) (h : Written written read) {rest : List Char}
    {line column index : Nat} (hindent : b.indent ≤ column) (hquote : rest.head? ≠ some '\'')
    (hmark : startsMark (written ++ rest) = false)
    (hends : PlainEnds (b.indent + 1)
      (Cursor.advance written.length ⟨written ++ rest, line, column, index⟩)) :
    ∃ c more lead, written = c :: more ∧ (lead = [] ∨ lead = leadingGap rest) ∧
      (b.lexer ⟨written ++ rest, line, column, index⟩ none allowed).token c (more ++ rest) =
        read.map fun token => (b.append [token]).lexer
          (Cursor.advance (written.length + lead.length) ⟨written ++ rest, line, column, index⟩)
          (b.keyAt ⟨written ++ rest, line, column, index⟩ allowed) (lead.any isBreak) := by
  cases h with
  | @plain cs htext hindicator _ =>
    obtain ⟨c, more, rfl, hgap, -⟩ := htext.head_eq
    refine ⟨c, more, leadingGap rest, rfl, .inr rfl, ?_⟩
    rw [token_plain hgap hindicator]
    exact plainScalar_eq htext allowed hindent hmark hends
  | @quoted single body outcome hbody =>
    refine ⟨quoteChar single, body ++ [quoteChar single], [], rfl, .inl rfl, ?_⟩
    have htoken : (b.lexer ⟨quoteChar single :: (body ++ [quoteChar single]) ++ rest, line, column,
          index⟩ none allowed).token (quoteChar single) (body ++ [quoteChar single] ++ rest) =
        (b.lexer ⟨quoteChar single :: (body ++ [quoteChar single]) ++ rest, line, column, index⟩
          none allowed).quotedScalar single := by
      cases single <;> rfl
    rw [htoken, quotedScalar_eq hbody allowed hquote]
    cases outcome <;> rfl

/-- Plain scalars end before a gap behind which there is less indentation, nothing or a comment. -/
theorem plainEnds_gap {gap rest : List Char} {indent : Int} {below : Nat}
    (hend : LineEnd indent gap rest below) (line column index : Nat) :
    PlainEnds (indent + 1) ⟨gap ++ rest, line, column, index⟩ := by
  obtain ⟨⟨hgap, hhead, -, hbelow⟩, hrest, hlow⟩ := hend
  obtain ⟨comment, hsplit, -, htab, hcomment⟩ := hgap.split hrest
  refine ⟨?_, htab, fun _ => ?_⟩
  · cases gap with
    | nil => cases hhead
    | cons x xs =>
      have hx : isGap x = true := by simpa using hhead
      simp [plainChunk, hx]
  · have htext : gap ++ rest = leadingGap (gap ++ rest) ++ (comment ++ rest) := by
      rw [← List.append_assoc, ← hsplit]
    show ((Cursor.advance (leadingGap (gap ++ rest)).length
        ⟨gap ++ rest, line, column, index⟩).column : Int) < indent + 1 ∨
      (Cursor.advance (leadingGap (gap ++ rest)).length
        ⟨gap ++ rest, line, column, index⟩).rest = [] ∨
      (Cursor.advance (leadingGap (gap ++ rest)).length
        ⟨gap ++ rest, line, column, index⟩).at? '#' = true
    generalize leadingGap (gap ++ rest) = lead at hsplit htext
    rw [htext, Cursor.advance_append]
    rcases hcomment with rfl | hcomment
    · rw [List.append_nil] at hsplit
      subst hsplit
      rcases hlow with hlow | rfl
      · left
        show (columnAfter column gap : Int) < indent + 1
        rw [hbelow]
        omega
      · exact .inr (.inl rfl)
    · refine .inr (.inr ?_)
      cases comment with
      | nil => cases hcomment
      | cons d ds => simpa [Cursor.at?] using hcomment

/-- A scalar before the gap up to the next line is read, a plain one together with what the gap has
before its first comment. -/
theorem token_beforeGap {c : Char} {more gap rest : List Char} (h : Written (c :: more) read)
    {column below : Nat} (allowed : Bool) (hend : LineEnd b.indent gap rest below)
    (hindent : b.indent ≤ column) (hquote : (gap ++ rest).head? ≠ some '\'')
    (hmark : startsMark (c :: more ++ (gap ++ rest)) = false) (line index : Nat) :
    ∃ lead comment, gap = lead ++ comment ∧ Between comment ∧
      (b.lexer ⟨c :: more ++ (gap ++ rest), line, column, index⟩ none allowed).token c
          (more ++ (gap ++ rest)) =
        read.map fun token => (b.append [token]).lexer
          ⟨comment ++ rest, line + (c :: more ++ lead).countP isBreak,
            columnAfter column (c :: more ++ lead), index + (c :: more ++ lead).length⟩
          (b.keyAt ⟨c :: more ++ (gap ++ rest), line, column, index⟩ allowed)
          (lead.any isBreak) := by
  have hends := plainEnds_gap hend (line + (c :: more).countP isBreak)
    (columnAfter column (c :: more)) (index + (c :: more).length)
  rw [← Cursor.advance_append] at hends
  obtain ⟨d, ds, lead, heq, hlead, htoken⟩ :=
    token_written allowed h hindent hquote hmark hends
  obtain ⟨rfl, rfl⟩ := List.cons.inj heq
  obtain ⟨comment, hsplit, hcomment⟩ :
      ∃ comment, gap = lead ++ comment ∧ Between comment := by
    rcases hlead with rfl | rfl
    · exact ⟨gap, rfl, hend.gap.between⟩
    · obtain ⟨comment, hsplit, hcomment, -, -⟩ := hend.gap.between.split hend.starts
      exact ⟨comment, hsplit, hcomment⟩
  have hafter : Cursor.advance ((c :: more).length + lead.length)
      ⟨c :: more ++ (gap ++ rest), line, column, index⟩ =
        ⟨comment ++ rest, line + (c :: more ++ lead).countP isBreak,
          columnAfter column (c :: more ++ lead), index + (c :: more ++ lead).length⟩ := by
    have htext : c :: more ++ (gap ++ rest) = (c :: more ++ lead) ++ (comment ++ rest) := by
      rw [hsplit]
      simp
    rw [htext, ← List.length_append, Cursor.advance_append]
  rw [hafter] at htoken
  exact ⟨lead, comment, hsplit, hcomment, htoken⟩

/-- Behind a scalar and part of the gap there is only the rest of the gap.  The line end in the gap
makes an end of the key that may have begun at the scalar. -/
theorem yields_beforeGap {token : Token} {lead comment rest : List Char} {column below : Nat}
    (allowed : Bool) (hend : LineEnd b.indent (lead ++ comment) rest below)
    (hcomment : Between comment) (hindent : b.indent < column)
    (hnext : (b.append [token]).Continues rest below true outcome) (line index : Nat) :
    ((b.append [token]).lexer
      ⟨comment ++ rest, line + (written ++ lead).countP isBreak,
        columnAfter column (written ++ lead), index + (written ++ lead).length⟩
      (b.keyAt ⟨written ++ (lead ++ comment ++ rest), line, column, index⟩ allowed)
      (lead.any isBreak)).Yields outcome := by
  have hcolumn : columnAfter (columnAfter column (written ++ lead)) comment = below := by
    rw [columnAfter_append, ← columnAfter_append, hend.gap.column]
  have hallowed : (lead.any isBreak || comment.any isBreak) = true := by
    rw [← List.any_append]
    exact hend.gap.breaks
  refine Continues.gap hcomment hend.starts ?_ ?_
  · rw [hcolumn, hallowed]
    exact hnext
  · intro key hkey
    obtain ⟨hrequired, hstart⟩ := of_mem_keyAt hindent key hkey
    have hcount := hend.gap.countP_pos
    refine ⟨hrequired, ?_⟩
    rw [hstart]
    show line < line + (written ++ lead).countP isBreak + comment.countP isBreak
    rw [List.countP_append] at hcount ⊢
    omega

/-- A scalar that is a value, and the gap up to the next line with a token, which is no further line
of the scalar. -/
theorem Continues.value (h : Written written read) {gap rest : List Char} {column below : Nat}
    {allowed : Bool} (hend : LineEnd b.indent gap rest below) (hindent : b.indent < column)
    (hnext : b.Follows (read.map ([·])) rest below outcome) :
    b.Continues (written ++ (gap ++ rest)) column allowed outcome := by
  obtain ⟨c, more, rfl, hstart, hdirective, -, hmark⟩ := h.first
  have hmark := hmark (gap ++ rest) (hend.gap.head?_ne (by decide))
    (hend.gap.head?_ne (by decide))
  have hstart : startsToken (c :: more ++ (gap ++ rest)) = true := by
    simpa [startsToken] using hstart
  have hindent' : b.indent ≤ column := Int.le_of_lt hindent
  have hread := token_beforeGap h allowed hend hindent' (hend.gap.head?_ne (by decide)) hmark
  cases read with
  | error e =>
    cases hnext
    refine .failure hstart hindent' hmark hdirective fun line index => ?_
    obtain ⟨lead, comment, -, -, htoken⟩ := hread line index
    exact htoken
  | ok token =>
    refine .token hstart hindent' hmark hdirective fun line index => ?_
    obtain ⟨lead, comment, rfl, hcomment, htoken⟩ := hread line index
    refine ⟨_, htoken, ?_, yields_beforeGap allowed hend hcomment hindent hnext line index⟩
    show (comment ++ rest).length ≤ (more ++ (lead ++ comment ++ rest)).length
    simp only [List.length_append]
    omega

end Blocks

end ConfigTree.Yaml
