import ConfigTree.Proofs.Yaml.Cursor
import ConfigTree.Yaml.Token.Scalar

/-! # Reading quoted scalars

`Quoted single body outcome` says what is read from `body` between quotes: a text, or that a
document mark stands in it.  It has a constructor for each way in which a body can begin, and no
cursor.  `Quoted.scans` is the connection to `scanQuoted`: wherever such a body stands, between
whatever texts, the scanner answers that outcome and stops behind the closing quote.
-/
namespace ConfigTree.Yaml

/-- The quote of a style. -/
def quoteChar (single : Bool) : Char := if single then '\'' else '"'

/-- May the character stand for itself between quotes, and is it no gap? -/
def isRaw (single : Bool) (c : Char) : Bool :=
  !isGap c && c != quoteChar single && (single || c != '\\')

/-- What is read from the body of a quoted scalar. -/
inductive Quoted (single : Bool) : List Char → Except Error (List Char) → Prop where
  | close : Quoted single [] (.ok [])
  | raw {c : Char} {body : List Char} {outcome : Except Error (List Char)} :
    isRaw single c = true → Quoted single body outcome →
    Quoted single (c :: body) (outcome.map (c :: ·))
  /-- A quote that is written twice. -/
  | twice {body : List Char} {outcome : Except Error (List Char)} :
    single = true → Quoted single body outcome →
    Quoted single ('\'' :: '\'' :: body) (outcome.map ('\'' :: ·))
  | escape {written body : List Char} {meant : Char} {outcome : Except Error (List Char)} :
    single = false → (∀ x ∈ written, isBreak x = false) →
    (∀ rest, readEscape (written ++ rest) = .ok (meant, written.length)) →
    Quoted single body outcome →
    Quoted single ('\\' :: written ++ body) (outcome.map (meant :: ·))
  | gap {gap body : List Char} {outcome : Except Error (List Char)} :
    gap ≠ [] → (∀ c ∈ gap, isGap c = true) → body.head?.any isGap = false →
    (gap.getLast?.any isBreak && startsMark (body ++ [quoteChar single])) = false →
    Quoted single body outcome → Quoted single (gap ++ body) (outcome.map (foldGap gap ++ ·))
  /-- A document mark at the start of a line. -/
  | mark {gap body : List Char} :
    gap ≠ [] → (∀ c ∈ gap, isGap c = true) → body.head?.any isGap = false →
    (gap.getLast?.any isBreak && startsMark (body ++ [quoteChar single])) = true →
    Quoted single (gap ++ body) (.error .documentMarkInQuotes)

theorem isGap_quoteChar (single : Bool) : isGap (quoteChar single) = false := by
  cases single <;> decide

/-- Whether a mark stands here is seen before the closing quote. -/
theorem startsMark_quoted (single : Bool) (body after : List Char) :
    startsMark (body ++ quoteChar single :: after) = startsMark (body ++ [quoteChar single]) := by
  have hdash : ('-' == quoteChar single) = false := by cases single <;> decide
  have hdot : ('.' == quoteChar single) = false := by cases single <;> decide
  rcases body with _ | ⟨a, _ | ⟨b, _ | ⟨c, _ | ⟨d, rest⟩⟩⟩⟩
  · simp [startsMark, List.isPrefixOf, hdash, hdot]
  · simp [startsMark, List.isPrefixOf, hdash, hdot]
  · simp [startsMark, List.isPrefixOf, hdash, hdot]
  · simp [startsMark, List.isPrefixOf, startsGap]
  · simp [startsMark, List.isPrefixOf, startsGap]

/-! ### Chunks -/

/-- The chunk at the start of a text. -/
def chunkOf (single : Bool) (cs : List Char) : Except Error QuotedChunk :=
  if single then pure (singleChunk cs) else doubleChunk (cs.length + 1) cs

/-- A chunk with a character in front that is written with `n` characters. -/
def QuotedChunk.behind (c : Char) (n : Nat) (chunk : QuotedChunk) : QuotedChunk :=
  { chunk with text := c :: chunk.text, length := chunk.length + n }

/-- Fuel that exceeds the length of a text is enough to find its first chunk. -/
theorem doubleChunk_fuel {fuel : Nat} {cs : List Char} (h : cs.length < fuel) :
    doubleChunk fuel cs = doubleChunk (cs.length + 1) cs := by
  induction fuel using Nat.strongRecOn generalizing cs with
  | ind fuel ih =>
    -- The induction is strong, as an escape takes several characters away at once.
    obtain _ | fuel := fuel
    · exact absurd h (Nat.not_lt_zero _)
    cases cs with
    | nil => rfl
    | cons c rest =>
      have hlt : rest.length < fuel := by simpa using h
      simp only [doubleChunk, List.length_cons]
      split
      · rfl
      split
      · split
        · rfl
        · cases readEscape rest with
          | error e => rfl
          | ok read =>
            have hdrop : (rest.drop read.2).length < fuel := by
              rw [List.length_drop]
              omega
            have hdrop' : (rest.drop read.2).length < rest.length + 1 := by
              rw [List.length_drop]
              omega
            simp only [bind, Except.bind]
            rw [ih fuel (by omega) hdrop, ih (rest.length + 1) (by omega) hdrop']
      · rw [ih fuel (by omega) hlt]

theorem chunkOf_raw {single : Bool} {c : Char} (h : isRaw single c = true) (rest : List Char) :
    chunkOf single (c :: rest) = (chunkOf single rest).map (QuotedChunk.behind c 1) := by
  simp only [isRaw, Bool.and_eq_true, Bool.not_eq_true', bne_iff_ne, ne_eq, Bool.or_eq_true] at h
  obtain ⟨⟨hgap, hquote⟩, hslash⟩ := h
  cases single with
  | true =>
    simp only [quoteChar, if_true] at hquote
    simp only [chunkOf, if_true]
    rw [singleChunk.eq_def]
    split
    · next heq => exact absurd (List.cons.inj heq).1 hquote
    · next heq => exact absurd (List.cons.inj heq).1 hquote
    · next heq =>
      obtain ⟨rfl, rfl⟩ := List.cons.inj heq
      simp [hgap, QuotedChunk.behind, pure, Except.pure, Except.map]
    · next heq => cases heq
  | false =>
    have hquote : (c == '"') = false := by simpa [quoteChar] using hquote
    have hslash : (c == '\\') = false := by simpa using hslash
    simp only [chunkOf, Bool.false_eq_true, if_false, List.length_cons, doubleChunk, hgap, hquote,
      hslash, Bool.or_self]
    cases doubleChunk (rest.length + 1) rest with
    | error e => rfl
    | ok more => rfl

theorem chunkOf_twice (rest : List Char) :
    chunkOf true ('\'' :: '\'' :: rest) = (chunkOf true rest).map (QuotedChunk.behind '\'' 2) := by
  simp [chunkOf, singleChunk, QuotedChunk.behind, pure, Except.pure, Except.map]

theorem chunkOf_escape {written rest : List Char} {meant : Char}
    (hplain : ∀ x ∈ written, isBreak x = false)
    (hread : readEscape (written ++ rest) = .ok (meant, written.length)) :
    chunkOf false ('\\' :: written ++ rest) =
      (chunkOf false rest).map (QuotedChunk.behind meant (written.length + 1)) := by
  -- An escape has at least one character, so what follows the backslash is no line end.
  have hne : written ≠ [] := by
    rintro rfl
    cases rest with
    | nil => cases hread
    | cons c rest =>
      simp only [List.nil_append, readEscape, List.length_nil] at hread
      split at hread
      · cases hread
      · split at hread
        · cases hread
        · split at hread <;> cases hread
  have hbreak : (written ++ rest).head?.any isBreak = false := by
    cases written with
    | nil => exact absurd rfl hne
    | cons c more => simpa using hplain c (by simp)
  have hslash : (isGap '\\' || '\\' == '"') = false := by decide
  have hfuel : rest.length < (written ++ rest).length + 1 := by
    rw [List.length_append]
    omega
  simp only [chunkOf, Bool.false_eq_true, if_false, List.cons_append, List.length_cons, doubleChunk,
    hslash, hbreak, hread, beq_self_eq_true, if_true, bind, Except.bind, List.drop_left]
  rw [doubleChunk_fuel hfuel]
  cases doubleChunk (rest.length + 1) rest with
  | error e => rfl
  | ok more =>
    simp only [pure, Except.pure, Except.map, QuotedChunk.behind, Except.ok.injEq,
      QuotedChunk.mk.injEq, true_and, and_true]
    omega

theorem chunkOf_stop {single : Bool} {c : Char} {rest : List Char}
    (h : isGap c = true ∨ c = quoteChar single)
    (hnext : single = true → c = '\'' → rest.head? ≠ some '\'') :
    chunkOf single (c :: rest) = .ok ⟨[], 0, false⟩ := by
  cases single with
  | true =>
    simp only [chunkOf, if_true, pure, Except.pure, Except.ok.injEq]
    rw [singleChunk.eq_def]
    split
    · next heq =>
      obtain ⟨rfl, rfl⟩ := List.cons.inj heq
      exact absurd rfl (hnext rfl rfl)
    · rfl
    · next hquote heq =>
      obtain ⟨rfl, rfl⟩ := List.cons.inj heq
      rcases h with h | rfl
      · simp [h]
      · exact absurd rfl hquote
    · rfl
  | false =>
    have hstop : (isGap c || c == '"') = true := by
      rcases h with h | rfl
      · simp [h]
      · rfl
    simp [chunkOf, doubleChunk, hstop]

/-! ### The scanner -/

/-- A scalar with some text in front. -/
def ScannedScalar.behind (text : List Char) (scanned : ScannedScalar) : ScannedScalar :=
  { scanned with text := text ++ scanned.text }

/-- A step of the scanner, in terms of the chunk. -/
theorem scanQuoted_succ (single : Bool) (fuel : Nat) {c : Cursor}
    (hmark : c.atDocumentMark = false) (hne : c.rest ≠ []) :
    scanQuoted single (fuel + 1) c = (do
      let chunk ← chunkOf single c.rest
      let c := c.advance chunk.length
      if c.at? (quoteChar single) then return ⟨chunk.text, c.next, false⟩
      let gap := leadingGap c.rest
      let between := if chunk.escapedBreak then gap.filter isBreak else foldGap gap
      let more ← scanQuoted single fuel (c.advance gap.length)
      return more.behind (chunk.text ++ between)) := by
  have hempty : c.rest.isEmpty = false := by simpa using hne
  rw [scanQuoted]
  cases single <;>
    simp [hmark, hempty, chunkOf, quoteChar, ScannedScalar.behind, bind, Except.bind, pure,
      Except.pure]

/-- The scanner may go on behind a character that belongs to the chunk. -/
theorem scanQuoted_behind {single : Bool} {fuel : Nat} {c : Cursor} {written rest : List Char}
    {meant : Char} (hmark : c.atDocumentMark = false) (hc : c.rest = written ++ rest)
    (hwritten : written ≠ []) (hbreak : ∀ x ∈ written, isBreak x = false) (hrest : rest ≠ [])
    (hchunk : chunkOf single (written ++ rest) =
      (chunkOf single rest).map (QuotedChunk.behind meant written.length)) :
    (c.advance written.length).atDocumentMark = false ∧
    scanQuoted single (fuel + 1) c =
      (scanQuoted single (fuel + 1) (c.advance written.length)).map
        (ScannedScalar.behind [meant]) := by
  obtain ⟨_, line, column, index⟩ := c
  subst hc
  have hadvance := Cursor.advance_append written rest line column index
  have hlast : written.getLast?.any isBreak = false := by
    rw [List.getLast?_eq_some_getLast hwritten]
    exact hbreak _ (List.getLast_mem hwritten)
  -- Behind a character that ends no line there is no document mark.
  have hcolumn : columnAfter column written ≠ 0 := by
    rw [ne_eq, columnAfter_eq_zero_iff hwritten, hlast]
    exact Bool.false_ne_true
  have hmark' : Cursor.atDocumentMark
      (Cursor.advance written.length ⟨written ++ rest, line, column, index⟩) = false := by
    rw [hadvance]
    exact Cursor.atDocumentMark_of_column hcolumn
  refine ⟨hmark', ?_⟩
  have hne : written ++ rest ≠ [] := by simp [hrest]
  have hne' : (Cursor.advance written.length ⟨written ++ rest, line, column, index⟩).rest ≠ [] := by
    rw [hadvance]
    exact hrest
  rw [scanQuoted_succ _ _ hmark hne, scanQuoted_succ _ _ hmark' hne', hchunk]
  simp only [hadvance]
  cases chunkOf single rest with
  | error e => rfl
  | ok chunk =>
    simp only [Except.map, QuotedChunk.behind, bind, Except.bind, pure, Except.pure]
    rw [Nat.add_comm, ← Cursor.advance_advance, hadvance]
    split
    · rfl
    · generalize scanQuoted single fuel _ = more
      cases more <;> rfl

/-- The scanner passes over a gap at once. -/
theorem scanQuoted_gap {single : Bool} {fuel : Nat} {c : Cursor} {gap rest : List Char}
    (hmark : c.atDocumentMark = false) (hc : c.rest = gap ++ rest) (hne : gap ≠ [])
    (hgap : ∀ x ∈ gap, isGap x = true) (hrest : rest.head?.any isGap = false) :
    scanQuoted single (fuel + 1) c =
      (scanQuoted single fuel (c.advance gap.length)).map (ScannedScalar.behind (foldGap gap)) := by
  obtain ⟨x, more, rfl⟩ := List.exists_cons_of_ne_nil hne
  have hx : isGap x = true := hgap x (by simp)
  have hquote : x ≠ quoteChar single := by
    rintro rfl
    rw [isGap_quoteChar] at hx
    cases hx
  have hstop : chunkOf single c.rest = .ok ⟨[], 0, false⟩ := by
    rw [hc]
    refine chunkOf_stop (.inl hx) ?_
    rintro rfl rfl
    exact absurd rfl hquote
  have hat : c.at? (quoteChar single) = false := by
    simp [Cursor.at?, hc, hquote]
  have hleading : leadingGap c.rest = x :: more := by
    rw [hc]
    unfold leadingGap
    rw [List.takeWhile_append_of_pos hgap]
    cases rest with
    | nil => simp
    | cons y ys =>
      have hy : isGap y = false := by simpa using hrest
      simp [hy]
  have hrest' : c.rest ≠ [] := by simp [hc]
  rw [scanQuoted_succ _ _ hmark hrest', hstop]
  simp only [bind, Except.bind, Cursor.advance, hat, hleading, Bool.false_eq_true, if_false,
    List.nil_append]
  generalize scanQuoted single fuel _ = more
  cases more <;> rfl

theorem scanQuoted_mark (single : Bool) (fuel : Nat) {c : Cursor}
    (hmark : c.atDocumentMark = true) :
    scanQuoted single (fuel + 1) c = .error .documentMarkInQuotes := by
  rw [scanQuoted]
  simp [hmark, bind, Except.bind, throw, throwThe, MonadExceptOf.throw]

theorem scanQuoted_close {single : Bool} {fuel : Nat} {c : Cursor} {after : List Char}
    (hmark : c.atDocumentMark = false) (hc : c.rest = quoteChar single :: after)
    (hafter : single = true → after.head? ≠ some '\'') :
    scanQuoted single (fuel + 1) c = .ok ⟨[], c.next, false⟩ := by
  have hne : c.rest ≠ [] := by simp [hc]
  have hat : c.at? (quoteChar single) = true := by simp [Cursor.at?, hc]
  rw [scanQuoted_succ _ _ hmark hne, hc,
    chunkOf_stop (.inr rfl) fun hs _ => hafter hs]
  simp [bind, Except.bind, Cursor.advance, hat, pure, Except.pure]

/-- The scanner answers this outcome for a body, between whatever texts it stands, and stops behind
the closing quote. -/
def Scans (single : Bool) (body : List Char) (outcome : Except Error (List Char)) : Prop :=
  ∀ (fuel : Nat) (c : Cursor) (after : List Char), body.length < fuel →
    c.atDocumentMark = false → c.rest = body ++ quoteChar single :: after →
    (single = true → after.head? ≠ some '\'') →
    scanQuoted single fuel c =
      outcome.map fun text => ⟨text, c.advance (body.length + 1), false⟩

theorem Scans.close (single : Bool) : Scans single [] (.ok []) := by
  intro fuel c after hfuel hmark hc hafter
  obtain _ | fuel := fuel
  · exact absurd hfuel (Nat.not_lt_zero _)
  rw [scanQuoted_close hmark hc hafter]
  rfl

/-- A character that stands for `meant` uses no fuel up. -/
theorem Scans.behind {single : Bool} {written body : List Char} {meant : Char}
    {outcome : Except Error (List Char)} (hwritten : written ≠ [])
    (hbreak : ∀ x ∈ written, isBreak x = false)
    (hchunk : ∀ rest, chunkOf single (written ++ rest) =
      (chunkOf single rest).map (QuotedChunk.behind meant written.length))
    (h : Scans single body outcome) :
    Scans single (written ++ body) (outcome.map (meant :: ·)) := by
  intro fuel c after hfuel hmark hc hafter
  obtain _ | fuel := fuel
  · exact absurd hfuel (Nat.not_lt_zero _)
  rw [List.append_assoc] at hc
  have hrest : body ++ quoteChar single :: after ≠ [] := by simp
  obtain ⟨hmark', hscan⟩ := scanQuoted_behind hmark hc hwritten hbreak hrest (hchunk _)
  have hbody : body.length < fuel + 1 := by
    rw [List.length_append] at hfuel
    omega
  rw [hscan, h (fuel + 1) _ after hbody hmark' (Cursor.rest_advance_append hc) hafter,
    Cursor.advance_advance, List.length_append, Nat.add_assoc]
  cases outcome <;> rfl

theorem Scans.gap {single : Bool} {gap body : List Char} {outcome : Except Error (List Char)}
    (hne : gap ≠ []) (hgap : ∀ c ∈ gap, isGap c = true) (hbody : body.head?.any isGap = false)
    (h : ∀ (fuel : Nat) (c : Cursor) (after : List Char), body.length < fuel →
      c.atDocumentMark = (gap.getLast?.any isBreak && startsMark (body ++ [quoteChar single])) →
      c.rest = body ++ quoteChar single :: after →
      (single = true → after.head? ≠ some '\'') →
      scanQuoted single fuel c =
        outcome.map fun text => ⟨text, c.advance (body.length + 1), false⟩) :
    Scans single (gap ++ body) (outcome.map (foldGap gap ++ ·)) := by
  intro fuel c after hfuel hmark hc hafter
  rw [List.append_assoc] at hc
  have hhead : (body ++ quoteChar single :: after).head?.any isGap = false := by
    cases body with
    | nil => simp [isGap_quoteChar]
    | cons x more => simpa using hbody
  have hlength : 0 < gap.length := List.length_pos_iff.mpr hne
  rw [List.length_append] at hfuel
  obtain _ | _ | fuel := fuel
  · omega
  · omega
  rw [scanQuoted_gap hmark hc hne hgap hhead]
  -- Behind the gap the column is 0 only if the gap ends with a line end.
  have hmark' : (c.advance gap.length).atDocumentMark =
      (gap.getLast?.any isBreak && startsMark (body ++ [quoteChar single])) := by
    obtain ⟨_, line, column, index⟩ := c
    subst hc
    rw [Cursor.advance_append]
    by_cases hcolumn : columnAfter column gap = 0
    · rw [Cursor.atDocumentMark_eq hcolumn, (columnAfter_eq_zero_iff hne column).mp hcolumn]
      exact startsMark_quoted single body after
    · have hlast : gap.getLast?.any isBreak = false := by
        rw [columnAfter_eq_zero_iff hne] at hcolumn
        simpa using hcolumn
      rw [Cursor.atDocumentMark_of_column hcolumn, hlast, Bool.false_and]
  rw [h (fuel + 1) _ after (by omega) hmark' (Cursor.rest_advance_append hc) hafter,
    Cursor.advance_advance, List.length_append, Nat.add_assoc]
  cases outcome <;> rfl

/-- **A body is read the same wherever it stands.** -/
theorem Quoted.scans {single : Bool} {body : List Char} {outcome : Except Error (List Char)}
    (h : Quoted single body outcome) : Scans single body outcome := by
  induction h with
  | close => exact .close single
  | @raw x body outcome hx _ ih =>
    have hbreak : ∀ y ∈ [x], isBreak y = false := by
      simp only [isRaw, Bool.and_eq_true, Bool.not_eq_true', isGap, Bool.or_eq_false_iff] at hx
      simpa using hx.1.1.2
    exact ih.behind (List.cons_ne_nil x []) hbreak (chunkOf_raw hx)
  | @twice body outcome hs _ ih =>
    subst hs
    exact ih.behind (List.cons_ne_nil '\'' ['\'']) (by simp [isBreak]) chunkOf_twice
  | @escape written body meant outcome hs hbreak hread _ ih =>
    subst hs
    have hbreak' : ∀ x ∈ '\\' :: written, isBreak x = false :=
      List.forall_mem_cons.mpr ⟨by decide, hbreak⟩
    exact ih.behind (List.cons_ne_nil '\\' written) hbreak' fun rest =>
      chunkOf_escape hbreak (hread rest)
  | @gap gap body outcome hne hgap hbody hnext _ ih =>
    refine .gap hne hgap hbody fun fuel c after hfuel hmark hc hafter => ?_
    exact ih fuel c after hfuel (hmark.trans hnext) hc hafter
  | @mark gap body hne hgap hbody hnext =>
    let outcome : Except Error (List Char) := .error .documentMarkInQuotes
    have h : Scans single (gap ++ body) (outcome.map (foldGap gap ++ ·)) := by
      refine .gap hne hgap hbody fun fuel c after hfuel hmark hc hafter => ?_
      obtain _ | fuel := fuel
      · exact absurd hfuel (Nat.not_lt_zero _)
      rw [scanQuoted_mark single fuel (hmark.trans hnext)]
      rfl
    exact h

end ConfigTree.Yaml
