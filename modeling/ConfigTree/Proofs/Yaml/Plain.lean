import ConfigTree.Proofs.Yaml.Cursor
import ConfigTree.Yaml.Scalar
import ConfigTree.Yaml.Token.Scalar

/-! # Reading plain scalars

A plain text is a row of chunks with spaces between them (`PlainText`).  It is read as it stands,
wherever a text follows at which plain scalars end (`PlainEnds`): `PlainText.scan`.  Unlike a quoted
scalar, a plain one takes the gap behind it along, to see whether it goes on there.
-/
namespace ConfigTree.Yaml

/-- Characters that a plain scalar takes at once. -/
structure PlainChunk (chunk : List Char) : Prop where
  ne_nil : chunk ≠ []
  no_gap : ∀ c ∈ chunk, isGap c = false
  /-- No colon in it is the start of a value, the last one included. -/
  no_indicator : containsIndicator false chunk = false
  no_comment : chunk.head? ≠ some '#'

/-- Chunks with spaces between them. -/
inductive PlainText : List Char → Prop where
  | last {chunk : List Char} : PlainChunk chunk → PlainText chunk
  | more {chunk rest : List Char} {n : Nat} : PlainChunk chunk → n ≠ 0 → PlainText rest →
    PlainText (chunk ++ (List.replicate n ' ' ++ rest))

/-- A place at which plain scalars end, those that have to be indented by `indent`. -/
structure PlainEnds (indent : Int) (c : Cursor) : Prop where
  no_chunk : plainChunk false c.rest = .ok []
  no_tab : '\t' ∉ leadingGap c.rest
  /-- Behind the gap there is less indentation, nothing or a comment. -/
  stops : leadingGap c.rest ≠ [] →
    ((c.advance (leadingGap c.rest).length).column : Int) < indent ∨
      (c.advance (leadingGap c.rest).length).rest = [] ∨
      (c.advance (leadingGap c.rest).length).at? '#' = true

theorem plainChunk_append {chunk rest : List Char} (hgap : ∀ c ∈ chunk, isGap c = false)
    (hindicator : containsIndicator false chunk = false) (hrest : plainChunk false rest = .ok []) :
    plainChunk false (chunk ++ rest) = .ok chunk := by
  induction chunk with
  | nil => exact hrest
  | cons c more ih =>
    obtain ⟨hc, hmore⟩ := List.forall_mem_cons.mp hgap
    simp only [containsIndicator, hc, Bool.and_false, Bool.or_false, Bool.or_eq_false_iff]
      at hindicator
    have hstart : c == ':' → startsGap (more ++ rest) = false := by
      intro hcolon
      have hstart := hindicator.1
      rw [hcolon, Bool.true_and] at hstart
      cases more with
      | nil => cases hstart
      | cons d _ => exact hstart
    have hread := ih hmore hindicator.2
    simp only [List.cons_append, plainChunk, hc, hread, Bool.false_eq_true, if_false,
      Bool.false_and]
    split
    · next hcolon =>
      rw [hstart hcolon]
      rfl
    · rfl

theorem hasLowTab_eq_false {gap : List Char} (h : '\t' ∉ gap) (indent column : Int)
    (afterBreak : Bool) : hasLowTab indent column afterBreak gap = false := by
  induction gap generalizing column afterBreak with
  | nil => rfl
  | cons c rest ih =>
    rw [List.mem_cons, not_or] at h
    obtain ⟨hc, hrest⟩ := h
    have hc : (c == '\t') = false := by simpa using Ne.symm hc
    simp [hasLowTab, ih hrest, hc]

theorem foldGap_spaces (n : Nat) : foldGap (List.replicate n ' ') = List.replicate n ' ' := by
  have hfilter : (List.replicate n ' ').filter isBreak = [] := by
    rw [List.filter_replicate_of_neg (by decide)]
  simp [foldGap, hfilter]

/-- A step of the scanner, in terms of the chunk. -/
theorem scanPlain_chunk {indent : Int} {fuel : Nat} {gap chunk rest : List Char} {c : Cursor}
    (hmark : c.atDocumentMark = false) (hc : c.rest = chunk ++ rest) (hchunk : PlainChunk chunk)
    (hrest : plainChunk false rest = .ok []) (htab : '\t' ∉ leadingGap rest) :
    scanPlain false indent (fuel + 1) gap c =
      (let after := c.advance chunk.length
      let between := leadingGap rest
      let beyond := after.advance between.length
      if between.isEmpty then .ok ⟨foldGap gap ++ chunk, after, false⟩
      else if beyond.column < indent then .ok ⟨foldGap gap ++ chunk, beyond, between.any isBreak⟩
      else (scanPlain false indent fuel between beyond).map fun more =>
        { more with text := foldGap gap ++ chunk ++ more.text }) := by
  obtain ⟨hne, hgap, hindicator, hcomment⟩ := hchunk
  have hread := plainChunk_append hgap hindicator hrest
  have hempty : chunk.isEmpty = false := by simpa using hne
  have hat : c.at? '#' = false := by
    obtain ⟨x, more, rfl⟩ := List.exists_cons_of_ne_nil hne
    simpa [Cursor.at?, hc] using hcomment
  have hrest' : (c.advance chunk.length).rest = rest := by
    obtain ⟨_, line, column, index⟩ := c
    subst hc
    rw [Cursor.advance_append]
  rw [scanPlain]
  simp only [hmark, hat, Bool.or_self, Bool.false_eq_true, if_false, hc, hread, bind, Except.bind,
    pure, Except.pure, hempty, hrest', hasLowTab_eq_false htab, Bool.not_false, Bool.true_and,
    decide_eq_true_eq]
  split
  · rfl
  split
  · rfl
  · cases scanPlain false indent fuel (leadingGap rest)
      ((c.advance chunk.length).advance (leadingGap rest).length) <;> rfl

theorem scanPlain_stop {indent : Int} {fuel : Nat} {gap : List Char} {c : Cursor}
    (h : c.rest = [] ∨ c.at? '#' = true) :
    scanPlain false indent (fuel + 1) gap c = .ok ⟨[], c, gap.any isBreak⟩ := by
  rw [scanPlain]
  rcases h with h | h
  · have hat : c.at? '#' = false := by simp [Cursor.at?, h]
    simp only [hat, Bool.or_false, h, plainChunk, bind, Except.bind, pure, Except.pure,
      List.isEmpty_nil, if_true, ite_self]
  · simp only [h, Bool.or_true, if_true, bind, Except.bind, pure, Except.pure]

namespace PlainText

theorem exists_chunk {cs : List Char} (h : PlainText cs) :
    ∃ chunk rest, cs = chunk ++ rest ∧ PlainChunk chunk := by
  cases h with
  | last hchunk => exact ⟨cs, [], by simp, hchunk⟩
  | more hchunk _ _ => exact ⟨_, _, rfl, hchunk⟩

/-- A plain text begins with no gap and no comment. -/
theorem head_eq {cs : List Char} (h : PlainText cs) :
    ∃ c rest, cs = c :: rest ∧ isGap c = false ∧ c ≠ '#' := by
  obtain ⟨chunk, rest, rfl, hne, hgap, -, hcomment⟩ := h.exists_chunk
  cases chunk with
  | nil => exact absurd rfl hne
  | cons c more =>
    refine ⟨c, more ++ rest, rfl, hgap c (by simp), ?_⟩
    rintro rfl
    exact hcomment rfl

theorem no_break {cs : List Char} (h : PlainText cs) : ∀ c ∈ cs, isBreak c = false := by
  have hchunk : ∀ {chunk}, PlainChunk chunk → ∀ c ∈ chunk, isBreak c = false := by
    intro chunk h c hc
    have hgap := h.no_gap c hc
    rw [isGap, Bool.or_eq_false_iff] at hgap
    exact hgap.2
  induction h with
  | last h => exact hchunk h
  | more h _ _ ih =>
    intro c hc
    rw [List.mem_append, List.mem_append] at hc
    rcases hc with hc | hc | hc
    · exact hchunk h c hc
    · rw [List.eq_of_mem_replicate hc]
      decide
    · exact ih c hc

end PlainText

/-- Behind a chunk and spaces, and from there on. -/
theorem advance_spaces {chunk : List Char} (hchunk : PlainChunk chunk) {n : Nat} (k : Nat)
    {rest : List Char} {line column index : Nat} :
    Cursor.advance (chunk.length + n + k)
        ⟨chunk ++ (List.replicate n ' ' ++ rest), line, column, index⟩ =
      Cursor.advance k ⟨rest, line, column + (chunk.length + n), index + (chunk.length + n)⟩ := by
  have hbreak : ∀ c ∈ chunk ++ List.replicate n ' ', isBreak c = false := by
    rw [List.forall_mem_append]
    exact ⟨(PlainText.last hchunk).no_break, isBreak_of_mem_spaces⟩
  have hadvance := Cursor.advance_of_no_break hbreak rest line column index
  rw [List.length_append, List.length_replicate, List.append_assoc] at hadvance
  rw [← Cursor.advance_advance, hadvance]

/-- The last chunk, at a place behind it where plain scalars end. -/
theorem scanPlain_last {chunk tail gap : List Char} (hchunk : PlainChunk chunk) {indent : Int}
    {fuel line column index : Nat}
    (hmark : Cursor.atDocumentMark ⟨chunk ++ tail, line, column, index⟩ = false)
    (hends : PlainEnds indent (Cursor.advance chunk.length ⟨chunk ++ tail, line, column, index⟩)) :
    scanPlain false indent (fuel + 2) gap ⟨chunk ++ tail, line, column, index⟩ =
      .ok ⟨foldGap gap ++ chunk,
        Cursor.advance (chunk.length + (leadingGap tail).length)
          ⟨chunk ++ tail, line, column, index⟩,
        (leadingGap tail).any isBreak⟩ := by
  rw [← Cursor.advance_advance]
  obtain ⟨hnone, htab, hstops⟩ := hends
  have hrest : (Cursor.advance chunk.length ⟨chunk ++ tail, line, column, index⟩).rest = tail := by
    rw [Cursor.advance_append]
  rw [hrest] at hnone htab hstops
  rw [scanPlain_chunk hmark rfl hchunk hnone htab]
  by_cases hgap : leadingGap tail = []
  · simp [hgap, Cursor.advance]
  · have hempty : (leadingGap tail).isEmpty = false := by simpa using hgap
    simp only [hempty, Bool.false_eq_true, if_false]
    rcases hstops hgap with hlow | hstop
    · rw [if_pos hlow]
    · split
      · rfl
      · rw [scanPlain_stop hstop]
        simp [Except.map]

theorem leadingGap_spaces {n : Nat} {rest : List Char} (hrest : startsGap rest = false) :
    leadingGap (List.replicate n ' ' ++ rest) = List.replicate n ' ' := by
  have hspace : ∀ c ∈ List.replicate n ' ', isGap c = true := by
    intro c hc
    rw [List.eq_of_mem_replicate hc]
    decide
  cases rest with
  | nil => cases hrest
  | cons x xs =>
    have hx : isGap x = false := hrest
    rw [leadingGap, List.takeWhile_append_of_pos hspace, List.takeWhile_cons_of_neg (by simp [hx]),
      List.append_nil]

/-- A chunk with spaces behind it: the scanner goes on behind them, further to the right. -/
theorem scanPlain_spaces {chunk rest gap : List Char} (hchunk : PlainChunk chunk) {n : Nat}
    (hn : n ≠ 0) (hrest : startsGap rest = false) {indent : Int} {fuel line column index : Nat}
    (hmark : Cursor.atDocumentMark ⟨chunk ++ (List.replicate n ' ' ++ rest), line, column, index⟩ =
      false)
    (hindent : indent ≤ column + 1) :
    scanPlain false indent (fuel + 1) gap
        ⟨chunk ++ (List.replicate n ' ' ++ rest), line, column, index⟩ =
      (scanPlain false indent fuel (List.replicate n ' ')
        ⟨rest, line, column + (chunk.length + n), index + (chunk.length + n)⟩).map fun more =>
          { more with text := foldGap gap ++ chunk ++ more.text } := by
  have hspaces := leadingGap_spaces (n := n) hrest
  have hempty : (List.replicate n ' ').isEmpty = false := by simpa using hn
  have hnone : plainChunk false (List.replicate n ' ' ++ rest) = .ok [] := by
    obtain ⟨m, rfl⟩ := Nat.exists_eq_succ_of_ne_zero hn
    rw [List.replicate_succ, List.cons_append, plainChunk]
    simp [isGap, isBlank]
  have htab : '\t' ∉ leadingGap (List.replicate n ' ' ++ rest) := by
    rw [hspaces]
    intro h
    exact absurd (List.eq_of_mem_replicate h) (by decide)
  have hbeyond : Cursor.advance (chunk.length + n)
      ⟨chunk ++ (List.replicate n ' ' ++ rest), line, column, index⟩ =
        ⟨rest, line, column + (chunk.length + n), index + (chunk.length + n)⟩ :=
    advance_spaces hchunk 0
  have hhigh : ¬ (((column + (chunk.length + n) : Nat) : Int) < indent) := by omega
  rw [scanPlain_chunk hmark rfl hchunk hnone htab]
  simp only [hspaces, hempty, List.length_replicate, Cursor.advance_advance, hbeyond,
    Bool.false_eq_true, if_false]
  rw [if_neg hhigh]

/-- **A plain text is read as it stands.** -/
theorem PlainText.scan {cs : List Char} (h : PlainText cs) {indent : Int} {fuel : Nat}
    {gap tail : List Char} {line column index : Nat} (hfuel : cs.length < fuel)
    (hmark : Cursor.atDocumentMark ⟨cs ++ tail, line, column, index⟩ = false)
    (hindent : indent ≤ column + 1)
    (hends : PlainEnds indent (Cursor.advance cs.length ⟨cs ++ tail, line, column, index⟩)) :
    scanPlain false indent fuel gap ⟨cs ++ tail, line, column, index⟩ =
      .ok ⟨foldGap gap ++ cs,
        Cursor.advance (cs.length + (leadingGap tail).length) ⟨cs ++ tail, line, column, index⟩,
        (leadingGap tail).any isBreak⟩ := by
  induction h generalizing fuel gap line column index with
  | @last chunk hchunk =>
    have hlength : 0 < chunk.length := List.length_pos_iff.mpr hchunk.ne_nil
    obtain _ | _ | fuel := fuel
    · exact absurd hfuel (Nat.not_lt_zero _)
    · omega
    exact scanPlain_last hchunk hmark hends
  | @more chunk rest n hchunk hn hrest ih =>
    obtain _ | fuel := fuel
    · exact absurd hfuel (Nat.not_lt_zero _)
    obtain ⟨x, xs, rfl, hx, -⟩ := hrest.head_eq
    have hstart : startsGap (x :: xs ++ tail) = false := hx
    have htext : chunk ++ (List.replicate n ' ' ++ x :: xs) ++ tail =
        chunk ++ (List.replicate n ' ' ++ (x :: xs ++ tail)) := by simp
    have hlength : (chunk ++ (List.replicate n ' ' ++ x :: xs)).length =
        chunk.length + n + (x :: xs).length := by
      simp only [List.length_append, List.length_replicate]
      omega
    -- Behind the spaces the scanner is not at the start of a line, so at no document mark.
    have hcolumn : column + (chunk.length + n) ≠ 0 := by omega
    have hmark' : Cursor.atDocumentMark ⟨x :: xs ++ tail, line, column + (chunk.length + n),
        index + (chunk.length + n)⟩ = false :=
      Cursor.atDocumentMark_of_column hcolumn
    rw [hlength] at hfuel
    rw [htext, hlength, advance_spaces hchunk] at hends
    rw [htext] at hmark ⊢
    rw [hlength, scanPlain_spaces hchunk hn hstart hmark hindent, Nat.add_assoc (chunk.length + n),
      advance_spaces hchunk, ih (by omega) hmark' (by omega) hends]
    simp only [Except.map, foldGap_spaces, List.append_assoc]

/-- A chunk, perhaps an empty one, and what comes behind it in a plain text. -/
def ChunkFirst (cs : List Char) : Prop :=
  ∃ chunk tail, cs = chunk ++ tail ∧ (∀ c ∈ chunk, isGap c = false) ∧
    containsIndicator false chunk = false ∧
    (tail = [] ∨ ∃ n rest, n ≠ 0 ∧ PlainText rest ∧ tail = List.replicate n ' ' ++ rest)

theorem ChunkFirst.plainText {cs : List Char} (h : ChunkFirst cs) (hgap : startsGap cs = false)
    (hcomment : cs.head? ≠ some '#') : PlainText cs := by
  obtain ⟨chunk, tail, rfl, hchunk, hindicator, htail⟩ := h
  have hne : chunk ≠ [] := by
    rintro rfl
    rcases htail with rfl | ⟨n, rest, hn, -, rfl⟩
    · cases hgap
    · obtain ⟨m, rfl⟩ := Nat.exists_eq_succ_of_ne_zero hn
      cases hgap
  have hhead : chunk.head? ≠ some '#' := by
    obtain ⟨c, more, rfl⟩ := List.exists_cons_of_ne_nil hne
    exact hcomment
  have hplain : PlainChunk chunk := ⟨hne, hchunk, hindicator, hhead⟩
  rcases htail with rfl | ⟨n, rest, hn, hrest, rfl⟩
  · rw [List.append_nil]
    exact .last hplain
  · exact .more hplain hn hrest

/-- A character in front of the chunk, which gets longer by it. -/
theorem ChunkFirst.cons {cs : List Char} (h : ChunkFirst cs) {c : Char} (hc : isGap c = false)
    (hcolon : (c == ':' && startsGap cs) = false) : ChunkFirst (c :: cs) := by
  obtain ⟨chunk, tail, rfl, hchunk, hinner, htail⟩ := h
  refine ⟨c :: chunk, tail, rfl, List.forall_mem_cons.mpr ⟨hc, hchunk⟩, ?_, htail⟩
  simp only [containsIndicator, hc, hinner, Bool.and_false, Bool.or_false]
  cases chunk with
  | nil =>
    rcases htail with rfl | ⟨n, rest, hn, -, rfl⟩
    · exact hcolon
    · obtain ⟨m, rfl⟩ := Nat.exists_eq_succ_of_ne_zero hn
      exact hcolon
  | cons d more => exact hcolon

/-- A space in front: the chunk is empty, and behind the space is a text or a further space. -/
theorem ChunkFirst.space {cs : List Char} (h : ChunkFirst cs) (hcomment : cs.head? ≠ some '#')
    (hlast : cs ≠ []) : ChunkFirst (' ' :: cs) := by
  refine ⟨[], ' ' :: cs, rfl, by simp, rfl, .inr ?_⟩
  cases hstart : startsGap cs with
  | false => exact ⟨1, cs, by decide, h.plainText hstart hcomment, rfl⟩
  | true =>
    obtain ⟨chunk, tail, rfl, hchunk, -, htail⟩ := h
    cases chunk with
    | cons d more =>
      have hd : isGap d = true := hstart
      rw [hchunk d (by simp)] at hd
      cases hd
    | nil =>
      rcases htail with rfl | ⟨n, rest, hn, hplain, rfl⟩
      · exact absurd rfl hlast
      · exact ⟨n + 1, rest, Nat.succ_ne_zero n, hplain, rfl⟩

/-- Characters form a plain text, from any chunk on, if there are no indicators among them, their
gaps are spaces and they do not end with one. -/
theorem chunkFirst {cs : List Char} {afterGap : Bool} (hgap : ∀ c ∈ cs, isGap c = true → c = ' ')
    (hlast : cs.getLast? ≠ some ' ') (hindicator : containsIndicator afterGap cs = false) :
    ChunkFirst cs := by
  induction cs generalizing afterGap with
  | nil => exact ⟨[], [], rfl, by simp, rfl, .inl rfl⟩
  | cons c rest ih =>
    obtain ⟨hc, hrest⟩ := List.forall_mem_cons.mp hgap
    simp only [containsIndicator, Bool.or_eq_false_iff] at hindicator
    obtain ⟨⟨hcolon, -⟩, hindicator⟩ := hindicator
    have hlast' : rest.getLast? ≠ some ' ' := by
      cases rest with
      | nil => simp
      | cons d more => rwa [List.getLast?_cons_cons] at hlast
    have hfirst := ih hrest hlast' hindicator
    cases hcgap : isGap c with
    | false => exact hfirst.cons hcgap hcolon
    | true =>
      obtain rfl := hc hcgap
      refine hfirst.space ?_ ?_
      · intro hhash
        obtain ⟨more, rfl⟩ := List.head?_eq_some_iff.mp hhash
        simp [containsIndicator, isGap, isBlank] at hindicator
      · rintro rfl
        exact hlast rfl

end ConfigTree.Yaml
