import ConfigTree.Document.Writing
import ConfigTree.Proofs.Yaml.Folding
import ConfigTree.Proofs.Yaml.Written

/-! # Scalars of a document

A key or leaf is written on one line: plain, between single or between double quotes, or as a JSON
string (`OnLine`).  However it is written, it is a scalar that is read the same wherever it stands
(`written_scalarChars`), and what is read is a string.  It is the text itself in the first three
cases.  A JSON string escapes nothing but quotes, backslashes and the characters below 32, so it can
have characters that no document may have, and gaps that do not stand for themselves: `survives`
tells apart the texts that are read back, as `survives_iff` says.
-/
namespace ConfigTree

namespace Yaml

/-! ### Plain scalars -/

/-- A text that may stand without quotes is a plain one. -/
theorem plainText_of_allowsPlain {cs : List Char} (hne : cs ≠ []) (h : allowsPlain cs = true) :
    PlainText cs ∧ startsLikeIndicator cs = false ∧ cs.head? ≠ some byteOrderMark := by
  simp only [allowsPlain, Bool.and_eq_true, List.all_eq_true, Bool.not_eq_true', bne_iff_ne] at h
  obtain ⟨⟨⟨⟨hchars, hfirst⟩, hlast⟩, hstart⟩, hindicator⟩ := h
  have hgap : ∀ c ∈ cs, isGap c = true → c = ' ' := by
    intro c hc hg
    obtain ⟨hprint, hbreak⟩ := hchars c hc
    simp only [isGap, isBlank, hbreak, Bool.or_false, Bool.or_eq_true, beq_iff_eq] at hg
    rcases hg with rfl | rfl
    · rfl
    · exact absurd hprint (by decide)
  obtain ⟨c, rest, rfl⟩ := List.exists_cons_of_ne_nil hne
  have hc : isGap c = false := by
    rw [← Bool.not_eq_true]
    intro hg
    exact hfirst (by rw [hgap c (by simp) hg]; rfl)
  have hmark : c ≠ byteOrderMark := by
    rintro rfl
    exact absurd (hchars byteOrderMark (by simp)).1 (by decide)
  have hcomment : c ≠ '#' := by
    rintro rfl
    exact absurd hstart (by simp [startsLikeIndicator])
  have hindicator : containsIndicator false (c :: rest) = false := by
    have hcolon : (c == ':' && startsGap rest) = false := by
      rw [← Bool.not_eq_true]
      intro hcolon
      rw [Bool.and_eq_true, beq_iff_eq] at hcolon
      obtain ⟨rfl, hends⟩ := hcolon
      exact absurd hstart (by simp [startsLikeIndicator, hends])
    simp only [containsIndicator, hcolon, Bool.and_false, Bool.false_or]
    simpa using hindicator
  exact ⟨(chunkFirst hgap hlast hindicator).plainText hc (by simpa using hcomment), hstart,
    by simpa using hmark⟩

/-- What is read as a string is the text itself. -/
theorem ofPlain_of_readsAsString {text : String} (h : readsAsString text = true) :
    Value.ofPlain text = .ok (.string text) := by
  have hself : ∀ {read}, Value.ofPlain text = .ok (.string read) → read = text := by
    -- Every other branch answers a value that is no string.
    intro read hread
    simp only [Value.ofPlain] at hread
    grind
  unfold readsAsString at h
  split at h
  · next read hread => rw [hread, hself hread]
  · cases h

theorem mem_singleText {n : Nat} {cs : List Char} {x : Char} (h : x ∈ singleText n cs) :
    x ∈ cs ∨ x = ' ' ∨ x = '\'' := by
  induction cs with
  | nil => cases h
  | cons c rest ih =>
    rw [singleText] at h
    split at h
    · simp only [List.cons_append, List.mem_cons, List.mem_append] at h
      rcases h with rfl | h | h
      · exact .inl (by simp)
      · split at h
        · cases h
        · exact .inr (.inl (List.eq_of_mem_replicate h))
      · rcases ih h with h | h
        · exact .inl (by simp [h])
        · exact .inr h
    split at h
    · simp only [List.mem_cons] at h
      rcases h with rfl | rfl | h
      · exact .inr (.inr rfl)
      · exact .inr (.inr rfl)
      · rcases ih h with h | h
        · exact .inl (by simp [h])
        · exact .inr h
    · rcases List.mem_cons.mp h with rfl | h
      · exact .inl (by simp)
      · rcases ih h with h | h
        · exact .inl (by simp [h])
        · exact .inr h

end Yaml

namespace Tree

open Yaml

/-! ### Scalars on a line -/

/-- Does the text have a line end that is written as an escape? -/
def hasLineFeed (text : String) : Bool :=
  text.toList.any fun c => c == '\n' || c == '\r'

/-- The four ways in which a text is written on a line. -/
inductive OnLine (text : String) : List Char → Prop where
  | json : hasLineFeed text = true →
    OnLine text ('"' :: (text.toList.flatMap Text.jsonChar ++ ['"']))
  | plain : hasLineFeed text = false → readsAsString text = true →
    allowsPlain text.toList = true → OnLine text text.toList
  | single : hasLineFeed text = false → allowsSingle text.toList = true →
    OnLine text ('\'' :: (singleText 2 text.toList ++ ['\'']))
  | double : hasLineFeed text = false →
    OnLine text ('"' :: (text.toList.flatMap doubleChar ++ ['"']))

theorem not_mem_of_hasLineFeed {text : String} (h : hasLineFeed text = false) :
    '\n' ∉ text.toList ∧ '\r' ∉ text.toList := by
  simp only [hasLineFeed, List.any_eq_false, Bool.or_eq_true, beq_iff_eq, not_or] at h
  exact ⟨fun hmem => (h _ hmem).1 rfl, fun hmem => (h _ hmem).2 rfl⟩

/-- A line end between quotes is one of the text that is not escaped. -/
theorem mem_of_mem_flatMap {f : Char → List Char} (hf : ∀ c, Spells c (f c)) {cs : List Char}
    {x : Char} (hx : x ∈ '"' :: (cs.flatMap f ++ ['"'])) (hbreak : isBreak x = true) :
    x ∈ cs ∧ x ∈ f x := by
  have hquote : x ≠ '"' := by
    rintro rfl
    cases hbreak
  have hx : x ∈ cs.flatMap f := by simpa [hquote] using hx
  have hgap : isGap x = true := by rw [isGap, hbreak, Bool.or_true]
  obtain ⟨c, hc, hmem⟩ := List.mem_flatMap.mp hx
  obtain ⟨-, rfl⟩ := (hf c).eq_of_gap hmem hgap
  exact ⟨hc, hmem⟩

theorem OnLine.no_lineFeed {text : String} {written : List Char} (h : OnLine text written) :
    '\n' ∉ written ∧ '\r' ∉ written := by
  cases h with
  | json _ =>
    refine ⟨fun hx => ?_, fun hx => ?_⟩
    · exact absurd (mem_of_mem_flatMap jsonChar_spells hx (by decide)).2 (by decide)
    · exact absurd (mem_of_mem_flatMap jsonChar_spells hx (by decide)).2 (by decide)
  | plain hline _ _ => exact not_mem_of_hasLineFeed hline
  | single hline _ =>
    obtain ⟨hn, hr⟩ := not_mem_of_hasLineFeed hline
    refine ⟨fun hx => ?_, fun hx => ?_⟩
    · have hx : '\n' ∈ singleText 2 text.toList := by simpa using hx
      exact absurd (mem_singleText hx) (by simp [hn])
    · have hx : '\r' ∈ singleText 2 text.toList := by simpa using hx
      exact absurd (mem_singleText hx) (by simp [hr])
  | double hline =>
    obtain ⟨hn, hr⟩ := not_mem_of_hasLineFeed hline
    refine ⟨fun hx => ?_, fun hx => ?_⟩
    · exact hn (mem_of_mem_flatMap doubleChar_spells hx (by decide)).1
    · exact hr (mem_of_mem_flatMap doubleChar_spells hx (by decide)).1

theorem onLine_scalarLine (text : String) : OnLine text (scalarLine text).toList := by
  unfold scalarLine
  cases hline : hasLineFeed text with
  | true =>
    have hline' : (text.toList.any fun c => c == '\n' || c == '\r') = true := hline
    rw [if_pos hline', Text.jsonQuoted, String.toList_ofList]
    exact .json hline
  | false =>
    have hline' : ¬ (text.toList.any fun c => c == '\n' || c == '\r') = true := by
      rw [Bool.not_eq_true]
      exact hline
    have hwritten : OnLine text (scalarText 2 text) := by
      have hfeed : text.toList.contains '\n' = false := by
        simpa using (not_mem_of_hasLineFeed hline).1
      unfold scalarText ScalarStyle.of
      simp only [hfeed, Bool.false_eq_true, if_false]
      by_cases hplain : (readsAsString text && allowsPlain text.toList) = true
      · rw [if_pos hplain]
        rw [Bool.and_eq_true] at hplain
        exact .plain hline hplain.1 hplain.2
      rw [if_neg hplain]
      by_cases hsingle : allowsSingle text.toList = true
      · rw [if_pos hsingle]
        exact .single hline hsingle
      · rw [if_neg hsingle]
        exact .double hline
    -- The style is kept, since what it writes is on one line.
    have hfeed : (scalarText 2 text).contains '\n' = false := by
      simpa using hwritten.no_lineFeed.1
    rw [if_neg hline']
    simp only [hfeed, Bool.false_eq_true, if_false, String.toList_ofList]
    exact hwritten

/-- The characters of a scalar as the reader sees them. -/
def scalarChars (text : String) : List Char := (scalarLine text).toList.map normalizeBreak

/-- The token of a scalar. -/
def scalarToken (text : String) : Except Error Token := readWritten (scalarChars text)

theorem writtenGap_of_escaped {f : Char → List Char} (htab : f '\t' ≠ ['\t'])
    (hfeed : f '\n' ≠ ['\n']) (hreturn : f '\r' ≠ ['\r']) (c : Char) (hc : f c = [c])
    (hgap : isGap c = true) : WrittenGap [c] := by
  intro d hd
  obtain rfl := List.mem_singleton.mp hd
  simp only [isGap, isBlank, Bool.or_eq_true, beq_iff_eq] at hgap
  rcases hgap with (rfl | rfl) | hbreak
  · exact .inl rfl
  · exact absurd hc htab
  · refine .inr ⟨hbreak, ?_, ?_⟩
    · rintro rfl
      exact hfeed hc
    · rintro rfl
      exact hreturn hc

theorem quoted_json (cs : List Char) :
    KeptByGaps cs (cs.flatMap Text.jsonChar) :=
  quoted_spells jsonChar_spells
    (writtenGap_of_escaped (by decide) (by decide) (by decide)) cs

/-- Between double quotes every line end is escaped. -/
theorem no_break_double (cs : List Char) : ∀ c ∈ cs.flatMap doubleChar, isBreak c = false := by
  intro c hc
  obtain ⟨d, -, hd⟩ := List.mem_flatMap.mp hc
  rw [← Bool.not_eq_true]
  intro hbreak
  have hgap : isGap c = true := by rw [isGap, hbreak, Bool.or_true]
  obtain ⟨hself, rfl⟩ := (doubleChar_spells d).eq_of_gap hd hgap
  have hescaped : ['\n', '\r', '\x85', '\u2028', '\u2029'].all (fun b => doubleChar b != [b]) =
      true := by decide
  have hmem : c ∈ ['\n', '\r', '\x85', '\u2028', '\u2029'] := by
    simpa [isBreak, or_assoc] using hbreak
  have hne := List.all_eq_true.mp hescaped c hmem
  rw [hself, bne_self_eq_false] at hne
  cases hne

theorem quoted_double (cs : List Char) :
    Quoted false ((cs.flatMap doubleChar).map normalizeBreak) (.ok cs) := by
  have hbreak := no_break_double cs
  have hnext : '\x85' ∉ cs.flatMap doubleChar := fun hmem => absurd (hbreak _ hmem) (by decide)
  have hkeeps : keepsGaps (cs.flatMap doubleChar) = true := by
    simp [keepsGaps, hnext, spaceAfterBreak_of_no_break hbreak,
      spaceBeforeBreak_of_no_break hbreak, markAfterBreak_of_no_break hbreak]
  obtain ⟨outcome, hquoted, hback⟩ :=
    quoted_spells doubleChar_spells
      (writtenGap_of_escaped (by decide) (by decide) (by decide)) cs
  rw [hback.eq_iff.mpr hkeeps] at hquoted
  exact hquoted

/-- What is read from a text on a line: a string, which is the text itself unless it is written as a
JSON string. -/
theorem OnLine.written {text : String} {written : List Char} (h : OnLine text written) :
    ∃ plain read, Written (written.map normalizeBreak)
        (read.map fun cs => .scalar plain (String.ofList cs)) ∧
      (plain = true → Value.ofPlain text = .ok (.string text) ∧ read = .ok text.toList) ∧
      (hasLineFeed text = false → read = .ok text.toList) ∧
      (hasLineFeed text = true →
        ReadsBack text.toList (keepsGaps (text.toList.flatMap Text.jsonChar) = true) read) := by
  have hquote : normalizeBreak '"' = '"' ∧ normalizeBreak '\'' = '\'' := by decide
  cases h with
  | json hline =>
    obtain ⟨outcome, hread, hback⟩ := quoted_json text.toList
    refine ⟨false, outcome, ?_, by simp, by simp [hline], fun _ => hback⟩
    rw [List.map_cons, List.map_append, List.map_singleton, hquote.1]
    exact .quoted hread
  | plain hline hstring hplain =>
    have hne : text.toList ≠ [] := by
      intro hnil
      obtain rfl : text = "" := by simpa using hnil
      exact absurd hstring (by decide)
    obtain ⟨htext, hstart, hmark⟩ := plainText_of_allowsPlain hne hplain
    refine ⟨true, .ok text.toList, ?_, fun _ => ⟨?_, rfl⟩, fun _ => rfl, by simp [hline]⟩
    · rw [map_normalizeBreak htext.no_break]
      exact .plain htext hstart hmark
    · exact ofPlain_of_readsAsString hstring
  | single hline hsingle =>
    have hread := quoted_singleText hsingle (not_mem_of_hasLineFeed hline).1
    refine ⟨false, .ok text.toList, ?_, by simp, fun _ => rfl, by simp [hline]⟩
    rw [List.map_cons, List.map_append, List.map_singleton, hquote.2]
    exact .quoted hread
  | double hline =>
    refine ⟨false, .ok text.toList, ?_, by simp, fun _ => rfl, by simp [hline]⟩
    rw [List.map_cons, List.map_append, List.map_singleton, hquote.1]
    exact .quoted (quoted_double text.toList)

/-- **Every text is written as a scalar that is read on its own.** -/
theorem written_scalarChars (text : String) : Written (scalarChars text) (scalarToken text) := by
  obtain ⟨plain, read, hread, -⟩ := (onLine_scalarLine text).written
  have hchars : Written (scalarChars text)
      (read.map fun cs => .scalar plain (String.ofList cs)) := hread
  rw [scalarToken, hchars.readWritten_eq]
  exact hchars

/-! ### Texts that are read back -/

/-- The text that is read from a document in which the text is written. -/
def readBack? (text : String) : Option String :=
  match scalarToken text with
  | .ok (.scalar _ read) => some read
  | _ => none

/-- Is the text read back from a document? -/
def survives (text : String) : Bool :=
  let written := text.toList.flatMap Text.jsonChar
  !hasLineFeed text || (written.all isAllowed && keepsGaps written)

/-- Whatever is read from a text is a string. -/
theorem scalarToken_eq_ok {text : String} {token : Token} (h : scalarToken text = .ok token) :
    ∃ plain read, token = .scalar plain read ∧ readBack? text = some read ∧
      (plain = true → Value.ofPlain read = .ok (.string read)) := by
  obtain ⟨plain, read, hwritten, hplain, -⟩ := (onLine_scalarLine text).written
  have htoken : scalarToken text = read.map fun cs => .scalar plain (String.ofList cs) :=
    hwritten.readWritten_eq
  cases read with
  | error e =>
    rw [htoken] at h
    cases h
  | ok cs =>
    obtain rfl : .scalar plain (String.ofList cs) = token := by
      rw [htoken] at h
      exact Except.ok.inj h
    refine ⟨plain, String.ofList cs, rfl, by simp [readBack?, htoken, Except.map], fun hp => ?_⟩
    obtain ⟨hstring, hcs⟩ := hplain hp
    obtain rfl : cs = text.toList := Except.ok.inj hcs
    rwa [String.ofList_toList]

theorem readBack?_eq_iff (text : String) : readBack? text = some text ↔
    (hasLineFeed text = true → keepsGaps (text.toList.flatMap Text.jsonChar) = true) := by
  obtain ⟨plain, read, hwritten, -, hself, hjson⟩ := (onLine_scalarLine text).written
  have htoken : scalarToken text = read.map fun cs => .scalar plain (String.ofList cs) :=
    hwritten.readWritten_eq
  have hread : readBack? text = some text ↔ read = .ok text.toList := by
    rw [readBack?, htoken]
    cases read with
    | error e => exact iff_of_false (by rintro ⟨⟩) (by rintro ⟨⟩)
    | ok cs =>
      simp only [Except.map, Option.some.injEq, Except.ok.injEq]
      exact ⟨fun h => by rw [← h, String.toList_ofList], fun h => by rw [h, String.ofList_toList]⟩
  rw [hread]
  cases hline : hasLineFeed text with
  | false => simp [hself hline]
  | true => simpa using (hjson hline).eq_iff

theorem isAllowed_of_isPrintable {c : Char} (h : isPrintable c = true) : isAllowed c = true := by
  simp only [isPrintable, Bool.or_eq_true, Bool.and_eq_true, decide_eq_true_eq, beq_iff_eq,
    bne_iff_ne] at h
  simp only [isAllowed, Bool.or_eq_true, Bool.and_eq_true, decide_eq_true_eq, beq_iff_eq]
  omega

theorem isAllowed_upperHex {width n : Nat} {x : Char}
    (h : x ∈ (Text.paddedHex width n).map Char.toUpper) : isAllowed x = true := by
  have hupper : ∀ d < 16, isAllowed (Char.toUpper (Nat.digitChar d)) = true := by decide
  obtain ⟨y, hy, rfl⟩ := List.mem_map.mp h
  obtain ⟨d, hd, rfl⟩ := mem_paddedHex hy
  exact hupper d hd

theorem isAllowed_doubleChar (c : Char) : ∀ x ∈ doubleChar c, isAllowed x = true := by
  have hcode : ∀ letter width, isAllowed letter = true →
      ∀ x ∈ '\\' :: letter :: (Text.paddedHex width c.toNat).map Char.toUpper,
        isAllowed x = true := by
    intro letter width hletter
    rw [List.forall_mem_cons, List.forall_mem_cons]
    exact ⟨by decide, hletter, fun x hx => isAllowed_upperHex hx⟩
  unfold doubleChar
  split
  · next hc =>
    rw [List.forall_mem_singleton]
    simp only [Bool.and_eq_true] at hc
    exact isAllowed_of_isPrintable hc.1.1.1
  split
  · next letter hlookup =>
    let p : Char → Char → Prop := fun _ letter => isAllowed letter = true
    have hletter : p c letter := of_lookup hlookup (by decide)
    rw [List.forall_mem_cons, List.forall_mem_singleton]
    exact ⟨by decide, hletter⟩
  by_cases h2 : c.toNat ≤ 0xff
  · simp only [if_pos h2]
    exact hcode 'x' 2 (by decide)
  by_cases h4 : c.toNat ≤ 0xffff
  · simp only [if_neg h2, if_pos h4]
    exact hcode 'u' 4 (by decide)
  · simp only [if_neg h2, if_neg h4]
    exact hcode 'U' 8 (by decide)

/-- Only a JSON string can have characters that no document may have. -/
theorem isAllowed_scalarLine_iff (text : String) :
    (∀ c ∈ (scalarLine text).toList, isAllowed c = true) ↔
      (hasLineFeed text = true → (text.toList.flatMap Text.jsonChar).all isAllowed = true) := by
  have hquotes : isAllowed '"' = true ∧ isAllowed '\'' = true := by decide
  have hline := onLine_scalarLine text
  generalize (scalarLine text).toList = written at hline
  cases hline with
  | json hfeed =>
    rw [List.forall_mem_cons, List.forall_mem_append, List.all_eq_true]
    simp only [hquotes, hfeed, List.forall_mem_singleton, true_and, and_true, forall_const]
  | plain hfeed _ hplain =>
    simp only [allowsPlain, Bool.and_eq_true, List.all_eq_true] at hplain
    refine iff_of_true (fun c hc => ?_) (by simp [hfeed])
    exact isAllowed_of_isPrintable (hplain.1.1.1.1 c hc).1
  | single hfeed hsingle =>
    simp only [allowsSingle, Bool.and_eq_true, List.all_eq_true] at hsingle
    refine iff_of_true (fun c hc => ?_) (by simp [hfeed])
    have hc : c ∈ singleText 2 text.toList ∨ c = '\'' := by simpa [or_comm] using hc
    rcases hc with hc | rfl
    · rcases mem_singleText hc with hc | rfl | rfl
      · exact isAllowed_of_isPrintable (hsingle.1.1 c hc)
      · decide
      · exact hquotes.2
    · exact hquotes.2
  | double hfeed =>
    refine iff_of_true (fun c hc => ?_) (by simp [hfeed])
    have hc : c ∈ text.toList.flatMap doubleChar ∨ c = '"' := by simpa [or_comm] using hc
    rcases hc with hc | rfl
    · obtain ⟨d, -, hd⟩ := List.mem_flatMap.mp hc
      exact isAllowed_doubleChar d c hd
    · exact hquotes.1

/-- **The texts that are read back**: all of them without line ends, and those that a JSON string
can hold. -/
theorem survives_iff (text : String) : survives text = true ↔
    (∀ c ∈ (scalarLine text).toList, isAllowed c = true) ∧ readBack? text = some text := by
  rw [isAllowed_scalarLine_iff, readBack?_eq_iff, survives]
  cases hasLineFeed text <;> simp

end Tree

end ConfigTree
