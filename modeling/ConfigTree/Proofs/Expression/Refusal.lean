import ConfigTree.Expression.Evaluation
import ConfigTree.Proofs.Expression.Words

/-! # What is refused

A text is `Foreign` to arithmetic if one of its characters is: a blank, a digit, a point, an
operator and a parenthesis are not, and an `e` is not where it marks the exponent of a number.
**No such text has a value** (`evaluate_of_foreign`).  It is refused, unless a literal stands in
front of all that could be refused whose number is too large: then it is this number that cannot be
computed with.
-/
namespace ConfigTree.Expression

open Text

/-! ### Characters -/

/-- Can the character belong to a number, also behind the first one? -/
def isNumeral (c : Char) : Bool :=
  c.isDigit || c == '.' || isExponentMark c

/-- Is the character between the two texts the exponent mark of a number? -/
def MarksExponent (before : List Char) (c : Char) (after : List Char) : Prop :=
  isExponentMark c = true ∧
    ∃ left whole exponent right, before = left ++ whole ∧ after = exponent ++ right ∧
      (Floating.read? double (whole ++ c :: exponent)).isSome = true ∧
      (∀ d ∈ left.getLast?, isNumeral d = false) ∧ ∀ d ∈ right.head?, isNumeral d = false

/-- Does the text have a character that does not belong to arithmetic? -/
def Foreign (text : List Char) : Prop :=
  ∃ before c after, text = before ++ c :: after ∧ isArithmetic c = false ∧
    ¬ MarksExponent before c after

theorem isNumeral_eq_false_iff {c : Char} :
    isNumeral c = false ↔ (c.isDigit || c == '.') = false ∧ isExponentMark c = false := by
  rw [isNumeral, Bool.or_eq_false_iff]

theorem start_of_isExponentMark {c : Char} (h : isExponentMark c = true) :
    Pending.start c = .ok ([], .name [c]) := by
  rcases Bool.or_eq_true_iff.mp h with he | he
  · rw [beq_iff_eq.mp he]
    rfl
  · rw [beq_iff_eq.mp he]
    rfl

/-- What is complete as it is belongs to arithmetic and to no number. -/
theorem isArithmetic_of_start {c : Char} {read : List Token}
    (h : Pending.start c = .ok (read, .nothing)) :
    isArithmetic c = true ∧ isNumeral c = false := by
  have hstarts := starts c
  rw [h] at hstarts
  cases hstarts with
  | symbol harithmetic =>
    refine ⟨harithmetic, ?_⟩
    by_contra hnumeral
    rw [isNumeral_eq_false_iff, not_and_or, Bool.not_eq_false, Bool.not_eq_false] at hnumeral
    rcases hnumeral with hplace | hmark
    · rw [start_of_place hplace] at h
      cases h
    · rw [start_of_isExponentMark hmark] at h
      cases h

theorem place_eq_false_of_extendsLiteral {read : List Char} {c : Char}
    (h : extendsLiteral read c = false) : (c.isDigit || c == '.') = false := by
  simp only [extendsLiteral, Bool.or_eq_false_iff] at h
  exact Bool.or_eq_false_iff.mpr h.1.1

/-- A literal has the characters of arithmetic and exponent marks. -/
theorem ReadLiteral.isArithmetic_or {read : List Char} (h : ReadLiteral read) :
    ∀ c ∈ read, isArithmetic c = true ∨ isExponentMark c = true := by
  have hplace {c : Char} (hc : (c.isDigit || c == '.') = true) : isArithmetic c = true := by
    rcases Bool.or_eq_true_iff.mp hc with hdigit | hpoint
    · rw [isArithmetic, hdigit, Bool.or_true, Bool.true_or]
    · rw [beq_iff_eq.mp hpoint]
      rfl
  induction h with
  | start hc => exact fun c hmem => .inl (List.mem_singleton.mp hmem ▸ hplace hc)
  | extend _ hc ih =>
    refine List.forall_mem_cons.mpr ⟨?_, ih⟩
    simp only [extendsLiteral, Bool.or_eq_true, Bool.and_eq_true] at hc
    rcases hc with ((hdigit | hpoint) | ⟨hmark, -⟩) | ⟨hsign, -⟩
    · exact .inl (hplace (by rw [hdigit, Bool.true_or]))
    · exact .inl (hplace (by rw [hpoint, Bool.or_true]))
    · exact .inr hmark
    · refine .inl ?_
      rcases hsign with hsign | hsign
      · rw [beq_iff_eq.mp hsign]
        rfl
      · rw [beq_iff_eq.mp hsign]
        rfl

/-! ### Texts that have tokens -/

theorem Cut.tokens_eq {text : List Char} {read : Except Fault (List Token)} (h : Cut text read) :
    tokens text = read := by
  induction h with
  | nil => rfl
  | refused hfault _ => exact hfault
  | failed hword => exact hword.tokens_append
  | word hword _ ih => rw [hword.tokens_append, ih]; rfl

/-- No text that has tokens starts with an exponent mark. -/
theorem isExponentMark_head_eq_false {text : List Char} {read : List Token}
    (h : tokens text = .ok read) : ∀ c ∈ text.head?, isExponentMark c = false := by
  intro c hc
  obtain ⟨rest, rfl⟩ := List.head?_eq_some_iff.mp hc
  by_contra hmark
  rw [Bool.not_eq_false] at hmark
  obtain ⟨word, hword⟩ := tokensFrom_name [c] rest
  rw [tokens_of_start (start_of_isExponentMark hmark), hword] at h
  cases h

/-- A word that has been read is a single character or a literal. -/
theorem Lexeme.single_or_literal {rest word : List Char} {read : List Token}
    (h : Lexeme rest word (.ok read)) :
    (∃ c, word = [c] ∧ isArithmetic c = true ∧ isNumeral c = false) ∨
      ∃ literal token, word = literal.reverse ∧ ReadLiteral literal ∧
        Token.ofLiteral literal.reverse = .ok token ∧
        ∀ c ∈ rest.head?, extendsLiteral literal c = false := by
  generalize hread : Except.ok read = result at h
  cases h with
  | symbol hstart => exact .inl ⟨_, rfl, isArithmetic_of_start hstart⟩
  | asterisk _ => exact .inl ⟨_, rfl, rfl, rfl⟩
  | literal hliteral hrest =>
    obtain ⟨token, htoken, -⟩ := map_eq_ok_iff.mp hread.symm
    exact .inr ⟨_, token, rfl, hliteral, htoken, hrest⟩

/-- In front of a number nothing stands that could belong to it. -/
theorem Lexeme.isNumeral_getLast?_eq_false {rest word : List Char} {read : List Token}
    (h : Lexeme rest word (.ok read)) :
    ∀ c ∈ rest.head?, (c.isDigit || c == '.') = true →
      ∀ d ∈ word.getLast?, isNumeral d = false := by
  intro c hc hplace
  rcases h.single_or_literal with ⟨symbol, rfl, -, hsymbol⟩ | ⟨literal, token, rfl, -, -, hrest⟩
  · simpa using hsymbol
  · rw [place_eq_false_of_extendsLiteral (hrest c hc)] at hplace
    cases hplace

/-- In a word that has been read, what does not belong to arithmetic marks an exponent. -/
theorem Lexeme.marksExponent {left before behind rest : List Char} {c : Char} {read : List Token}
    (h : Lexeme rest (before ++ c :: behind) (.ok read)) (hc : isArithmetic c = false)
    (hleft : ∀ d ∈ (before ++ c :: behind).head?, (d.isDigit || d == '.') = true →
      ∀ e ∈ left.getLast?, isNumeral e = false)
    (hright : ∀ d ∈ rest.head?, isExponentMark d = false) :
    MarksExponent (left ++ before) c (behind ++ rest) := by
  rcases h.single_or_literal with ⟨symbol, hword, harithmetic, -⟩ |
    ⟨literal, token, hword, hliteral, htoken, hrest⟩
  · have hmem : c ∈ [symbol] := by simp [← hword]
    rw [List.mem_singleton.mp hmem, harithmetic] at hc
    cases hc
  · have hmem : c ∈ literal.reverse := by simp [← hword]
    have hmark : isExponentMark c = true :=
      (hliteral.isArithmetic_or c (List.mem_reverse.mp hmem)).resolve_left (by simp [hc])
    have hdigits : literal.reverse.all Char.isDigit = false := by
      refine List.all_eq_false.mpr ⟨c, hmem, fun hdigit => ?_⟩
      rw [isArithmetic, hdigit, Bool.or_true, Bool.true_or] at hc
      cases hc
    have hnumber : (Floating.read? double literal.reverse).isSome = true := by
      simp only [Token.ofLiteral, hdigits, Bool.false_eq_true, if_false] at htoken
      split at htoken
      · next x hx => rw [hx, Option.isSome_some]
      · cases htoken
    refine ⟨hmark, left, before, behind, rest, rfl, rfl, hword ▸ hnumber, ?_, ?_⟩
    · rw [hword] at hleft
      obtain ⟨d, hd, hplace⟩ := hliteral.exists_head?_reverse
      exact hleft d hd hplace
    · exact fun d hd => isNumeral_eq_false_iff.mpr
        ⟨place_eq_false_of_extendsLiteral (hrest d hd), hright d hd⟩

/-- The same in a text, whatever has been read before. -/
theorem Cut.marksExponent {text : List Char} {result : Except Fault (List Token)}
    (h : Cut text result) {read : List Token} (hread : result = .ok read)
    {left before after : List Char} {c : Char} (htext : text = before ++ c :: after)
    (hc : isArithmetic c = false)
    (hleft : ∀ d ∈ text.head?, (d.isDigit || d == '.') = true →
      ∀ e ∈ left.getLast?, isNumeral e = false) :
    MarksExponent (left ++ before) c after := by
  induction h generalizing read left before with
  | nil => simp at htext
  | refused _ _ => cases hread
  | failed _ => cases hread
  | @word word rest first others hword hrest ih =>
    obtain ⟨more, hothers, -⟩ := map_eq_ok_iff.mp hread
    have hbehind {between : List Char} (hbetween : rest = between ++ c :: after) :
        MarksExponent (left ++ word ++ between) c after := by
      refine ih hothers hbetween fun d hd hplace => ?_
      rw [List.getLast?_append_of_ne_nil _ hword.ne_nil]
      exact hword.isNumeral_getLast?_eq_false d hd hplace
    rcases List.append_eq_append_iff.mp htext with ⟨between, rfl, hbetween⟩ |
      ⟨between, rfl, hbetween⟩
    · rw [← List.append_assoc]
      exact hbehind hbetween
    · cases between with
      | nil =>
        have hrest : rest = [] ++ c :: after := hbetween.symm
        simpa using hbehind hrest
      | cons d behind =>
        obtain ⟨rfl, rfl⟩ := List.cons.inj hbetween
        rw [List.head?_append_of_ne_nil _ hword.ne_nil] at hleft
        exact hword.marksExponent hc hleft
          (isExponentMark_head_eq_false (hrest.tokens_eq.trans hothers))

/-- **No text that has tokens is foreign to arithmetic.** -/
theorem not_foreign {text : List Char} {read : List Token} (h : tokens text = .ok read) :
    ¬ Foreign text := by
  rintro ⟨before, c, after, htext, hc, hmarks⟩
  have hleft : ∀ d ∈ text.head?, (d.isDigit || d == '.') = true →
      ∀ e ∈ ([] : List Char).getLast?, isNumeral e = false := by simp
  exact hmarks ((cut_tokens text).marksExponent h htext hc hleft)

/-! ### Literals that are too large -/

/-- Does the literal stand between the two texts, as long as it can be? -/
structure IsLiteral (before literal after : List Char) : Prop where
  read : ReadLiteral literal.reverse
  starts : ∀ c ∈ before.getLast?, (c.isDigit || c == '.') = false
  ends : ∀ c ∈ after.head?, extendsLiteral literal.reverse c = false

theorem IsLiteral.ne_nil {before literal after : List Char} (h : IsLiteral before literal after) :
    literal ≠ [] :=
  List.reverse_ne_nil_iff.mp h.read.ne_nil

theorem IsLiteral.exists_head? {before literal after : List Char}
    (h : IsLiteral before literal after) :
    ∃ c ∈ literal.head?, (c.isDigit || c == '.') = true := by
  have hhead := h.read.exists_head?_reverse
  rwa [List.reverse_reverse] at hhead

/-- Is the number too large for its kind?  Without a point and an exponent it has to fit into 64
bits, and with them it has to be finite. -/
def TooLarge (literal : List Char) : Prop :=
  (literal.all Char.isDigit = true ∧
      IntegerRange.signed64.greatest < Nat.ofDigitChars 10 literal 0) ∨
    (literal.all Char.isDigit = false ∧
      ∃ x, Floating.read? double literal = some x ∧ x.isFinite = false)

/-- A number that is too large is a fault in the numbers, and the only one that a literal has. -/
theorem tooLarge_iff {literal : List Char} (hne : literal ≠ []) :
    TooLarge literal ↔
      ∃ fault, Token.ofLiteral literal = .error fault ∧ fault.isRefusal = false := by
  cases hdigits : literal.all Char.isDigit with
  | true =>
    have hcontains : IntegerRange.signed64.contains (Nat.ofDigitChars 10 literal 0) = false ↔
        IntegerRange.signed64.greatest < Nat.ofDigitChars 10 literal 0 := by
      rw [← Bool.not_eq_true, IntegerRange.contains_iff]
      simp only [IntegerRange.signed64]
      omega
    rw [ofLiteral_digits hne (List.all_eq_true.mp hdigits)]
    simp only [TooLarge, hdigits, true_and, Bool.true_eq_false, false_and, or_false, ← hcontains]
    split
    · next hfits => simp [hfits]
    · next hfits => simpa [Fault.isRefusal] using hfits
  | false =>
    simp only [TooLarge, hdigits, Token.ofLiteral, Bool.false_eq_true, if_false, false_and,
      true_and, false_or]
    split
    · next x hx =>
      split
      · next hfinite => simp [hx, hfinite]
      · next hfinite => simpa [hx, Fault.isRefusal] using hfinite
    · next hnone => simp [hnone, Fault.isRefusal]

/-- A word stays one if a literal is put behind the text that it starts, unless it ends the text and
the literal goes on from it. -/
theorem Lexeme.append {word rest more : List Char} {read : List Token}
    (h : Lexeme rest word (.ok read)) (hmore : ∀ c ∈ more.head?, (c.isDigit || c == '.') = true)
    (hlast : rest = [] → ∀ c ∈ word.getLast?, (c.isDigit || c == '.') = false) :
    Lexeme (rest ++ more) word (.ok read) := by
  cases rest with
  | cons c rest => exact h.of_head (by simp)
  | nil =>
    have hlast : ∀ c ∈ word.getLast?, (c.isDigit || c == '.') = false := hlast rfl
    generalize hread : Except.ok read = result at h ⊢
    cases h with
    | symbol hstart => exact .symbol hstart
    | asterisk _ =>
      refine .asterisk fun c hc hasterisk => ?_
      rw [List.nil_append] at hc
      have hplace := hmore c hc
      rw [hasterisk] at hplace
      cases hplace
    | literal hliteral _ =>
      obtain ⟨token, htoken, -⟩ := map_eq_ok_iff.mp hread.symm
      obtain ⟨c, hc⟩ := Option.ne_none_iff_exists'.mp
        (mt List.getLast?_eq_none_iff.mp (List.reverse_ne_nil_iff.mpr hliteral.ne_nil))
      have hplace := hliteral.place_of_ofLiteral htoken c hc
      rw [hlast c hc] at hplace
      cases hplace

/-- What has tokens is read in front of a literal as it is alone. -/
theorem Cut.tokens_append {text : List Char} {result : Except Fault (List Token)}
    (h : Cut text result) {read : List Token} (hread : result = .ok read) {more : List Char}
    (hmore : ∀ c ∈ more.head?, (c.isDigit || c == '.') = true)
    (hlast : ∀ c ∈ text.getLast?, (c.isDigit || c == '.') = false) :
    tokens (text ++ more) = (tokens more).map (read ++ ·) := by
  induction h generalizing read with
  | nil =>
    cases hread
    exact (map_nil_append _).symm
  | refused _ _ => cases hread
  | failed _ => cases hread
  | @word word rest first others hword hrest ih =>
    obtain ⟨behind, hothers, rfl⟩ := map_eq_ok_iff.mp hread
    have hends : rest = [] → ∀ c ∈ word.getLast?, (c.isDigit || c == '.') = false := by
      rintro rfl
      rwa [List.append_nil] at hlast
    have htail : ∀ c ∈ rest.getLast?, (c.isDigit || c == '.') = false := fun c hc =>
      hlast c (by rw [List.getLast?_append, hc]; rfl)
    rw [List.append_assoc, (hword.append hmore hends).tokens_append, ih hothers htail]
    cases tokens more with
    | error fault => rfl
    | ok others => exact congrArg Except.ok (List.append_assoc ..).symm

/-- **What cannot be computed with is a literal that is too large**, behind a text with tokens; -/
theorem Cut.exists_isLiteral {text : List Char} {result : Except Fault (List Token)}
    (h : Cut text result) {fault : Fault} (hfault : result = .error fault)
    (hrefusal : fault.isRefusal = false) :
    ∃ before literal after read, text = before ++ literal ++ after ∧ tokens before = .ok read ∧
      IsLiteral before literal after ∧ TooLarge literal := by
  induction h with
  | nil => cases hfault
  | refused _ hother =>
    cases hfault
    rw [hrefusal] at hother
    cases hother
  | @failed word rest other hword =>
    cases hfault
    generalize hread : Except.error fault = result at hword
    cases hword with
    | symbol _ => cases hread
    | asterisk _ => cases hread
    | @literal read hliteral hrest =>
      have hends : IsLiteral [] read.reverse rest := by
        refine ⟨?_, by simp, ?_⟩ <;> rwa [List.reverse_reverse]
      exact ⟨[], read.reverse, rest, [], rfl, rfl, hends, (tooLarge_iff hends.ne_nil).mpr
        ⟨fault, map_eq_error_iff.mp hread.symm, hrefusal⟩⟩
  | @word word rest first others hword _ ih =>
    obtain ⟨before, literal, after, read, rfl, hread, hliteral, hlarge⟩ :=
      ih (map_eq_error_iff.mp hfault)
    have hbefore : ∀ c ∈ before.head?, c ∈ (before ++ literal ++ after).head? := by
      intro c hc
      rw [List.append_assoc, List.head?_append, hc]
      rfl
    refine ⟨word ++ before, literal, after, first ++ read, by simp only [List.append_assoc], ?_,
      ⟨hliteral.read, fun c hc => ?_, hliteral.ends⟩, hlarge⟩
    · rw [(hword.of_head hbefore).tokens_append, hread]
      rfl
    · rw [List.getLast?_append, Option.mem_def, Option.or_eq_some_iff] at hc
      rcases hc with hc | ⟨hnil, hc⟩
      · exact hliteral.starts c hc
      · obtain rfl : before = [] := List.getLast?_eq_none_iff.mp hnil
        obtain ⟨d, hd, hplace⟩ := hliteral.exists_head?
        have hrest : d ∈ ([] ++ literal ++ after).head? := by
          rw [List.nil_append, List.head?_append, hd]
          rfl
        exact (isNumeral_eq_false_iff.mp
          (hword.isNumeral_getLast?_eq_false d hrest hplace c hc)).1

/-- and no text with such a literal in it can be. -/
theorem IsLiteral.exists_fault {before literal after : List Char} {read : List Token}
    (h : IsLiteral before literal after) (hread : tokens before = .ok read)
    (hlarge : TooLarge literal) :
    ∃ fault, tokens (before ++ literal ++ after) = .error fault ∧ fault.isRefusal = false := by
  obtain ⟨fault, hfault, hrefusal⟩ := (tooLarge_iff h.ne_nil).mp hlarge
  have hhead : ∀ c ∈ (literal ++ after).head?, (c.isDigit || c == '.') = true := by
    have hliteral := h.read.head?_reverse
    rw [List.reverse_reverse] at hliteral
    rwa [List.head?_append_of_ne_nil _ h.ne_nil]
  have hword : Lexeme after literal ((Token.ofLiteral literal).map ([·])) := by
    have hlexeme := Lexeme.literal h.read h.ends
    rwa [List.reverse_reverse] at hlexeme
  refine ⟨fault, ?_, hrefusal⟩
  rw [List.append_assoc, (cut_tokens before).tokens_append hread hhead h.starts,
    hword.tokens_append, hfault]
  rfl

/-! ### Foreign texts -/

/-- **A text that is foreign to arithmetic has no value.**  It is refused, unless a literal that is
too large stands in front of all that could be refused. -/
theorem evaluate_of_foreign {text : String} (h : Foreign text.toList) :
    ∃ fault, evaluate text = .error fault ∧
      (fault.isRefusal = false ↔
        ∃ before literal after read, text.toList = before ++ literal ++ after ∧
          tokens before = .ok read ∧ IsLiteral before literal after ∧ TooLarge literal) := by
  cases hread : tokens text.toList with
  | ok read => exact absurd h (not_foreign hread)
  | error fault =>
    refine ⟨fault, by rw [evaluate, hread]; rfl, fun hrefusal => ?_, ?_⟩
    · exact (cut_tokens text.toList).exists_isLiteral hread hrefusal
    · rintro ⟨before, literal, after, read, htext, hbefore, hliteral, hlarge⟩
      obtain ⟨other, hother, hrefusal⟩ := hliteral.exists_fault hbefore hlarge
      rw [← htext, hread] at hother
      rwa [Except.error.inj hother]

/-- The exponent is too large, and the name behind it is not reached. -/
theorem evaluate_of_foreign_exponent :
    Foreign "2*1e999-x".toList ∧
      ∃ fault, evaluate "2*1e999-x" = .error fault ∧ fault.isRefusal = false := by
  have hforeign : Foreign "2*1e999-x".toList :=
    ⟨"2*1e999-".toList, 'x', [], rfl, rfl, fun hmarks => absurd hmarks.1 (by decide)⟩
  have hliteral : IsLiteral "2*".toList "1e999".toList "-x".toList := by
    refine ⟨?_, fun c hc => ?_, fun c hc => ?_⟩
    · exact .extend (.extend (.extend (.extend (.start rfl) rfl) rfl) rfl) rfl
    · obtain rfl : '*' = c := Option.some.inj hc
      rfl
    · obtain rfl : '-' = c := Option.some.inj hc
      rfl
  have hlarge : TooLarge "1e999".toList := .inr ⟨rfl, .infinite false, rfl, rfl⟩
  obtain ⟨fault, hfault, hrefusal⟩ := evaluate_of_foreign hforeign
  exact ⟨hforeign, fault, hfault,
    hrefusal.mpr ⟨_, _, _, _, rfl, rfl, hliteral, hlarge⟩⟩

/-- **Not all that is foreign to arithmetic is refused**: the name is not reached. -/
theorem foreign_not_refused :
    Foreign "99999999999999999999x".toList ∧
      evaluate "99999999999999999999x" =
        .error (.integerLiteral "99999999999999999999") ∧
      (Fault.integerLiteral "99999999999999999999").isRefusal = false := by
  refine ⟨⟨"99999999999999999999".toList, 'x', [], rfl, rfl, fun hmarks => ?_⟩, ?_, rfl⟩
  · exact absurd hmarks.1 (by decide)
  · rfl

end ConfigTree.Expression
