import ConfigTree.Expression.Token.Lexer
import ConfigTree.Proofs.Text.Digits

/-! # Reading tokens

What is pending takes the characters that extend it, and is complete at the first one that does not
(`tokensFrom_complete`).  What is read from there on does not depend on it.
-/
namespace ConfigTree.Expression

open Text

theorem isBlank_of_isDigit {d : Char} (h : d.isDigit = true) : isBlank d = false := by
  obtain ⟨hlow, hhigh⟩ := isDigit_iff.mp h
  have hlow : '0'.toNat ≤ d.toNat := hlow
  have hhigh : d.toNat ≤ '9'.toNat := hhigh
  rw [show '0'.toNat = 48 from rfl] at hlow
  rw [show '9'.toNat = 57 from rfl] at hhigh
  simp only [isBlank, Bool.or_eq_false_iff, Bool.and_eq_false_iff, decide_eq_false_iff_not,
    beq_eq_false_iff_ne]
  omega

/-- A digit starts a literal. -/
theorem start_of_isDigit {d : Char} (h : d.isDigit = true) :
    Pending.start d = .ok ([], .literal [d]) := by
  have hother : ∀ {c : Char}, c.isDigit = false → d ≠ c := by
    rintro c hc rfl
    rw [hc] at h
    cases h
  simp only [Pending.start, isBlank_of_isDigit h, hother (c := '+') rfl, hother (c := '-') rfl,
    hother (c := '/') rfl, hother (c := '(') rfl, hother (c := ')') rfl, hother (c := '*') rfl, h,
    Bool.true_or, Bool.false_eq_true, if_false, if_true]

theorem isExponentMark_eq_false {c : Char} (h : (c.isDigit || c == '.') = true) :
    isExponentMark c = false := by
  rw [isExponentMark, Bool.or_eq_false_iff, beq_eq_false_iff_ne, beq_eq_false_iff_ne]
  constructor
  · rintro rfl
    cases h
  · rintro rfl
    cases h

/-- The tokens that a character completes stand in front of those of the rest. -/
theorem tokensFrom_cons {pending next : Pending} {c : Char} {before : List Token}
    (h : pending.feed c = .ok (before, next)) (rest : List Char) :
    tokensFrom pending (c :: rest) = (tokensFrom next rest).map (before ++ ·) := by
  rw [tokensFrom, h]
  show (tokensFrom next rest >>= fun after => pure (before ++ after)) = _
  cases tokensFrom next rest <;> rfl

/-- A character that extends what is pending completes nothing. -/
theorem tokensFrom_extend {pending next : Pending} {c : Char} (hp : pending ≠ .asterisk)
    (h : pending.extend? c = some next) (rest : List Char) :
    tokensFrom pending (c :: rest) = tokensFrom next rest := by
  have hguard : (pending = .asterisk && c == '*') = false := by simp [hp]
  have hfeed : pending.feed c = .ok ([], next) := by
    simp only [Pending.feed, hguard, h, Bool.false_eq_true, if_false]
  rw [tokensFrom_cons hfeed]
  cases tokensFrom next rest <;> rfl

theorem tokensFrom_places {places rest read : List Char}
    (h : ∀ c ∈ places, (c.isDigit || c == '.') = true) :
    tokensFrom (.literal read) (places ++ rest) =
      tokensFrom (.literal (places.reverse ++ read)) rest := by
  induction places generalizing read with
  | nil => rfl
  | cons c places ih =>
    obtain ⟨hc, hplaces⟩ := List.forall_mem_cons.mp h
    have hextends : Pending.extend? (.literal read) c = some (.literal (c :: read)) := by
      simp only [Pending.extend?, extendsLiteral, hc, Bool.true_or, if_true]
    rw [List.cons_append, tokensFrom_extend (by simp) hextends, ih hplaces, List.reverse_cons,
      List.append_assoc, List.singleton_append]

/-- Does the character start something new? -/
def Pending.EndsAt (pending : Pending) (c : Char) : Prop :=
  pending.extend? c = none ∧ ¬ (pending = .asterisk ∧ c = '*')

theorem Pending.EndsAt.feed_eq {pending : Pending} {c : Char} (h : pending.EndsAt c) :
    pending.feed c = pending.complete >>= fun before =>
      (start c).map fun started => (before ++ started.1, started.2) := by
  obtain ⟨hextend, hpower⟩ := h
  have hguard : (pending = .asterisk && c == '*') = false := by simpa using hpower
  unfold feed
  simp only [hguard, hextend, Bool.false_eq_true, if_false]
  rcases pending.complete with fault | before
  · rfl
  · rcases start c with fault | started <;> rfl

theorem Pending.feed_nothing (c : Char) : Pending.nothing.feed c = start c := by
  have hends : Pending.nothing.EndsAt c := ⟨rfl, nofun⟩
  rw [hends.feed_eq]
  rcases start c with fault | started <;> rfl

/-- What is pending is complete, if the next character starts something new. -/
theorem tokensFrom_complete {pending : Pending} {text : List Char}
    (h : ∀ c ∈ text.head?, pending.EndsAt c) :
    tokensFrom pending text =
      pending.complete >>= fun before => (tokens text).map (before ++ ·) := by
  rcases text with _ | ⟨c, rest⟩
  · rw [tokens, tokensFrom, tokensFrom]
    rcases pending.complete with fault | before
    · rfl
    · show _ = Except.ok (before ++ [])
      rw [List.append_nil]
  · have hends : pending.EndsAt c := h c rfl
    rw [tokens, tokensFrom, tokensFrom, hends.feed_eq, Pending.feed_nothing]
    rcases pending.complete with fault | before
    · rfl
    · rcases Pending.start c with fault | ⟨after, next⟩
      · rfl
      · show (tokensFrom next rest >>= fun others => pure ((before ++ after) ++ others)) =
          (tokensFrom next rest >>= fun others => pure (after ++ others)).map (before ++ ·)
        rcases tokensFrom next rest with fault | others
        · rfl
        · show Except.ok _ = Except.ok _
          rw [List.append_assoc]

/-- The tokens that a text starts with stand in front of those of the rest. -/
theorem tokens_of_start {c : Char} {read : List Token} {next : Pending}
    (h : Pending.start c = .ok (read, next)) (rest : List Char) :
    tokens (c :: rest) = (tokensFrom next rest).map (read ++ ·) :=
  tokensFrom_cons ((Pending.feed_nothing c).trans h) rest

theorem map_nil_append (read : Except Fault (List Token)) : read.map ([] ++ ·) = read := by
  cases read <;> rfl

theorem tokens_digit {d : Char} (h : d.isDigit = true) (rest : List Char) :
    tokens (d :: rest) = tokensFrom (.literal [d]) rest :=
  (tokens_of_start (start_of_isDigit h) rest).trans (map_nil_append _)

/-- Digits are a number, if it fits. -/
theorem ofLiteral_digits {digits : List Char} (hne : digits ≠ [])
    (hdigits : ∀ c ∈ digits, c.isDigit = true) :
    Token.ofLiteral digits =
      if IntegerRange.signed64.contains (Nat.ofDigitChars 10 digits 0) then
        .ok (.number (.int (Nat.ofDigitChars 10 digits 0)))
      else .error (.integerLiteral (String.ofList digits)) := by
  simp only [Token.ofLiteral, List.all_eq_true.mpr hdigits, readNat?_eq hne hdigits, if_true]

end ConfigTree.Expression
