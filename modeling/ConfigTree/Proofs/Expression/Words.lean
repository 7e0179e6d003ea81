import ConfigTree.Proofs.Expression.Lexer
import ConfigTree.Proofs.Floating.Decimal
import ConfigTree.Proofs.Outcome

/-! # A text as the words it is made of

The lexer takes a text apart into words, each as long as it can be: blanks, operators, parentheses
and literals (`Lexeme`).  It goes on until the text ends, or a literal is no number, or something is
refused that no arithmetic has (`Cut`).  What is read of a word does not depend on the others, but
for where the next one starts.
-/
namespace ConfigTree.Expression

open Text

/-! ### Words -/

/-- What the lexer can have read of a literal, in reverse. -/
inductive ReadLiteral : List Char → Prop where
  | start {c : Char} : (c.isDigit || c == '.') = true → ReadLiteral [c]
  | extend {read : List Char} {c : Char} :
      ReadLiteral read → extendsLiteral read c = true → ReadLiteral (c :: read)

/-- A word with `rest` behind it, and the tokens that are read for it. -/
inductive Lexeme (rest : List Char) : List Char → Except Fault (List Token) → Prop where
  | symbol {c : Char} {read : List Token} :
      Pending.start c = .ok (read, .nothing) → Lexeme rest [c] (.ok read)
  | asterisk : (∀ c ∈ rest.head?, c ≠ '*') → Lexeme rest ['*'] (.ok [.operator .multiply])
  | literal {read : List Char} :
      ReadLiteral read → (∀ c ∈ rest.head?, extendsLiteral read c = false) →
      Lexeme rest read.reverse ((Token.ofLiteral read.reverse).map ([·]))

/-- A text and the tokens that are read for its words, up to the first fault. -/
inductive Cut : List Char → Except Fault (List Token) → Prop where
  | nil : Cut [] (.ok [])
  | refused {text : List Char} {fault : Fault} :
      tokens text = .error fault → fault.isRefusal = true → Cut text (.error fault)
  | failed {word rest : List Char} {fault : Fault} :
      Lexeme rest word (.error fault) → Cut (word ++ rest) (.error fault)
  | word {word rest : List Char} {read : List Token} {others : Except Fault (List Token)} :
      Lexeme rest word (.ok read) → Cut rest others →
      Cut (word ++ rest) (others.map (read ++ ·))

/-! ### Literals -/

/-- A digit or a point starts a literal. -/
theorem start_of_place {d : Char} (h : (d.isDigit || d == '.') = true) :
    Pending.start d = .ok ([], .literal [d]) := by
  rcases Bool.or_eq_true_iff.mp h with hdigit | hpoint
  · exact start_of_isDigit hdigit
  · rw [beq_iff_eq.mp hpoint]
    rfl

namespace ReadLiteral

variable {read : List Char}

/-- The lexer gets as far as the literal has been read. -/
theorem tokens_append (h : ReadLiteral read) (rest : List Char) :
    tokens (read.reverse ++ rest) = tokensFrom (.literal read) rest := by
  induction h generalizing rest with
  | start hc => exact (tokens_of_start (start_of_place hc) rest).trans (map_nil_append _)
  | @extend read c _ hc ih =>
    have hextend : Pending.extend? (.literal read) c = some (.literal (c :: read)) := by
      rw [Pending.extend?, if_pos hc]
    rw [List.reverse_cons, List.append_assoc, ih, List.singleton_append,
      tokensFrom_extend (by simp) hextend]

theorem ne_nil (h : ReadLiteral read) : read ≠ [] := by
  cases h <;> simp

/-- A literal starts with a digit or with its point. -/
theorem head?_reverse (h : ReadLiteral read) :
    ∀ c ∈ read.reverse.head?, (c.isDigit || c == '.') = true := by
  induction h with
  | start hc => simpa using hc
  | extend h _ ih =>
    rw [List.reverse_cons, List.head?_append_of_ne_nil _ (by simpa using h.ne_nil)]
    exact ih

theorem exists_head?_reverse (h : ReadLiteral read) :
    ∃ c ∈ read.reverse.head?, (c.isDigit || c == '.') = true := by
  obtain ⟨c, rest, hread⟩ := List.exists_cons_of_ne_nil (List.reverse_ne_nil_iff.mpr h.ne_nil)
  have hc : c ∈ read.reverse.head? := by rw [hread]; rfl
  exact ⟨c, hc, h.head?_reverse c hc⟩

/-- A literal goes as far as it can. -/
theorem exists_longest (h : ReadLiteral read) (rest : List Char) :
    ∃ longest more, ReadLiteral longest ∧ read.reverse ++ rest = longest.reverse ++ more ∧
      ∀ c ∈ more.head?, extendsLiteral longest c = false := by
  induction rest generalizing read with
  | nil => exact ⟨read, [], h, rfl, by simp⟩
  | cons c rest ih =>
    cases hc : extendsLiteral read c with
    | false => exact ⟨read, c :: rest, h, rfl, by simpa using hc⟩
    | true =>
      obtain ⟨longest, more, hlongest, htext, hends⟩ := ih (h.extend hc)
      exact ⟨longest, more, hlongest, by simpa using htext, hends⟩

/-- A literal that is a number ends in a digit or in its point. -/
theorem place_of_ofLiteral (h : ReadLiteral read) {token : Token}
    (hread : Token.ofLiteral read.reverse = .ok token) :
    ∀ c ∈ read.reverse.getLast?, (c.isDigit || c == '.') = true := by
  intro c hc
  by_cases hdigits : read.reverse.all Char.isDigit = true
  · rw [List.all_eq_true.mp hdigits c (List.mem_of_getLast? hc), Bool.true_or]
  · obtain ⟨d, rest, hword⟩ := List.exists_cons_of_ne_nil (List.reverse_ne_nil_iff.mpr h.ne_nil)
    have hd : (d.isDigit || d == '.') = true := h.head?_reverse d (by rw [hword]; rfl)
    simp only [Token.ofLiteral, if_neg hdigits] at hread
    split at hread
    · next x hx =>
      rw [hword, (Floating.read?_of_place double hd _).1] at hx
      rw [hword] at hc
      exact Floating.place_of_readUnsigned? hx c hc
    · cases hread

end ReadLiteral

/-! ### Cutting a text -/

/-- Does arithmetic have the character, wherever it stands? -/
def isArithmetic (c : Char) : Bool :=
  isBlank c || c.isDigit || ['.', '+', '-', '*', '/', '(', ')'].contains c

/-- What a character can start. -/
inductive Starts (c : Char) : Except Fault (List Token × Pending) → Prop where
  | symbol {read : List Token} : isArithmetic c = true → Starts c (.ok (read, .nothing))
  | asterisk : c = '*' → Starts c (.ok ([], .asterisk))
  | literal : (c.isDigit || c == '.') = true → Starts c (.ok ([], .literal [c]))
  | name : Starts c (.ok ([], .name [c]))
  | refused {fault : Fault} : fault.isRefusal = true → Starts c (.error fault)

theorem starts (c : Char) : Starts c (Pending.start c) := by
  unfold Pending.start
  split
  · next hblank => exact .symbol (by rw [isArithmetic, hblank, Bool.true_or, Bool.true_or])
  iterate 5
    split
    · next hsymbol => exact .symbol (hsymbol ▸ rfl)
  split
  · next hasterisk => exact .asterisk hasterisk
  split
  · next hplace => exact .literal hplace
  split
  · exact .name
  split
  · exact .refused rfl
  · exact .refused rfl

/-- A name is refused. -/
theorem tokensFrom_name (read rest : List Char) :
    ∃ word, tokensFrom (.name read) rest = .error (.name word) := by
  induction rest generalizing read with
  | nil => exact ⟨_, rfl⟩
  | cons c rest ih =>
    cases hc : isNameChar c with
    | true =>
      have hextend : Pending.extend? (.name read) c = some (.name (c :: read)) := by
        rw [Pending.extend?, if_pos hc]
      rw [tokensFrom_extend (by simp) hextend]
      exact ih (c :: read)
    | false =>
      have hends : ∀ d ∈ (c :: rest).head?, (Pending.name read).EndsAt d := by
        simpa [Pending.EndsAt, Pending.extend?] using hc
      rw [tokensFrom_complete hends]
      exact ⟨_, rfl⟩

namespace Lexeme

variable {word rest : List Char} {read : Except Fault (List Token)}

/-- The tokens of a word stand in front of those of the rest. -/
theorem tokens_append (h : Lexeme rest word read) :
    tokens (word ++ rest) = read >>= fun first => (tokens rest).map (first ++ ·) := by
  cases h with
  | symbol hstart => exact tokens_of_start hstart rest
  | asterisk hrest =>
    have hends : ∀ c ∈ rest.head?, Pending.asterisk.EndsAt c := fun c hc =>
      ⟨rfl, fun he => hrest c hc he.2⟩
    have hstart : Pending.start '*' = .ok ([], .asterisk) := rfl
    rw [List.singleton_append, tokens_of_start hstart, map_nil_append, tokensFrom_complete hends]
    rfl
  | @literal literal hliteral hrest =>
    have hends : ∀ c ∈ rest.head?, (Pending.literal literal).EndsAt c := fun c hc =>
      ⟨by rw [Pending.extend?, hrest c hc]; rfl, nofun⟩
    rw [hliteral.tokens_append, tokensFrom_complete hends]
    rfl

theorem ne_nil (h : Lexeme rest word read) : word ≠ [] := by
  cases h with
  | literal hliteral _ => simpa using hliteral.ne_nil
  | _ => simp

/-- A word ends where it does whatever follows the next character. -/
theorem of_head {other : List Char} (h : Lexeme rest word read)
    (hother : ∀ c ∈ other.head?, c ∈ rest.head?) : Lexeme other word read := by
  cases h with
  | symbol hstart => exact .symbol hstart
  | asterisk hrest => exact .asterisk fun c hc => hrest c (hother c hc)
  | literal hliteral hrest => exact .literal hliteral fun c hc => hrest c (hother c hc)

end Lexeme

/-- A text starts with a word, or it is refused. -/
theorem exists_lexeme (c : Char) (text : List Char) :
    (∃ fault, tokens (c :: text) = .error fault ∧ fault.isRefusal = true) ∨
      ∃ word rest read, c :: text = word ++ rest ∧ Lexeme rest word read := by
  have hstarts := starts c
  generalize hstart : Pending.start c = started at hstarts
  cases hstarts with
  | symbol _ => exact .inr ⟨[c], text, _, rfl, .symbol hstart⟩
  | asterisk hasterisk =>
    subst hasterisk
    by_cases htext : ∀ d ∈ text.head?, d ≠ '*'
    · exact .inr ⟨['*'], text, _, rfl, .asterisk htext⟩
    · cases text with
      | nil => exact absurd (by simp) htext
      | cons d rest =>
        obtain rfl : d = '*' := by simpa using htext
        exact .inl ⟨.power, rfl, rfl⟩
  | literal hplace =>
    obtain ⟨longest, more, hlongest, htext, hends⟩ :=
      (ReadLiteral.start hplace).exists_longest text
    exact .inr ⟨longest.reverse, more, _, htext, .literal hlongest hends⟩
  | name =>
    obtain ⟨word, hword⟩ := tokensFrom_name [c] text
    refine .inl ⟨.name word, ?_, rfl⟩
    rw [tokens_of_start hstart, hword]
    rfl
  | refused hrefusal =>
    refine .inl ⟨_, ?_, hrefusal⟩
    rw [tokens, tokensFrom, Pending.feed_nothing, hstart]
    rfl

/-- **Every text is cut into words**, up to the first fault. -/
theorem cut_tokens (text : List Char) : Cut text (tokens text) := by
  induction hlength : text.length using Nat.strongRecOn generalizing text with
  | ind n ih =>
  subst hlength
  cases text with
  | nil => exact .nil
  | cons c text =>
    rcases exists_lexeme c text with ⟨fault, hfault, hrefusal⟩ | ⟨word, rest, read, htext, h⟩
    · rw [hfault]
      exact .refused hfault hrefusal
    · have hless : rest.length < (c :: text).length := by
        rw [htext, List.length_append]
        exact Nat.lt_add_of_pos_left (List.length_pos_iff.mpr h.ne_nil)
      rw [htext, h.tokens_append]
      cases read with
      | error fault => exact .failed h
      | ok first => exact .word h (ih _ hless rest rfl)

end ConfigTree.Expression
