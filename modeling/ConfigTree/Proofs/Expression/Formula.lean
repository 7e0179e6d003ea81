import ConfigTree.Proofs.Expression.Fitting
import ConfigTree.Proofs.Expression.Lexer

/-! # Formulas and their texts

A `Formula` is an arithmetic expression over the natural numbers, as a tree.  It is written with the
parentheses that are in the tree and with those that the precedence of the operators demands
(`Formula.grouped`): products bind more tightly than sums, signs more tightly than products, and
operators of one kind associate to the left.

A text of a formula has its tokens, in order, with any blanks between them (`Spaced`).  **The tokens
are read back from it**, if the literals fit into 64 bits (`tokens_eq_of_spaced`), since no two
tokens that follow each other in a formula can be read as one (`Formula.separate`).
-/
namespace ConfigTree.Expression

open Text

/-! ### Formulas -/

/-- The operations that lead from integers to integers. -/
inductive Operation where
  | add
  | subtract
  | multiply
deriving DecidableEq, Repr

namespace Operation

/-- The operator that the operation is written with. -/
def operator : Operation → Operator
  | add => .add
  | subtract => .subtract
  | multiply => .multiply

/-- What the operation does to integers. -/
def apply : Operation → Int → Int → Int
  | add => (· + ·)
  | subtract => (· - ·)
  | multiply => (· * ·)

/-- How tightly the operator binds its operands. -/
def level : Operation → Nat
  | add | subtract => 0
  | multiply => 1

theorem level_le (operation : Operation) : operation.level ≤ 1 := by
  rcases operation <;> decide

theorem isTight_operator (operation : Operation) :
    operation.operator.isTight = false ↔ operation.level = 0 := by
  rcases operation <;> decide

end Operation

/-- An arithmetic expression.  Signs and parentheses are part of it. -/
inductive Formula where
  | literal (n : Nat)
  | sign (negative : Bool) (operand : Formula)
  | binary (operation : Operation) (left right : Formula)
  | group (inner : Formula)
deriving DecidableEq, Repr

namespace Formula

/-- The exact value. -/
def value : Formula → Int
  | literal n => n
  | sign negative operand => if negative then -operand.value else operand.value
  | binary operation left right => operation.apply left.value right.value
  | group inner => inner.value

/-- Do all literals and the values of all formulas within it fit into 64 bits? -/
def Fits : Formula → Prop
  | literal n => IntegerRange.signed64.contains n = true
  | sign negative operand =>
    operand.Fits ∧ IntegerRange.signed64.contains (sign negative operand).value = true
  | binary operation left right => left.Fits ∧ right.Fits ∧
      IntegerRange.signed64.contains (binary operation left right).value = true
  | group inner => inner.Fits

/-- How deep signs and parentheses are nested. -/
def nesting : Formula → Nat
  | literal _ => 0
  | sign _ operand => operand.nesting + 1
  | binary _ left right => max left.nesting right.nesting
  | group inner => inner.nesting + 1

/-- How tightly the formula holds together: sums at level 0, products at level 1, and what is not
torn apart by any operator at level 2. -/
def level : Formula → Nat
  | binary operation _ _ => operation.level
  | _ => 2

/-- The formula where one of at least some level is needed. -/
def fit (least : Nat) (formula : Formula) : Formula :=
  if formula.level < least then group formula else formula

/-- The formula with all parentheses that it needs. -/
def grouped : Formula → Formula
  | literal n => literal n
  | sign negative operand => sign negative (operand.grouped.fit 2)
  | binary operation left right => binary operation (left.grouped.fit operation.level)
      (right.grouped.fit (operation.level + 1))
  | group inner => group inner.grouped

/-- Does the formula have all parentheses that it needs?  Operands on the right have to be of a
higher level than the operator, as operators of one level associate to the left. -/
inductive Grouped : Formula → Prop where
  | literal (n : Nat) : Grouped (literal n)
  | sign {operand : Formula} (negative : Bool) : 2 ≤ operand.level → Grouped operand →
      Grouped (sign negative operand)
  | binary {left right : Formula} (operation : Operation) : operation.level ≤ left.level →
      operation.level + 1 ≤ right.level → Grouped left → Grouped right →
      Grouped (binary operation left right)
  | group {inner : Formula} : Grouped inner → Grouped (group inner)

section Fit

variable {formula : Formula} {least : Nat}

theorem le_level_fit (h : least ≤ 2) : least ≤ (formula.fit least).level := by
  unfold fit
  split
  · exact h
  · omega

theorem Grouped.fit (h : formula.Grouped) : (formula.fit least).Grouped := by
  unfold Formula.fit
  split
  · exact .group h
  · exact h

@[simp] theorem value_fit : (formula.fit least).value = formula.value := by
  unfold fit
  split <;> rfl

@[simp] theorem fits_fit : (formula.fit least).Fits ↔ formula.Fits := by
  unfold fit
  split <;> rfl

theorem fit_eq_self (h : least ≤ formula.level) : formula.fit least = formula :=
  if_neg (by omega)

end Fit

/-- **The parentheses that are put in are enough**, -/
theorem grouped_grouped (formula : Formula) : formula.grouped.Grouped := by
  induction formula with
  | literal n => exact .literal n
  | sign negative operand ih => exact .sign negative (le_level_fit (by decide)) ih.fit
  | binary operation left right ihl ihr =>
    have hlevel := operation.level_le
    exact .binary operation (le_level_fit (by omega)) (le_level_fit (by omega)) ihl.fit ihr.fit
  | group inner ih => exact .group ih

/-- none is put in where they are there already, -/
theorem Grouped.grouped_eq {formula : Formula} (h : formula.Grouped) :
    formula.grouped = formula := by
  induction h with
  | literal n => rfl
  | sign negative hlevel _ ih => rw [grouped, ih, fit_eq_self hlevel]
  | binary operation hleft hright _ _ ihl ihr =>
    rw [grouped, ihl, ihr, fit_eq_self hleft, fit_eq_self hright]
  | group _ ih => rw [grouped, ih]

/-- and they change no value. -/
theorem value_grouped (formula : Formula) : formula.grouped.value = formula.value := by
  induction formula with
  | literal n => rfl
  | sign negative operand ih => simp only [grouped, value, value_fit, ih]
  | binary operation left right ihl ihr => simp only [grouped, value, value_fit, ihl, ihr]
  | group inner ih => exact ih

theorem fits_grouped (formula : Formula) : formula.grouped.Fits ↔ formula.Fits := by
  induction formula with
  | literal n => rfl
  | sign negative operand ih =>
    simp only [grouped, Fits, fits_fit, ih, value, value_fit, value_grouped]
  | binary operation left right ihl ihr =>
    simp only [grouped, Fits, fits_fit, ihl, ihr, value, value_fit, value_grouped]
  | group inner ih => exact ih

/-! ### Tokens of formulas -/

/-- The operator that a sign is written with. -/
def signOperator (negative : Bool) : Operator :=
  if negative then .subtract else .add

/-- The formula as it is written. -/
def tokens : Formula → List Token
  | literal n => [.number (.int n)]
  | sign negative operand => .operator (signOperator negative) :: operand.tokens
  | binary operation left right => left.tokens ++ .operator operation.operator :: right.tokens
  | group inner => .opening :: (inner.tokens ++ [.closing])

theorem tokens_ne_nil (formula : Formula) : formula.tokens ≠ [] := by
  rcases formula with _ | _ | _ | _ <;> simp [tokens]

end Formula

/-- Could the two tokens, one right behind the other, be read as a different one? -/
inductive Token.Merges : Token → Token → Prop where
  | number (m n : Number) : Merges (.number m) (.number n)
  | asterisk : Merges (.operator .multiply) (.operator .multiply)

namespace Token.Merges

variable {op : Operator} {token : Token}

theorem not_before_operator (h : token ≠ .operator .multiply) : ¬ token.Merges (.operator op) := by
  intro hmerges
  generalize hnext : Token.operator op = next at hmerges
  rcases hmerges with _ | _
  · cases hnext
  · exact h rfl

theorem not_behind_operator (h : token ≠ .operator .multiply) :
    ¬ (Token.operator op).Merges token := by
  intro hmerges
  generalize hbefore : Token.operator op = before at hmerges
  rcases hmerges with _ | _
  · cases hbefore
  · exact h rfl

end Token.Merges

/-- Can the tokens be written without blanks? -/
def Separate (tokens : List Token) : Prop :=
  tokens.IsChain fun token next => ¬ token.Merges next

namespace Formula

/-- A formula starts with no asterisk -/
theorem head?_tokens (formula : Formula) :
    ∀ token ∈ formula.tokens.head?, token ≠ .operator .multiply := by
  induction formula with
  | literal n => simp [tokens]
  | sign negative operand _ => rcases negative <;> simp [tokens, signOperator]
  | binary operation left right ihl _ =>
    rw [tokens, List.head?_append_of_ne_nil _ (tokens_ne_nil left)]
    exact ihl
  | group inner _ => simp [tokens]

/-- and ends with no operator. -/
theorem getLast?_tokens (formula : Formula) (op : Operator) :
    ∀ token ∈ formula.tokens.getLast?, token ≠ .operator op := by
  induction formula with
  | literal n => simp [tokens]
  | sign negative operand ih =>
    rw [tokens, ← List.singleton_append, List.getLast?_append_of_ne_nil _ (tokens_ne_nil operand)]
    exact ih
  | binary operation left right _ ihr =>
    rw [tokens, ← List.singleton_append, ← List.append_assoc,
      List.getLast?_append_of_ne_nil _ (tokens_ne_nil right)]
    exact ihr
  | group inner _ => simp [tokens, List.getLast?_cons]

/-- **The tokens of a formula can be written without blanks.** -/
theorem separate (formula : Formula) : Separate formula.tokens := by
  induction formula with
  | literal n => exact List.isChain_singleton _
  | sign negative operand ih =>
    exact List.isChain_cons.mpr ⟨fun token htoken =>
      Token.Merges.not_behind_operator (head?_tokens operand token htoken), ih⟩
  | binary operation left right ihl ihr =>
    refine List.isChain_append.mpr ⟨ihl, List.isChain_cons.mpr ⟨fun token htoken =>
      Token.Merges.not_behind_operator (head?_tokens right token htoken), ihr⟩, ?_⟩
    rintro token htoken next hnext
    cases Option.some.inj hnext
    exact Token.Merges.not_before_operator (getLast?_tokens left .multiply token htoken)
  | group inner ih =>
    refine List.isChain_cons.mpr ⟨fun token _ => nofun, List.isChain_append.mpr ⟨ih, ?_, ?_⟩⟩
    · exact List.isChain_singleton _
    · rintro token _ next hnext
      cases Option.some.inj hnext
      exact nofun

end Formula

/-! ### Texts of tokens -/

/-- How a token can be spelled.  A number may have zeros in front. -/
inductive Token.SpelledAs : Token → List Char → Prop where
  | number {digits : List Char} : digits ≠ [] → (∀ c ∈ digits, c.isDigit = true) →
      SpelledAs (.number (.int (Nat.ofDigitChars 10 digits 0))) digits
  | add : SpelledAs (.operator .add) ['+']
  | subtract : SpelledAs (.operator .subtract) ['-']
  | multiply : SpelledAs (.operator .multiply) ['*']
  | opening : SpelledAs .opening ['(']
  | closing : SpelledAs .closing [')']

/-- The text has the tokens, in order, and blanks around them wherever it likes. -/
inductive Spaced : List Token → List Char → Prop where
  | nil : Spaced [] []
  | blank {tokens : List Token} {c : Char} {text : List Char} : isBlank c = true →
      Spaced tokens text → Spaced tokens (c :: text)
  | token {token : Token} {tokens : List Token} {word text : List Char} : token.SpelledAs word →
      Spaced tokens text → Spaced (token :: tokens) (word ++ text)

/-- The characters that can stand behind a literal. -/
def isLimit (c : Char) : Bool :=
  isBlank c || c == '+' || c == '-' || c == '*' || c == '(' || c == ')'

theorem isLimit_of_isDigit {c : Char} (h : c.isDigit = true) : isLimit c = false := by
  have hother : ∀ other : Char, other.isDigit = false → (c == other) = false := by
    intro other ho
    rw [beq_eq_false_iff_ne]
    rintro rfl
    rw [ho] at h
    cases h
  simp only [isLimit, isBlank_of_isDigit h, hother '+' rfl, hother '-' rfl, hother '*' rfl,
    hother '(' rfl, hother ')' rfl, Bool.or_false]

theorem endsAt_of_isLimit {digits : List Char} {c : Char} (h : ∀ d ∈ digits, d.isDigit = true)
    (hlimit : isLimit c = true) : (Pending.literal digits).EndsAt c := by
  have hother : ∀ other : Char, isLimit other = false → (c == other) = false := by
    intro other ho
    rw [beq_eq_false_iff_ne]
    rintro rfl
    rw [ho] at hlimit
    cases hlimit
  have hdigit : c.isDigit = false := by
    by_contra hdigit
    rw [isLimit_of_isDigit (by simpa using hdigit)] at hlimit
    cases hlimit
  have hsign : (digits.head?.map isExponentMark).getD false = false := by
    rcases digits with _ | ⟨d, digits⟩
    · rfl
    · exact isExponentMark_eq_false (by rw [h d (List.mem_cons_self ..), Bool.true_or])
  refine ⟨?_, nofun⟩
  simp only [Pending.extend?, extendsLiteral, isExponentMark, hdigit, hother '.' rfl,
    hother 'e' rfl, hother 'E' rfl, hsign, Bool.false_and, Bool.and_false, Bool.or_false,
    Bool.false_eq_true, if_false]

section Spaced

variable {ts : List Token} {text : List Char}

theorem Token.SpelledAs.ne_nil {token : Token} {word : List Char} (h : token.SpelledAs word) :
    word ≠ [] := by
  rcases h with ⟨hne, -⟩ | _ | _ | _ | _ | _
  · exact hne
  all_goals simp

/-- A text starts with a blank or with its first token. -/
theorem Spaced.head (h : Spaced ts text) :
    ∀ c ∈ text.head?, isBlank c = true ∨
      ∃ token ∈ ts.head?, ∃ word, token.SpelledAs word ∧ c ∈ word.head? := by
  induction h with
  | nil => exact nofun
  | blank hblank _ _ =>
    rintro c ⟨⟩
    exact .inl hblank
  | token hspelled _ _ =>
    intro c hc
    rw [List.head?_append_of_ne_nil _ hspelled.ne_nil] at hc
    exact .inr ⟨_, rfl, _, hspelled, hc⟩

/-- Where no number comes next, a literal ends -/
theorem Spaced.isLimit_head (h : Spaced ts text)
    (hnext : ∀ token ∈ ts.head?, ∀ n, token ≠ .number n) :
    ∀ c ∈ text.head?, isLimit c = true := by
  intro c hc
  rcases h.head c hc with hblank | ⟨token, htoken, word, hspelled, hword⟩
  · simp only [isLimit, hblank, Bool.true_or]
  · rcases hspelled with _ | _ | _ | _ | _ | _
    case number => exact absurd rfl (hnext _ htoken _)
    all_goals
      cases Option.some.inj hword
      rfl

/-- and where no asterisk comes next, an asterisk is alone. -/
theorem Spaced.head_ne_asterisk (h : Spaced ts text)
    (hnext : ∀ token ∈ ts.head?, token ≠ .operator .multiply) :
    ∀ c ∈ text.head?, c ≠ '*' := by
  rintro c hc rfl
  rcases h.head _ hc with hblank | ⟨token, htoken, word, hspelled, hword⟩
  · cases hblank
  · rcases hspelled with ⟨-, hdigits⟩ | _ | _ | _ | _ | _
    case number => exact absurd (hdigits _ (List.mem_of_mem_head? hword)) (by decide)
    case multiply => exact hnext _ htoken rfl
    all_goals cases Option.some.inj hword

/-- Digits are read as one token. -/
theorem tokens_digits {digits : List Char} (hne : digits ≠ [])
    (hdigits : ∀ c ∈ digits, c.isDigit = true) (hlimit : ∀ c ∈ text.head?, isLimit c = true) :
    tokens (digits ++ text) =
      Token.ofLiteral digits >>= fun token => (tokens text).map (token :: ·) := by
  have hends : ∀ c ∈ text.head?, (Pending.literal digits.reverse).EndsAt c := fun c hc =>
    endsAt_of_isLimit (fun d hd => hdigits d (List.mem_reverse.mp hd)) (hlimit c hc)
  obtain ⟨d, rest, rfl⟩ := List.exists_cons_of_ne_nil hne
  obtain ⟨hd, hrest⟩ := List.forall_mem_cons.mp hdigits
  have hread : tokensFrom (.literal [d]) (rest ++ text) =
      tokensFrom (.literal (d :: rest).reverse) text := by
    rw [tokensFrom_places fun c hc => by rw [hrest c hc, Bool.true_or], List.reverse_cons]
  rw [List.cons_append, tokens_digit hd, hread, tokensFrom_complete hends, Pending.complete,
    List.reverse_reverse]
  rcases Token.ofLiteral (d :: rest) with fault | token <;> rfl

/-- A blank is passed over. -/
theorem tokens_blank {c : Char} (h : isBlank c = true) : tokens (c :: text) = tokens text := by
  have hstart : Pending.start c = .ok ([], .nothing) := by
    simp only [Pending.start, h, if_true]
  exact (tokens_of_start hstart text).trans (map_nil_append _)

/-- The step of a token: it is read, if it fits. -/
theorem tokens_token {token : Token} {word : List Char} (hspelled : token.SpelledAs word)
    (h : Spaced ts text) (hnext : ∀ next ∈ ts.head?, ¬ token.Merges next) :
    (token.Fits → tokens (word ++ text) = (tokens text).map (token :: ·)) ∧
      (¬ token.Fits → ∃ literal, tokens (word ++ text) = .error (.integerLiteral literal)) := by
  -- A token of one character is complete with that, unless it is an asterisk.
  have hsingle : ∀ {c : Char} {token : Token}, Pending.start c = .ok ([token], .nothing) →
      tokens (c :: text) = (tokens text).map (token :: ·) := fun hstart =>
    tokens_of_start hstart text
  rcases hspelled with ⟨hne, hdigits⟩ | _ | _ | _ | _ | _
  case number =>
    have hlimit := h.isLimit_head fun next hn n he => hnext next hn (he ▸ .number _ n)
    rw [tokens_digits hne hdigits hlimit, ofLiteral_digits hne hdigits]
    by_cases hfits : IntegerRange.signed64.contains (Nat.ofDigitChars 10 word 0) = true
    · rw [if_pos hfits]
      exact ⟨fun _ => rfl, fun h => absurd hfits h⟩
    · rw [if_neg hfits]
      exact ⟨fun h => absurd h hfits, fun _ => ⟨_, rfl⟩⟩
  case multiply =>
    have halone := h.head_ne_asterisk fun next hn he => hnext next hn (he ▸ .asterisk)
    have hends : ∀ c ∈ text.head?, Pending.asterisk.EndsAt c := fun c hc =>
      ⟨rfl, fun he => halone c hc he.2⟩
    refine ⟨fun _ => ?_, fun hfits => absurd trivial hfits⟩
    have hstart : Pending.start '*' = .ok ([], .asterisk) := rfl
    rw [List.singleton_append, tokens_of_start hstart, map_nil_append, tokensFrom_complete hends]
    rfl
  all_goals exact ⟨fun _ => hsingle rfl, fun hfits => absurd trivial hfits⟩

/-- **The tokens are read back from their text**, if all literals fit; -/
theorem tokens_eq_of_spaced (h : Spaced ts text) (hseparate : Separate ts)
    (hfits : ∀ token ∈ ts, token.Fits) : tokens text = .ok ts := by
  induction h with
  | nil => rfl
  | blank hblank _ ih => rw [tokens_blank hblank, ih hseparate hfits]
  | token hspelled htext ih =>
    obtain ⟨hnext, hrest⟩ := List.isChain_cons.mp hseparate
    obtain ⟨htoken, hothers⟩ := List.forall_mem_cons.mp hfits
    rw [(tokens_token hspelled htext hnext).1 htoken, ih hrest hothers]
    rfl

/-- if not, the first literal that does not fit is reported. -/
theorem tokens_error_of_spaced (h : Spaced ts text) (hseparate : Separate ts)
    (hfits : ¬ ∀ token ∈ ts, token.Fits) :
    ∃ literal, tokens text = .error (.integerLiteral literal) := by
  induction h with
  | nil => exact absurd (fun _ => nofun) hfits
  | blank hblank _ ih => rw [tokens_blank hblank]; exact ih hseparate hfits
  | @token token ts word text hspelled htext ih =>
    obtain ⟨hnext, hrest⟩ := List.isChain_cons.mp hseparate
    obtain ⟨hread, hrefused⟩ := tokens_token hspelled htext hnext
    by_cases htoken : token.Fits
    · have hothers : ¬ ∀ token ∈ ts, token.Fits := fun hall =>
        hfits (List.forall_mem_cons.mpr ⟨htoken, hall⟩)
      obtain ⟨literal, hliteral⟩ := ih hrest hothers
      rw [hread htoken, hliteral]
      exact ⟨literal, rfl⟩
    · exact hrefused htoken

end Spaced

end ConfigTree.Expression
