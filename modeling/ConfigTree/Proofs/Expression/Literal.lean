import ConfigTree.Expression.Evaluation
import ConfigTree.Proofs.Expression.Lexer
import ConfigTree.Proofs.Floating.Decimal
import ConfigTree.Proofs.Outcome

/-! # Stored numbers are expressions

The text under which a number is stored is a literal, with a minus sign in front of it if the number
is negative.  **It evaluates to the number** (`evaluate_text`, `evaluate_showInt`), with one
exception: the sign is not part of the literal, and the least integer is one more than the greatest
literal that fits (`evaluate_least`).
-/
namespace ConfigTree.Expression

open Text

/-! ### The characters of literals -/

/-- An exponent belongs to the literal in front of it. -/
theorem tokensFrom_exponent {read : List Char} (h : ∀ c ∈ read, (c.isDigit || c == '.') = true)
    (exponent : Int) :
    tokensFrom (.literal read) ('e' :: intDigits exponent) =
      tokensFrom (.literal (('e' :: intDigits exponent).reverse ++ read)) [] := by
  have hunmarked : read.any isExponentMark = false :=
    List.any_eq_false.mpr fun c hc => by simp [isExponentMark_eq_false (h c hc)]
  have hmark : Pending.extend? (.literal read) 'e' = some (.literal ('e' :: read)) := by
    simp [Pending.extend?, extendsLiteral, isExponentMark, hunmarked]
  have hdigits : ∀ before : List Char,
      tokensFrom (.literal before) (natDigits exponent.natAbs ++ []) =
        tokensFrom (.literal ((natDigits exponent.natAbs).reverse ++ before)) [] := fun before =>
    tokensFrom_places fun c hc => by rw [isDigit_of_mem_natDigits hc, Bool.true_or]
  simp only [List.append_nil] at hdigits
  rw [tokensFrom_extend (by simp) hmark]
  unfold intDigits
  split
  · have hminus : Pending.extend? (.literal ('e' :: read)) '-' =
        some (.literal ('-' :: 'e' :: read)) := rfl
    rw [tokensFrom_extend (by simp) hminus, hdigits]
    simp
  · rw [hdigits]
    simp

/-! ### Literals -/

theorem tokens_of_literal {d : Char} {rest : List Char} (hd : d.isDigit = true)
    (h : tokensFrom (.literal [d]) rest = tokensFrom (.literal (rest.reverse ++ [d])) []) :
    tokens (d :: rest) = (Token.ofLiteral (d :: rest)).map ([·]) := by
  rw [tokens_digit hd, h, tokensFrom, Pending.complete, List.reverse_append, List.reverse_reverse,
    List.reverse_singleton, List.singleton_append]

/-- A natural number is read as one token. -/
theorem tokens_natDigits (n : Nat) :
    tokens (natDigits n) = (Token.ofLiteral (natDigits n)).map ([·]) := by
  have hdigits : ∀ c ∈ natDigits n, c.isDigit = true := fun c => isDigit_of_mem_natDigits
  obtain ⟨d, rest, he⟩ := List.exists_cons_of_ne_nil (natDigits_ne_nil n)
  rw [he] at hdigits ⊢
  obtain ⟨hd, hrest⟩ := List.forall_mem_cons.mp hdigits
  refine tokens_of_literal hd ?_
  have h : tokensFrom (.literal [d]) (rest ++ []) =
      tokensFrom (.literal (rest.reverse ++ [d])) [] :=
    tokensFrom_places fun c hc => by rw [hrest c hc, Bool.true_or]
  rwa [List.append_nil] at h

/-- What spells a decimal is read as one token. -/
theorem tokens_of_spells {cs : List Char} {digits : Nat} {exponent : Int}
    (h : Floating.Spells cs digits exponent) : tokens cs = (Token.ofLiteral cs).map ([·]) := by
  obtain ⟨d, places, tail, rfl, hd, hplaces, htail⟩ := h.exists_places
  have hpoint : ∀ c ∈ places.reverse ++ [d], (c.isDigit || c == '.') = true := by
    simp only [List.mem_append, List.mem_reverse, List.mem_singleton]
    rintro c (hc | rfl)
    · exact hplaces c hc
    · rw [hd, Bool.true_or]
  refine tokens_of_literal hd ?_
  rw [tokensFrom_places hplaces, List.reverse_append, List.append_assoc]
  rcases htail with rfl | ⟨power, rfl⟩
  · rfl
  · rw [tokensFrom_exponent hpoint]

/-- A minus sign is a token of its own. -/
theorem tokens_minus (cs : List Char) :
    tokens ('-' :: cs) = (tokens cs).map (.operator .subtract :: ·) := by
  have hstart : Pending.start '-' = .ok ([.operator .subtract], .nothing) := rfl
  exact tokens_of_start hstart cs

/-- A natural number that fits is an integer. -/
theorem ofLiteral_natDigits {n : Nat} (h : (n : Int) ≤ IntegerRange.signed64.greatest) :
    Token.ofLiteral (natDigits n) = .ok (.number (.int n)) := by
  have hfits : IntegerRange.signed64.contains n = true := by
    refine IntegerRange.contains_iff.mpr ⟨?_, h⟩
    have hleast : IntegerRange.signed64.least ≤ 0 := by decide
    omega
  rw [ofLiteral_digits (natDigits_ne_nil n) fun c => isDigit_of_mem_natDigits,
    ofDigitChars_natDigits, if_pos hfits]

/-- What spells a decimal is a floating-point number, if that is finite. -/
theorem ofLiteral_of_spells {cs : List Char} {digits : Nat} {exponent : Int} {x : Floating}
    (h : Floating.Spells cs digits exponent) (hx : double.ofDecimal false digits exponent = x)
    (hfinite : x.isFinite = true) : Token.ofLiteral cs = .ok (.number (.float x)) := by
  simp only [Token.ofLiteral, h.all_isDigit, h.read?_eq, hx, hfinite, Bool.false_eq_true, if_false,
    if_true]

/-! ### Their values -/

/-- A number alone is its own value. -/
theorem evaluate_of_tokens {text : String} {n : Number}
    (h : tokens text.toList = .ok [.number n]) : evaluate text = .ok n := by
  unfold evaluate
  rw [h]
  rfl

/-- A minus sign negates the number behind it. -/
theorem evaluate_of_tokens_minus {text : String} {n : Number}
    (h : tokens text.toList = .ok [.operator .subtract, .number n]) :
    evaluate text = n.negate := by
  have hrun : State.run (.awaiting []) [.operator .subtract, .number n] = n.negate := by
    have hstep : State.run (.awaiting []) [.operator .subtract, .number n] =
        (n.negate >>= fun value => settle value []) >>= fun state => state.finish := rfl
    rw [hstep]
    cases n.negate <;> rfl
  unfold evaluate
  rw [h]
  exact hrun

/-- **The text of an integer evaluates to it**, unless it is the least one. -/
theorem evaluate_showInt {i : Int} (h : IntegerRange.signed64.contains i = true)
    (hleast : i ≠ IntegerRange.signed64.least) : evaluate (showInt i) = .ok (.int i) := by
  obtain ⟨hlow, hhigh⟩ := IntegerRange.contains_iff.mp h
  have hliteral : (i.natAbs : Int) ≤ IntegerRange.signed64.greatest := by
    simp only [IntegerRange.signed64] at hlow hhigh hleast ⊢
    omega
  have htokens : tokens (natDigits i.natAbs) = .ok [.number (.int i.natAbs)] := by
    rw [tokens_natDigits, ofLiteral_natDigits hliteral]
    rfl
  by_cases hneg : i < 0
  · have htext : (showInt i).toList = '-' :: natDigits i.natAbs := by
      simp [showInt, intDigits, hneg]
    rw [evaluate_of_tokens_minus (n := .int i.natAbs) (by rw [htext, tokens_minus, htokens]; rfl)]
    have habs : -(i.natAbs : Int) = i := by omega
    rw [Number.negate, habs]
    exact Number.checked_eq_ok_iff.mpr ⟨h, rfl⟩
  · have htext : (showInt i).toList = natDigits i.natAbs := by
      simp [showInt, intDigits, hneg]
    have habs : (i.natAbs : Int) = i := by omega
    rw [habs] at htokens
    exact evaluate_of_tokens (by rw [htext, htokens])

/-- The digits of the least integer are a literal that does not fit, whatever stands in front. -/
theorem evaluate_least :
    evaluate (showInt IntegerRange.signed64.least) =
      .error (.integerLiteral "9223372036854775808") := by
  decide +kernel

/-- **The text of a floating-point number evaluates to it.** -/
theorem evaluate_text {x : Floating} (hc : double.IsCanonical x) (hfinite : x.isFinite = true) :
    evaluate (Floating.text Floating.stored double x) = .ok (.float x) := by
  cases x with
  | nan => cases hfinite
  | infinite negative => cases hfinite
  | finite negative m e =>
    obtain ⟨digits, exponent, hspells, hvalue⟩ := Floating.exists_spells_stored hc
    have htokens : tokens (Floating.stored.unsignedText double m e) =
        .ok [.number (.float (.finite false m e))] := by
      rw [tokens_of_spells hspells, ofLiteral_of_spells hspells hvalue rfl]
      rfl
    cases negative with
    | false => exact evaluate_of_tokens (by simpa [Floating.text] using htokens)
    | true =>
      refine evaluate_of_tokens_minus (n := .float (.finite false m e)) ?_
      simp [Floating.text, tokens_minus, htokens, Except.map]

end ConfigTree.Expression
