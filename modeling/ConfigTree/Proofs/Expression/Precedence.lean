import ConfigTree.Expression.Evaluation
import ConfigTree.Proofs.Expression.Formula

/-! # Evaluation of formulas

The tokens of a formula are worked off with a stack, and its value is the one that the tree has.
What is done with a formula depends on what waits for it on the stack and on what comes behind it
(`Admits`); in a place of its level, the tokens of a formula give the stack its value
(`run_tokens`).  This is so with the faults too: `Formula.outcome` is what evaluating the tree
operand by operand comes to.

**So a text of a formula evaluates to the value of the formula**, if nothing in it leaves the
integers of 64 bits and nothing in it is nested too deeply (`evaluate_of_spaced`).
-/
namespace ConfigTree.Expression

/-! ### Evaluating trees -/

namespace Number

theorem combine_operator (operation : Operation) (i j : Int) :
    combine operation.operator (.int i) (.int j) = checked (operation.apply i j) := by
  rcases operation <;> rfl

end Number

/-- The number with a sign in front of it. -/
def signed (negative : Bool) (value : Number) : Except Fault Number :=
  if negative then value.negate else .ok value

/-- One more level of nesting. -/
def deeper (depth : Nat) (outcome : Nat → Except Fault Number) : Except Fault Number :=
  if depth < maxDepth then outcome (depth + 1) else .error .tooDeep

namespace Formula

/-- What evaluating the tree comes to, inside some signs and parentheses already. -/
def outcome : Formula → Nat → Except Fault Number
  | literal n, _ => .ok (.int n)
  | sign negative operand, depth => deeper depth operand.outcome >>= signed negative
  | binary operation left right, depth => do
    Number.combine operation.operator (← left.outcome depth) (← right.outcome depth)
  | group inner, depth => deeper depth inner.outcome

end Formula

/-! ### Working off tokens -/

namespace State

/-- How deep a stack is nested. -/
def depth (stack : List Frame) : Nat := stack.countP Frame.nests

theorem run_cons (state : State) (token : Token) (rest : List Token) :
    state.run (token :: rest) = state.step token >>= fun next => next.run rest := rfl

/-- Does the frame take a number as soon as there is one? -/
def takesAtOnce : Frame → Bool
  | .parenthesis => false
  | .sign _ => true
  | .operation _ op => op.isTight

theorem settle_of_not_takesAtOnce {stack : List Frame}
    (h : ∀ frame ∈ stack.head?, takesAtOnce frame = false) (value : Number) :
    settle value stack = .ok (.holding value stack) := by
  rcases stack with _ | ⟨_ | negative | ⟨left, op⟩, rest⟩
  · rfl
  · rfl
  · cases h _ rfl
  · have hloose : op.isTight = false := h _ rfl
    simp only [settle, hloose, Bool.false_eq_true, if_false]

/-- Can a formula of the level stand between what is on the stack and the rest of the tokens?  What
is torn apart by operators has to be looked at as a whole: a product must not be preceded by a sign
or a tight operator, and a sum has to be preceded by nothing but a parenthesis and not to be
followed by a tight operator. -/
structure Admits (level : Nat) (stack : List Frame) (rest : List Token) : Prop where
  product : level ≤ 1 → ∀ frame ∈ stack.head?, takesAtOnce frame = false
  sum : level = 0 → (∀ frame ∈ stack.head?, frame = .parenthesis) ∧
    ∀ op, .operator op ∈ rest.head? → op.isTight = false

/-- Signs, literals and parentheses can stand everywhere. -/
theorem admits_of_two_le {level : Nat} (h : 2 ≤ level) (stack : List Frame) (rest : List Token) :
    Admits level stack rest :=
  ⟨fun hl => absurd h (by omega), fun hl => absurd h (by omega)⟩

/-- Behind a parenthesis, or behind nothing, a number stays as it is. -/
theorem closeSum_eq {stack : List Frame} (h : ∀ frame ∈ stack.head?, frame = .parenthesis)
    (value : Number) : closeSum value stack = .ok (value, stack) := by
  rcases stack with _ | ⟨frame, below⟩
  · rfl
  · rw [h frame rfl]
    rfl

/-- A sum on top of the stack is closed by what does not bind more tightly. -/
theorem run_closeSum {left right : Number} {op : Operator} {stack : List Frame} {rest : List Token}
    (hstack : ∀ frame ∈ stack.head?, frame = .parenthesis)
    (hrest : ∀ next, .operator next ∈ rest.head? → next.isTight = false) :
    run (.holding right (.operation left op :: stack)) rest =
      Number.combine op left right >>= fun value => run (.holding value stack) rest := by
  have hclose : closeSum right (.operation left op :: stack) =
      Number.combine op left right >>= fun value => closeSum value stack := by
    simp only [closeSum_eq hstack]
    rfl
  rcases rest with _ | ⟨token, rest⟩
  · rw [run, finish, hclose]
    rcases Number.combine op left right with fault | value <;> rfl
  · have hstep : step (.holding right (.operation left op :: stack)) token =
        Number.combine op left right >>= fun value => step (.holding value stack) token := by
      rcases token with n | next | _ | _
      case operator =>
        have hloose : next.isTight = false := hrest next rfl
        simp only [step, hloose, Bool.false_eq_true, if_false, hclose]
        rcases Number.combine op left right with fault | value <;> rfl
      all_goals
        simp only [step, hclose]
        rcases Number.combine op left right with fault | value <;> rfl
    simp only [run_cons, hstep]
    rcases Number.combine op left right with fault | value <;> rfl

/-- An operand on the right completes the operation, at once or when it is closed. -/
theorem settle_operation {op : Operator} {stack : List Frame} {rest : List Token}
    (hstack : op.isTight = false → ∀ frame ∈ stack.head?, frame = .parenthesis)
    (hrest : op.isTight = false → ∀ next, .operator next ∈ rest.head? → next.isTight = false)
    (left right : Number) :
    (settle right (.operation left op :: stack) >>= fun state => state.run rest) =
      Number.combine op left right >>= fun value =>
        settle value stack >>= fun state => state.run rest := by
  by_cases htight : op.isTight = true
  · simp only [settle, htight, if_true, bind_assoc]
  · rw [Bool.not_eq_true] at htight
    have hplain : ∀ value, settle value stack = .ok (.holding value stack) := by
      refine settle_of_not_takesAtOnce fun frame hframe => ?_
      rw [hstack htight frame hframe]
      rfl
    simp only [settle, htight, Bool.false_eq_true, if_false, hplain]
    exact run_closeSum (hstack htight) (hrest htight)

/-- One more level of nesting takes a number that the levels outside are waiting for. -/
theorem run_nest (frame : Frame) (stack : List Frame) (hnests : frame.nests = true)
    (tokens : List Token) (outcome : Nat → Except Fault Number)
    (continuation : Number → Except Fault Number)
    (h : run (.awaiting (frame :: stack)) tokens =
      outcome (depth (frame :: stack)) >>= continuation) :
    (nest frame stack >>= fun state => state.run tokens) =
      deeper (depth stack) outcome >>= continuation := by
  have hdepth : depth (frame :: stack) = depth stack + 1 := List.countP_cons_of_pos hnests
  have hnest : nest frame stack =
      if depth stack < maxDepth then .ok (.awaiting (frame :: stack)) else .error .tooDeep := rfl
  rw [hnest, deeper]
  by_cases hdeep : depth stack < maxDepth
  · rw [if_pos hdeep, if_pos hdeep, ← hdepth, ← h]
    rfl
  · rw [if_neg hdeep, if_neg hdeep]
    rfl

/-- A loose operator closes nothing behind a parenthesis. -/
theorem run_holding_operator {value : Number} {op : Operator} {stack : List Frame}
    (hstack : op.isTight = false → ∀ frame ∈ stack.head?, frame = .parenthesis)
    (tokens : List Token) :
    run (.holding value stack) (.operator op :: tokens) =
      run (.awaiting (.operation value op :: stack)) tokens := by
  rw [run_cons, step]
  by_cases htight : op.isTight = true
  · rw [if_pos htight]
    rfl
  · rw [if_neg htight, closeSum_eq (hstack (by simpa using htight))]
    rfl

/-- **The tokens of a formula give its value to what waits for it.** -/
theorem run_tokens {formula : Formula} (h : formula.Grouped) {stack : List Frame}
    {rest : List Token} (hadmits : Admits formula.level stack rest) :
    run (.awaiting stack) (formula.tokens ++ rest) =
      formula.outcome (depth stack) >>= fun value =>
        settle value stack >>= fun state => state.run rest := by
  induction h generalizing stack rest with
  | literal n => rfl
  | @sign operand negative hlevel hoperand ih =>
    have hinner := ih (admits_of_two_le hlevel (.sign negative :: stack) rest)
    have hsettle : ∀ value, settle value (.sign negative :: stack) =
        signed negative value >>= fun value => settle value stack := fun _ => by
      rcases negative <;> rfl
    have hstep : step (.awaiting stack) (.operator (Formula.signOperator negative)) =
        nest (.sign negative) stack := by
      rcases negative <;> rfl
    rw [Formula.tokens, List.cons_append, run_cons, hstep, run_nest _ _ rfl _ _ _ hinner,
      Formula.outcome]
    simp only [hsettle, bind_assoc]
  | @binary left right operation hleft hright _ _ ihl ihr =>
    have hlevel := operation.level_le
    have hloose := operation.isTight_operator
    have hsum : operation.operator.isTight = false →
        ∀ frame ∈ stack.head?, frame = .parenthesis := fun h => (hadmits.sum (hloose.mp h)).1
    have hfollowed : operation.operator.isTight = false →
        ∀ next, .operator next ∈ rest.head? → next.isTight = false :=
      fun h => (hadmits.sum (hloose.mp h)).2
    have hadmitsLeft : Admits left.level stack
        (.operator operation.operator :: (right.tokens ++ rest)) := by
      refine ⟨fun _ => hadmits.product hlevel, fun hzero => ?_⟩
      have hop := hloose.mpr (by omega)
      refine ⟨hsum hop, fun op hmem => ?_⟩
      cases Option.some.inj hmem
      exact hop
    have hadmitsRight : ∀ value,
        Admits right.level (.operation value operation.operator :: stack) rest := by
      refine fun value => ⟨fun hproduct frame hframe => ?_, fun hzero => absurd hzero (by omega)⟩
      cases Option.some.inj hframe
      exact hloose.mpr (by omega)
    have hdepth : ∀ value, depth (.operation value operation.operator :: stack) = depth stack :=
      fun value => List.countP_cons_of_neg (by simp [Frame.nests])
    rw [Formula.tokens, List.append_assoc, List.cons_append, ihl hadmitsLeft, Formula.outcome]
    simp only [bind_assoc]
    refine bind_congr fun value => ?_
    rw [settle_of_not_takesAtOnce (hadmits.product hlevel) value]
    show run (.holding value stack) _ = _
    rw [run_holding_operator hsum, ihr (hadmitsRight value), hdepth]
    exact bind_congr fun other => settle_operation hsum hfollowed value other
  | @group inner hinner ih =>
    have hadmitted : Admits inner.level (.parenthesis :: stack) (.closing :: rest) := by
      refine ⟨fun _ frame hframe => ?_, fun _ => ⟨fun frame hframe => ?_, fun op hop => ?_⟩⟩
      · cases Option.some.inj hframe
        rfl
      · exact (Option.some.inj hframe).symm
      · cases Option.some.inj hop
    have hclosed : ∀ value, (settle value (.parenthesis :: stack) >>= fun state =>
        state.run (.closing :: rest)) = settle value stack >>= fun state => state.run rest :=
      fun _ => rfl
    have hopened : step (.awaiting stack) .opening = nest .parenthesis stack := rfl
    rw [Formula.tokens, List.cons_append, List.append_assoc, List.singleton_append, run_cons,
      hopened, run_nest _ _ rfl _ _ _ (ih hadmitted), Formula.outcome]
    simp only [hclosed]

/-- Alone, the tokens of a formula come to what its tree comes to. -/
theorem run_formula {formula : Formula} (h : formula.Grouped) :
    run (.awaiting []) formula.tokens = formula.outcome 0 := by
  have hadmits : Admits formula.level [] [] := ⟨fun _ => nofun, fun _ => ⟨nofun, fun _ => nofun⟩⟩
  have hrun := run_tokens h hadmits
  rw [List.append_nil] at hrun
  rw [hrun]
  show (formula.outcome 0 >>= fun value => .ok value) = formula.outcome 0
  rcases formula.outcome 0 with fault | value <;> rfl

end State

namespace Formula

variable {formula : Formula} {depth : Nat}

/-! ### Values and faults of trees -/

theorem Fits.contains_value (h : formula.Fits) :
    IntegerRange.signed64.contains formula.value = true := by
  induction formula with
  | literal n => exact h
  | sign negative operand _ => exact h.2
  | binary operation left right _ _ => exact h.2.2
  | group inner ih => exact ih h

theorem Fits.tokens_fit (h : formula.Fits) : ∀ token ∈ formula.tokens, token.Fits := by
  induction formula with
  | literal n => exact List.forall_mem_singleton.mpr h
  | sign negative operand ih => exact List.forall_mem_cons.mpr ⟨trivial, ih h.1⟩
  | binary operation left right ihl ihr =>
    exact List.forall_mem_append.mpr ⟨ihl h.1, List.forall_mem_cons.mpr ⟨trivial, ihr h.2.1⟩⟩
  | group inner ih =>
    refine List.forall_mem_cons.mpr ⟨trivial, List.forall_mem_append.mpr ⟨ih h, ?_⟩⟩
    exact List.forall_mem_singleton.mpr trivial

/-- A sign leaves the range or not, as any operation does. -/
theorem signed_int {i : Int} (h : IntegerRange.signed64.contains i = true) (negative : Bool) :
    signed negative (.int i) = Number.checked (if negative then -i else i) := by
  rcases negative with _ | _
  · exact (if_pos h).symm
  · rfl

/-- What evaluating a formula at some depth can come to: its exact value, or a fault, that some
value within it is out of range or that it is nested too deeply. -/
inductive Yields (formula : Formula) (depth : Nat) : Except Fault Number → Prop where
  | value : formula.Fits → depth + formula.nesting ≤ maxDepth →
      Yields formula depth (.ok (.int formula.value))
  | overflow : ¬ formula.Fits → Yields formula depth (.error .overflow)
  | tooDeep : maxDepth < depth + formula.nesting → Yields formula depth (.error .tooDeep)

/-- The value of an operation is checked when it is computed. -/
theorem yields_checked
    (hfits : IntegerRange.signed64.contains formula.value = true ↔ formula.Fits)
    (hnesting : depth + formula.nesting ≤ maxDepth) :
    formula.Yields depth (Number.checked formula.value) := by
  unfold Number.checked
  by_cases hcontains : IntegerRange.signed64.contains formula.value = true
  · rw [if_pos hcontains]
    exact .value (hfits.mp hcontains) hnesting
  · rw [if_neg hcontains]
    exact .overflow fun h => hcontains (hfits.mpr h)

/-- A formula one level down, at the end of which something is done. -/
theorem yields_deeper {inner : Formula} {finish : Number → Except Fault Number}
    (hnesting : formula.nesting = inner.nesting + 1) (hfits : formula.Fits → inner.Fits)
    (ih : depth < maxDepth → inner.Yields (depth + 1) (inner.outcome (depth + 1)))
    (hfinish : inner.Fits → depth + formula.nesting ≤ maxDepth →
      formula.Yields depth (finish (.int inner.value))) :
    formula.Yields depth (deeper depth inner.outcome >>= finish) := by
  unfold deeper
  by_cases hdeep : depth < maxDepth
  · rw [if_pos hdeep]
    have h := ih hdeep
    generalize inner.outcome (depth + 1) = x at h ⊢
    rcases h with ⟨hinner, hlevels⟩ | hinner | hlevels
    · exact hfinish hinner (by omega)
    · exact .overflow fun h => hinner (hfits h)
    · exact .tooDeep (by omega)
  · rw [if_neg hdeep]
    exact .tooDeep (by omega)

/-- **A formula whose literals fit is evaluated exactly, or has a fault.** -/
theorem yields_outcome (hdepth : depth ≤ maxDepth)
    (hliterals : ∀ token ∈ formula.tokens, token.Fits) :
    formula.Yields depth (formula.outcome depth) := by
  induction formula generalizing depth with
  | literal n => exact .value (hliterals _ (List.mem_singleton_self _)) hdepth
  | sign negative operand ih =>
    refine yields_deeper rfl (fun h => h.1)
      (fun hdeep => ih hdeep (List.forall_mem_cons.mp hliterals).2) fun hoperand hlevels => ?_
    rw [signed_int hoperand.contains_value]
    exact yields_checked ⟨fun h => ⟨hoperand, h⟩, fun h => h.2⟩ hlevels
  | binary operation left right ihl ihr =>
    obtain ⟨hleft, hright⟩ := List.forall_mem_append.mp hliterals
    have hmax : (binary operation left right).nesting = max left.nesting right.nesting := rfl
    have hl := ihl hdepth hleft
    have hr := ihr hdepth (List.forall_mem_cons.mp hright).2
    unfold outcome
    generalize left.outcome depth = x at hl ⊢
    generalize right.outcome depth = y at hr ⊢
    rcases hl with ⟨hl, hlevelsl⟩ | hl | hlevelsl
    · rcases hr with ⟨hr, hlevelsr⟩ | hr | hlevelsr
      · show Yields _ _ (Number.combine operation.operator (.int left.value) (.int right.value))
        rw [Number.combine_operator]
        exact yields_checked ⟨fun h => ⟨hl, hr, h⟩, fun h => h.2.2⟩ (by omega)
      · exact .overflow fun h => hr h.2.1
      · exact .tooDeep (by omega)
    · exact .overflow fun h => hl h.1
    · exact .tooDeep (by omega)
  | group inner ih =>
    have houtcome : (group inner).outcome depth = deeper depth inner.outcome >>= .ok := by
      rw [outcome]
      rcases deeper depth inner.outcome with fault | value <;> rfl
    rw [houtcome]
    refine yields_deeper rfl id (fun hdeep => ih hdeep ?_) fun hfits hlevels => ?_
    · exact (List.forall_mem_append.mp (List.forall_mem_cons.mp hliterals).2).1
    · have hgroup : (group inner).Fits := hfits
      exact .value hgroup hlevels

end Formula

/-! ### Texts -/

/-- What has the tokens of a formula comes to what the tree comes to. -/
theorem evaluate_eq_outcome {formula : Formula} {text : String} (h : formula.Grouped)
    (htokens : tokens text.toList = .ok formula.tokens) : evaluate text = formula.outcome 0 := by
  rw [evaluate, htokens, ← State.run_formula h]
  obtain ⟨first, rest, hcons⟩ := List.exists_cons_of_ne_nil formula.tokens_ne_nil
  rw [hcons]
  rfl

/-- **Integer arithmetic is exact.**  A text of a formula, nested at most 64 deep, evaluates to the
value of the formula, if each literal and each value within it fits; if not, the evaluation fails on
the numbers.  A text that is nested more deeply is refused. -/
theorem evaluate_of_spaced (formula : Formula) (text : String)
    (written : Spaced formula.grouped.tokens text.toList) :
    (formula.grouped.nesting ≤ 64 → formula.Fits →
        evaluate text = .ok (.int formula.value)) ∧
      (formula.grouped.nesting ≤ 64 → ¬ formula.Fits →
        ∃ fault, evaluate text = .error fault ∧ fault.isRefusal = false) ∧
      (64 < formula.grouped.nesting → formula.Fits →
        ∃ fault, evaluate text = .error fault ∧ fault.isRefusal = true) := by
  have hmax : maxDepth = 64 := rfl
  have hseparate := formula.grouped.separate
  rw [← formula.fits_grouped, ← formula.value_grouped]
  by_cases hliterals : ∀ token ∈ formula.grouped.tokens, token.Fits
  · rw [evaluate_eq_outcome formula.grouped_grouped
      (tokens_eq_of_spaced written hseparate hliterals)]
    have hyields := Formula.yields_outcome (Nat.zero_le maxDepth) hliterals
    generalize formula.grouped.outcome 0 = result at hyields ⊢
    rcases hyields with ⟨hfits, hnesting⟩ | hfits | hnesting
    · exact ⟨fun _ _ => rfl, fun _ h => absurd hfits h, fun h => absurd hnesting (by omega)⟩
    · exact ⟨fun _ h => absurd h hfits, fun _ _ => ⟨_, rfl, rfl⟩, fun _ h => absurd h hfits⟩
    · exact ⟨fun h => absurd hnesting (by omega), fun h => absurd hnesting (by omega),
        fun _ _ => ⟨_, rfl, rfl⟩⟩
  · have hfits : ¬ formula.grouped.Fits := fun h => hliterals h.tokens_fit
    obtain ⟨literal, hfault⟩ := tokens_error_of_spaced written hseparate hliterals
    have hevaluate : evaluate text = .error (.integerLiteral literal) := by
      rw [evaluate, hfault]
      rfl
    exact ⟨fun _ h => absurd h hfits, fun _ _ => ⟨_, hevaluate, rfl⟩, fun _ h => absurd h hfits⟩

/-- A product with a difference, which needs parentheses. -/
theorem evaluate_of_spaced_product :
    ∃ (formula : Formula) (text : String),
      formula = .binary .multiply (.literal 2)
        (.binary .subtract (.literal 3) (.sign true (.literal 4))) ∧
      text = " 2*(03 - -4)" ∧ Spaced formula.grouped.tokens text.toList ∧
      formula.grouped.nesting ≤ 64 ∧ formula.Fits ∧ evaluate text = .ok (.int 14) := by
  let formula : Formula := .binary .multiply (.literal 2)
    (.binary .subtract (.literal 3) (.sign true (.literal 4)))
  have hdigits : ∀ digits : List Char, digits.all Char.isDigit = true → digits ≠ [] →
      (Token.number (.int (Nat.ofDigitChars 10 digits 0))).SpelledAs digits :=
    fun digits hall hne => .number hne fun c hc => List.all_eq_true.mp hall c hc
  have hwritten : Spaced formula.grouped.tokens " 2*(03 - -4)".toList :=
    .blank rfl <| .token (hdigits ['2'] rfl (by simp)) <| .token .multiply <| .token .opening <|
      .token (hdigits ['0', '3'] rfl (by simp)) <| .blank rfl <| .token .subtract <|
      .blank rfl <| .token .subtract <| .token (hdigits ['4'] rfl (by simp)) <|
      .token .closing .nil
  have hfits : formula.Fits := ⟨rfl, ⟨rfl, ⟨rfl, rfl⟩, rfl⟩, rfl⟩
  exact ⟨formula, _, rfl, rfl, hwritten, by decide, hfits,
    (evaluate_of_spaced formula _ hwritten).1 (by decide) hfits⟩

end ConfigTree.Expression
