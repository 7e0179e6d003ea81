import ConfigTree.Expression.Evaluation
import ConfigTree.Proofs.Floating.Decimal
import ConfigTree.Proofs.Outcome

/-! # Values of expressions fit

The integers of expressions have 64 bits, and the floating-point numbers are finite ones in the form
that their format has for them (`Number.Fits`).  Literals are of this kind, and every operation
checks its result, so all numbers on the stack fit when a token has been worked off
(`State.Fits.step`), and **the value of an expression fits** (`fits_of_evaluate`).
-/
namespace ConfigTree.Expression

open FloatFormat

/-! ### Numbers -/

/-- An integer of 64 bits, or a finite number in the form that the format has for it. -/
def Number.Fits : Number → Prop
  | .int i => IntegerRange.signed64.contains i = true
  | .float x => x.isFinite = true ∧ double.IsCanonical x

namespace Number

theorem double_precision : 0 < double.precision := by decide

theorem fits_of_checked {i : Int} {n : Number} (h : checked i = .ok n) : n.Fits := by
  obtain ⟨hi, rfl⟩ := checked_eq_ok_iff.mp h
  exact hi

theorem fits_of_finite {x : Floating} {n : Number} (hx : double.IsCanonical x)
    (h : finite x = .ok n) : n.Fits := by
  unfold finite at h
  split at h
  · next hfinite =>
    cases h
    exact ⟨hfinite, hx⟩
  · cases h

theorem Fits.toFloating {n : Number} (h : n.Fits) :
    n.toFloating.isFinite = true ∧ double.IsCanonical n.toFloating := by
  cases n with
  | float x => exact h
  | int i =>
    refine ⟨isFinite_ofInt (by decide) ?_, isCanonical_ofInt double_precision i⟩
    have hi : i.natAbs < 2 ^ 64 := by
      obtain ⟨hlow, hhigh⟩ := IntegerRange.contains_iff.mp h
      simp only [IntegerRange.signed64] at hlow hhigh
      omega
    have hlog : i.natAbs.log2 < 64 := by
      by_cases hzero : i.natAbs = 0
      · rw [hzero]
        decide
      · exact (Nat.log2_lt hzero).mpr hi
    show (i.natAbs.log2 : Int) + 2 ≤ 53 + 971
    omega

theorem fits_of_negate {n result : Number} (hn : n.Fits) (h : n.negate = .ok result) :
    result.Fits := by
  cases n with
  | int i => exact fits_of_checked h
  | float x =>
    cases h
    obtain ⟨hfinite, hx⟩ := hn
    refine ⟨?_, isCanonical_neg hx⟩
    cases x with
    | finite negative m e => rfl
    | _ => cases hfinite

theorem fits_of_lift {onInt : Int → Int → Int} {onFloating : Floating → Floating → Floating}
    (hcanonical : ∀ x y, double.IsCanonical (onFloating x y)) {a b result : Number}
    (h : lift onInt onFloating a b = .ok result) : result.Fits := by
  unfold lift at h
  split at h
  · exact fits_of_checked h
  · exact fits_of_finite (hcanonical _ _) h

theorem fits_of_combine {op : Operator} {a b result : Number}
    (h : combine op a b = .ok result) : result.Fits := by
  cases op with
  | add => exact fits_of_lift (isCanonical_add double_precision) h
  | subtract => exact fits_of_lift (fun x y => isCanonical_add double_precision x y.neg) h
  | multiply => exact fits_of_lift (isCanonical_mul double_precision) h
  | divide =>
    have h : divide a b = .ok result := h
    unfold divide at h
    split at h
    · cases h
    · exact fits_of_finite (isCanonical_div double_precision _ _) h

end Number

/-! ### Tokens -/

def Token.Fits : Token → Prop
  | .number n => n.Fits
  | _ => True

theorem Token.fits_of_ofLiteral {characters : List Char} {token : Token}
    (h : Token.ofLiteral characters = .ok token) : token.Fits := by
  unfold Token.ofLiteral at h
  dsimp only at h
  split at h
  · split at h
    · split at h
      · next hrange =>
        cases h
        exact hrange
      · cases h
    · cases h
  · split at h
    · next x hread =>
      split at h
      · next hfinite =>
        cases h
        exact ⟨hfinite, Floating.isCanonical_of_read? Number.double_precision hread⟩
      · cases h
    · cases h

theorem Pending.fits_of_complete {pending : Pending} {tokens : List Token}
    (h : pending.complete = .ok tokens) : ∀ token ∈ tokens, token.Fits := by
  cases pending with
  | nothing =>
    cases h
    simp
  | asterisk =>
    cases h
    simp [Token.Fits]
  | literal characters =>
    obtain ⟨token, hliteral, rfl⟩ := map_eq_ok_iff.mp h
    simpa using Token.fits_of_ofLiteral hliteral
  | name characters => cases h

/-- The tokens that are complete with one character are none of numbers. -/
theorem Pending.fits_of_start {c : Char} {tokens : List Token} {next : Pending}
    (h : start c = .ok (tokens, next)) : ∀ token ∈ tokens, token.Fits := by
  unfold start at h
  repeat' split at h
  all_goals
    cases h
    try simp [Token.Fits]

theorem Pending.fits_of_feed {pending next : Pending} {c : Char} {tokens : List Token}
    (h : pending.feed c = .ok (tokens, next)) : ∀ token ∈ tokens, token.Fits := by
  unfold feed at h
  split at h
  · cases h
  · split at h
    · cases h
      simp
    · obtain ⟨before, hbefore, h⟩ := bind_eq_ok_iff.mp h
      obtain ⟨⟨after, started⟩, hafter, h⟩ := bind_eq_ok_iff.mp h
      cases h
      exact List.forall_mem_append.mpr ⟨fits_of_complete hbefore, fits_of_start hafter⟩

theorem fits_of_tokensFrom {pending : Pending} {text : List Char} {read : List Token}
    (h : tokensFrom pending text = .ok read) : ∀ token ∈ read, token.Fits := by
  induction text generalizing pending read with
  | nil => exact Pending.fits_of_complete h
  | cons c rest ih =>
    obtain ⟨⟨before, next⟩, hfeed, h⟩ := bind_eq_ok_iff.mp h
    obtain ⟨after, hafter, h⟩ := bind_eq_ok_iff.mp h
    cases h
    exact List.forall_mem_append.mpr ⟨Pending.fits_of_feed hfeed, ih hafter⟩

/-! ### The stack -/

def Frame.Fits : Frame → Prop
  | .operation left _ => left.Fits
  | _ => True

/-- All numbers that are held fit. -/
def State.Fits : State → Prop
  | .awaiting stack => ∀ frame ∈ stack, frame.Fits
  | .holding value stack => value.Fits ∧ ∀ frame ∈ stack, frame.Fits

theorem fits_of_settle {value : Number} {stack : List Frame} {state : State} (hv : value.Fits)
    (hs : ∀ frame ∈ stack, frame.Fits) (h : settle value stack = .ok state) : state.Fits := by
  induction stack generalizing value with
  | nil =>
    cases h
    exact ⟨hv, hs⟩
  | cons frame rest ih =>
    obtain ⟨hframe, hrest⟩ := List.forall_mem_cons.mp hs
    cases frame with
    | parenthesis =>
      cases h
      exact ⟨hv, hs⟩
    | sign negative =>
      rw [settle] at h
      split at h
      · obtain ⟨negated, hnegated, h⟩ := bind_eq_ok_iff.mp h
        exact ih (Number.fits_of_negate hv hnegated) hrest h
      · exact ih hv hrest h
    | operation left op =>
      unfold settle at h
      split at h
      · obtain ⟨result, hresult, h⟩ := bind_eq_ok_iff.mp h
        exact ih (Number.fits_of_combine hresult) hrest h
      · cases h
        exact ⟨hv, hs⟩

theorem fits_of_closeSum {value result : Number} {stack rest : List Frame} (hv : value.Fits)
    (hs : ∀ frame ∈ stack, frame.Fits) (h : closeSum value stack = .ok (result, rest)) :
    result.Fits ∧ ∀ frame ∈ rest, frame.Fits := by
  unfold closeSum at h
  split at h
  · obtain ⟨sum, hsum, h⟩ := bind_eq_ok_iff.mp h
    cases h
    exact ⟨Number.fits_of_combine hsum, (List.forall_mem_cons.mp hs).2⟩
  · cases h
    exact ⟨hv, hs⟩

namespace State

theorem fits_of_nest {frame : Frame} {stack : List Frame} {state : State} (hf : frame.Fits)
    (hs : ∀ frame ∈ stack, frame.Fits) (h : nest frame stack = .ok state) : state.Fits := by
  unfold nest at h
  split at h
  · cases h
    exact List.forall_mem_cons.mpr ⟨hf, hs⟩
  · cases h

/-- One token keeps all numbers that are held within their bounds. -/
theorem Fits.step {state next : State} {token : Token} (hs : state.Fits) (ht : token.Fits)
    (h : state.step token = .ok next) : next.Fits := by
  cases state with
  | awaiting stack =>
    cases token with
    | number n => exact fits_of_settle ht hs h
    | opening => exact fits_of_nest (by trivial) hs h
    | closing => cases h
    | operator op =>
      cases op with
      | add => exact fits_of_nest (by trivial) hs h
      | subtract => exact fits_of_nest (by trivial) hs h
      | multiply => cases h
      | divide => cases h
  | holding value stack =>
    obtain ⟨hv, hstack⟩ := hs
    cases token with
    | operator op =>
      simp only [State.step] at h
      split at h
      · cases h
        exact List.forall_mem_cons.mpr ⟨hv, hstack⟩
      · obtain ⟨⟨sum, rest⟩, hsum, h⟩ := bind_eq_ok_iff.mp h
        cases h
        exact List.forall_mem_cons.mpr (fits_of_closeSum hv hstack hsum)
    | _ =>
      -- The token has to close a parenthesis.
      obtain ⟨⟨sum, rest⟩, hclose, h⟩ := bind_eq_ok_iff.mp h
      obtain ⟨hsum, hrest⟩ := fits_of_closeSum hv hstack hclose
      split at h
      · next he =>
        cases he
        exact fits_of_settle hsum (List.forall_mem_cons.mp hrest).2 h
      · cases h
      · cases h

theorem Fits.finish {state : State} {n : Number} (hs : state.Fits) (h : state.finish = .ok n) :
    n.Fits := by
  cases state with
  | awaiting stack => cases h
  | holding value stack =>
    obtain ⟨⟨sum, rest⟩, hsum, h⟩ := bind_eq_ok_iff.mp h
    split at h
    · next he =>
      cases he
      cases h
      exact (fits_of_closeSum hs.1 hs.2 hsum).1
    · cases h

theorem Fits.run {state : State} {tokens : List Token} {n : Number} (hs : state.Fits)
    (ht : ∀ token ∈ tokens, token.Fits) (h : state.run tokens = .ok n) : n.Fits := by
  induction tokens generalizing state with
  | nil => exact hs.finish h
  | cons token rest ih =>
    obtain ⟨htoken, hrest⟩ := List.forall_mem_cons.mp ht
    obtain ⟨next, hnext, h⟩ := bind_eq_ok_iff.mp h
    exact ih (hs.step htoken hnext) hrest h

end State

/-- **The value of an expression fits.** -/
theorem fits_of_evaluate {text : String} {n : Number} (h : evaluate text = .ok n) : n.Fits := by
  obtain ⟨read, hread, h⟩ := bind_eq_ok_iff.mp h
  have htokens := fits_of_tokensFrom hread
  cases read with
  | nil => cases h
  | cons first rest =>
    have hstart : (State.awaiting []).Fits := by simp [State.Fits]
    exact hstart.run htokens h

end ConfigTree.Expression
