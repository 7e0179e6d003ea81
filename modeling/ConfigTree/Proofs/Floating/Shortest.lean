import ConfigTree.Floating.Decimal
import ConfigTree.Proofs.Floating.Rounding
import Mathlib.Tactic.Ring

/-! # Decimals that are rounded to a number

The decimal that is written for a number is looked for in the rounding interval of the number, so
**it is rounded to the number when it is read** (`shortest_roundsTo`, `ofDecimal_eq`).  Nothing is
said here of how few digits it has: that the search finds a decimal at all is not needed, since the
exact decimal that is taken otherwise lies in the interval too.

Reading does not compute powers of ten that are out of reach of every format.  For a format within
reach (`FloatFormat.InReach`) no decimal that is rounded to one of its numbers is passed over.
-/
namespace ConfigTree

/-! ### The search -/

namespace Floating

/-- What an interval is said to contain lies between its ends, and strictly if it is open. -/
theorem RoundingInterval.bounds_of_contains {i : RoundingInterval} {digits : Nat} {power : Int}
    (hnum : 0 < i.unitNum) (hden : 0 < i.unitDen) (h : i.contains digits power = true) :
    (i.low : ℚ) * (i.unitNum / i.unitDen) ≤ digits * 10 ^ power ∧
      (digits : ℚ) * 10 ^ power ≤ i.high * (i.unitNum / i.unitDen) ∧
      (i.closed = false → (i.low : ℚ) * (i.unitNum / i.unitDen) < digits * 10 ^ power ∧
        (digits : ℚ) * 10 ^ power < i.high * (i.unitNum / i.unitDen)) := by
  have hnum : (0 : ℚ) < i.unitNum := Nat.cast_pos.mpr hnum
  have hden : (0 : ℚ) < i.unitDen := Nat.cast_pos.mpr hden
  have hunit : (0 : ℚ) < i.unitNum / i.unitDen := div_pos hnum hden
  obtain ⟨num, den, hpos, hvalue, hcontains⟩ : ∃ num den : Nat, (0 : ℚ) < den ∧
      (num : ℚ) / den = digits * 10 ^ power / (i.unitNum / i.unitDen) ∧
      i.contains digits power = if i.closed then i.low * den ≤ num && num ≤ i.high * den
        else i.low * den < num && num < i.high * den := by
    cases power with
    | ofNat p =>
      refine ⟨digits * Nat.pow 10 p * i.unitDen, i.unitNum, hnum, ?_, rfl⟩
      rw [Nat.pow_eq, Int.ofNat_eq_natCast, zpow_natCast]
      push_cast
      field_simp
    | negSucc p =>
      refine ⟨digits * i.unitDen, i.unitNum * Nat.pow 10 (p + 1), ?_, ?_, rfl⟩
      · rw [Nat.pow_eq]
        push_cast
        positivity
      · rw [Nat.pow_eq, zpow_negSucc]
        push_cast
        field_simp
  have hle : ∀ k : Nat, k * den ≤ num ↔
      (k : ℚ) * (i.unitNum / i.unitDen) ≤ digits * 10 ^ power := by
    intro k
    rw [← le_div_iff₀ hunit, ← hvalue, le_div_iff₀ hpos]
    exact_mod_cast Iff.rfl
  have hge : ∀ k : Nat, num ≤ k * den ↔
      (digits : ℚ) * 10 ^ power ≤ k * (i.unitNum / i.unitDen) := by
    intro k
    rw [← div_le_iff₀ hunit, ← hvalue, div_le_iff₀ hpos]
    exact_mod_cast Iff.rfl
  rw [hcontains] at h
  split at h
  · next hclosed =>
    obtain ⟨hlow, hhigh⟩ : i.low * den ≤ num ∧ num ≤ i.high * den := by simpa using h
    exact ⟨(hle _).mp hlow, (hge _).mp hhigh, fun ho => absurd hclosed (by simp [ho])⟩
  · obtain ⟨hlow, hhigh⟩ : i.low * den < num ∧ num < i.high * den := by simpa using h
    refine ⟨(hle _).mp hlow.le, (hge _).mp hhigh.le, fun _ => ⟨?_, ?_⟩⟩
    · exact not_le.mp (mt (hge _).mpr (not_le.mpr hlow))
    · exact not_le.mp (mt (hle _).mpr (not_le.mpr hhigh))

theorem RoundingInterval.contains_of_nearest? {i : RoundingInterval} {tie : Tie} {power : Int}
    {digits : Nat} (h : i.nearest? tie power = some digits) : i.contains digits power = true := by
  unfold nearest? at h
  dsimp only at h
  split at h
  · cases h
  · next hbelow _ =>
    cases h
    exact hbelow
  · next _ habove =>
    cases h
    exact habove
  · next hbelow habove =>
    cases h
    -- Whichever of the two is written, it has been found in the interval.
    split <;> split <;> assumption

theorem RoundingInterval.contains_of_search {i : RoundingInterval} {tie : Tie} {steps : Nat}
    {power : Int} {decimal : Nat × Int} (h : i.search tie steps power = some decimal) :
    i.contains decimal.1 decimal.2 = true := by
  induction steps generalizing power with
  | zero => cases h
  | succ steps ih =>
    unfold search at h
    split at h
    · next digits hnearest =>
      cases h
      exact contains_of_nearest? hnearest
    · exact ih h

variable {f : FloatFormat}

theorem roundingInterval_unit (m : Nat) (e : Int) :
    ((roundingInterval f m e).unitNum : ℚ) / (roundingInterval f m e).unitDen = 2 ^ e / 4 := by
  have h := scaleRatio_eq 1 1 (2 - e)
  rw [neg_sub, zpow_sub₀ two_ne_zero] at h
  norm_num at h
  exact h

/-- What the interval of a number contains is rounded to it. -/
theorem roundsTo_of_contains {m : Nat} {e : Int} (hm : 0 < m) {digits : Nat} {power : Int}
    (h : (roundingInterval f m e).contains digits power = true) :
    f.RoundsTo m e (digits * 10 ^ power) := by
  have hnum : 0 < (roundingInterval f m e).unitNum := scaleRatio_num_pos one_pos ..
  have hden : 0 < (roundingInterval f m e).unitDen := scaleRatio_pos one_pos _
  obtain ⟨hlow, hhigh, hopen⟩ := RoundingInterval.bounds_of_contains hnum hden h
  rw [roundingInterval_unit] at hlow hhigh hopen
  have hpow : (0 : ℚ) < 2 ^ e := by positivity
  have hm : (1 : ℚ) ≤ m := by exact_mod_cast hm
  have hhighest : ((roundingInterval f m e).high : ℚ) = 4 * m + 2 := by
    rw [roundingInterval]
    push_cast
    rfl
  have hlower : (roundingInterval f m e).low =
      if m = 2 ^ (f.precision - 1) ∧ f.minExponent < e then 4 * m - 1 else 4 * m - 2 := by
    simp [roundingInterval]
  have hlowest : (4 * m - 2 : ℚ) ≤ (roundingInterval f m e).low := by
    have : 4 * m ≤ (roundingInterval f m e).low + 2 := by
      rw [hlower]
      split <;> omega
    have : (4 * m : ℚ) ≤ (roundingInterval f m e).low + 2 := by exact_mod_cast this
    linarith
  constructor
  · nlinarith
  · intro hpower hmin
    rw [hlower, if_pos ⟨hpower, hmin⟩, Nat.cast_pred (by omega)] at hlow
    push_cast at hlow
    linarith
  · rw [hhighest] at hhigh
    linarith
  · intro htie
    by_contra hodd
    obtain ⟨hlow, hhigh⟩ := hopen (by simpa [roundingInterval] using hodd)
    rw [hhighest] at hhigh
    rcases htie with htie | htie
    · nlinarith
    · linarith

/-- The decimal that is taken when the search ends without one is the number itself. -/
theorem exactDecimal_eq (m : Nat) (e : Int) :
    ((exactDecimal m e).1 : ℚ) * 10 ^ (exactDecimal m e).2 = m * 2 ^ e := by
  cases e with
  | ofNat e =>
    rw [exactDecimal, Nat.shiftLeft_eq, Int.ofNat_eq_natCast, zpow_natCast, zpow_zero]
    push_cast
    rw [mul_one]
  | negSucc e =>
    rw [exactDecimal, Nat.pow_eq, zpow_negSucc, zpow_negSucc, show (10 : ℚ) = 5 * 2 by norm_num,
      mul_pow]
    push_cast
    field_simp

/-- **The written decimal is rounded to the number.** -/
theorem shortest_roundsTo (tie : Tie) {m : Nat} (e : Int) (hm : 0 < m) :
    f.RoundsTo m e ((shortest f tie m e).1 * 10 ^ (shortest f tie m e).2) := by
  unfold shortest
  split
  · next decimal hsearch =>
    exact roundsTo_of_contains hm (RoundingInterval.contains_of_search hsearch)
  · rw [exactDecimal_eq]
    exact f.roundsTo_self m e

end Floating

/-! ### Reading decimals -/

namespace FloatFormat

/-- Every number of the format lies between the least and the greatest power of ten that is
computed. -/
structure InReach (f : FloatFormat) : Prop where
  precision : 0 < f.precision
  least : -1200 ≤ f.minExponent
  greatest : f.precision + f.maxExponent ≤ 1200

theorem inReach_double : double.InReach := ⟨by decide, by decide, by decide⟩

variable {f : FloatFormat}

/-- A number is below the power of ten with as many zeros as its bits can make digits. -/
theorem lt_ten_zpow (digits : Nat) : (digits : ℚ) < 10 ^ ((digits.log2 / 3 + 1 : Nat) : ℤ) := by
  have hlog : digits.log2 + 1 ≤ 3 * (digits.log2 / 3 + 1) := by omega
  have h : digits < 10 ^ (digits.log2 / 3 + 1) :=
    calc digits < 2 ^ (digits.log2 + 1) := Nat.lt_log2_self
      _ ≤ 2 ^ (3 * (digits.log2 / 3 + 1)) := Nat.pow_le_pow_right (by omega) hlog
      _ = 8 ^ (digits.log2 / 3 + 1) := Nat.pow_mul ..
      _ ≤ 10 ^ (digits.log2 / 3 + 1) := Nat.pow_le_pow_left (by omega) _
  rw [zpow_natCast]
  exact_mod_cast h

theorem two_zpow_lt_ten_zpow : (2 : ℚ) ^ (1201 : ℤ) < 10 ^ (401 : ℤ) :=
  calc (2 : ℚ) ^ (1201 : ℤ) < 2 ^ (3 * 401 : ℤ) := zpow_lt_zpow_right₀ one_lt_two (by omega)
    _ = 8 ^ (401 : ℤ) := by rw [zpow_mul]; norm_num only
    _ ≤ 10 ^ (401 : ℤ) := zpow_le_zpow_left₀ (by omega) (by norm_num) (by norm_num)

theorem RoundsTo.bounds (hf : f.InReach) {negative : Bool} {m : Nat} {e : Int} (hm : 0 < m)
    (hc : f.IsCanonical (.finite negative m e)) {x : ℚ} (h : f.RoundsTo m e x) :
    2 ^ (-1201 : ℤ) ≤ x ∧ x ≤ 2 ^ (1200 : ℤ) := by
  obtain ⟨hlt, hmin, hmax, -⟩ := hc.bounds hm
  have hleast := hf.least
  have hgreatest := hf.greatest
  have hpow : (0 : ℚ) < 2 ^ e := by positivity
  constructor
  · have hm : (1 : ℚ) ≤ m := by exact_mod_cast hm
    calc (2 : ℚ) ^ (-1201 : ℤ) ≤ 2 ^ (e - 1) := zpow_le_zpow_right₀ one_le_two (by omega)
      _ = 1 / 2 * 2 ^ e := by rw [zpow_sub_one₀ two_ne_zero]; ring
      _ ≤ (m - 1 / 2) * 2 ^ e := by gcongr; linarith
      _ ≤ x := h.low
  · have hm : (m : ℚ) + 1 ≤ 2 ^ (f.precision : ℤ) := by
      rw [zpow_natCast]
      exact_mod_cast hlt
    calc x ≤ (m + 1 / 2) * 2 ^ e := h.high
      _ ≤ 2 ^ (f.precision : ℤ) * 2 ^ e := by gcongr; linarith
      _ = 2 ^ (f.precision + e) := (zpow_add₀ two_ne_zero ..).symm
      _ ≤ 2 ^ (1200 : ℤ) := zpow_le_zpow_right₀ one_le_two (by omega)

/-- **A decimal that is rounded to a number is read as this number.** -/
theorem ofDecimal_eq (hf : f.InReach) (negative : Bool) {m : Nat} {e : Int} (hm : 0 < m)
    (hc : f.IsCanonical (.finite negative m e)) {digits : Nat} {exponent : Int}
    (h : f.RoundsTo m e (digits * 10 ^ exponent)) :
    f.ofDecimal negative digits exponent = .finite negative m e := by
  obtain ⟨hleast, hgreatest⟩ := h.bounds hf hm hc
  have hdigits : 0 < digits := by
    by_contra hzero
    obtain rfl : digits = 0 := by omega
    exact absurd (h.pos hm) (by simp)
  have hlow : ¬exponent + (digits.log2 / 3 + 1 : Nat) < -400 := by
    refine fun hlow => absurd hleast (not_le.mpr ?_)
    calc (digits : ℚ) * 10 ^ exponent
        < 10 ^ ((digits.log2 / 3 + 1 : Nat) : ℤ) * 10 ^ exponent := by
          gcongr
          exact lt_ten_zpow digits
      _ = 10 ^ ((digits.log2 / 3 + 1 : Nat) + exponent) := (zpow_add₀ (by norm_num) ..).symm
      _ ≤ 10 ^ (-401 : ℤ) := zpow_le_zpow_right₀ (by norm_num) (by omega)
      _ ≤ 2 ^ (-1201 : ℤ) := by
        rw [zpow_neg, zpow_neg]
        exact inv_anti₀ (by positivity) two_zpow_lt_ten_zpow.le
  have hhigh : ¬400 < exponent := by
    have hone : (1 : ℚ) ≤ digits := by exact_mod_cast hdigits
    refine fun hhigh => absurd hgreatest (not_le.mpr ?_)
    calc (2 : ℚ) ^ (1200 : ℤ) ≤ 2 ^ (1201 : ℤ) := zpow_le_zpow_right₀ one_le_two (by omega)
      _ < 10 ^ (401 : ℤ) := two_zpow_lt_ten_zpow
      _ ≤ 10 ^ exponent := zpow_le_zpow_right₀ (by norm_num) (by omega)
      _ ≤ digits * 10 ^ exponent := le_mul_of_one_le_left (by positivity) hone
  have hguard : ¬((digits = 0 || exponent + ((digits.log2 : Int) / 3 + 1) < -400) = true) := by
    simp only [Bool.or_eq_true, decide_eq_true_eq]
    omega
  simp only [ofDecimal, if_neg hguard, if_neg hhigh]
  cases exponent with
  | ofNat k =>
    refine roundRatio_eq hf.precision negative hm hc one_pos ?_
    simpa using h
  | negSucc k =>
    refine roundRatio_eq hf.precision negative hm hc (Nat.pow_pos (by omega)) ?_
    simpa [zpow_negSucc, div_eq_mul_inv] using h

end FloatFormat

end ConfigTree
