import ConfigTree.Floating.Basic
import Mathlib.Algebra.Order.Field.Power
import Mathlib.Data.Rat.Lemmas
import Mathlib.Tactic.FieldSimp
import Mathlib.Tactic.Linarith
import Mathlib.Tactic.Positivity

/-! # Rounding to a binary format

Quotients of natural numbers are rational numbers here, and powers of two have integer exponents, so
that a quotient and the significand it is rounded to can be compared.

Every number of a format is the one to which the quotients around it are rounded, up to the points
halfway to its neighbours (`FloatFormat.RoundsTo`): **a quotient in the rounding interval of a
number is rounded to that number** (`FloatFormat.roundRatio_eq`).  The exponent is chosen from the
bits of numerator and denominator (`exponentOf_spec`); it is the one of the number, except in the
lower half of the interval of a power of two, where the significand is carried over.

What is rounded has the one form that its format has for a number, and so has what is computed
(`isCanonical_roundRatio` and the lemmas on arithmetic).
-/
namespace ConfigTree

/-! ### Quotients -/

theorem scaleRatio_pos {num den : Nat} (h : 0 < den) (e : Int) : 0 < (scaleRatio num den e).2 := by
  cases e with
  | ofNat e =>
    rw [scaleRatio, Nat.shiftLeft_eq]
    positivity
  | negSucc e => exact h

theorem scaleRatio_num_pos {num : Nat} (h : 0 < num) (den : Nat) (e : Int) :
    0 < (scaleRatio num den e).1 := by
  cases e with
  | ofNat e => exact h
  | negSucc e =>
    rw [scaleRatio, Nat.shiftLeft_eq]
    positivity

/-- Scaling divides by a power of two. -/
theorem scaleRatio_eq (num den : Nat) (e : Int) :
    ((scaleRatio num den e).1 : ℚ) / (scaleRatio num den e).2 = num / den * 2 ^ (-e) := by
  cases e with
  | ofNat e =>
    simp only [scaleRatio, Nat.shiftLeft_eq, Int.ofNat_eq_natCast, zpow_neg, zpow_natCast]
    push_cast
    rw [div_mul_eq_div_div, div_eq_mul_inv (_ / _)]
  | negSucc e =>
    simp only [scaleRatio, Nat.shiftLeft_eq, Int.neg_negSucc, zpow_natCast]
    push_cast
    rw [mul_div_right_comm]

/-! ### The nearest natural number -/

theorem nearestNat_eq_of_le {num den k : Nat} (hd : 0 < den)
    (hlow : 2 * (k * den) ≤ 2 * num + den) (hhigh : 2 * num ≤ 2 * (k * den) + den)
    (htie : 2 * (k * den) = 2 * num + den ∨ 2 * num = 2 * (k * den) + den → k % 2 = 0) :
    nearestNat num den = k := by
  have hnum : num / den * den + num % den = num := Nat.div_add_mod' num den
  have hrest : num % den < den := Nat.mod_lt num hd
  have hge : num / den ≤ k := by
    by_contra hk
    have := Nat.mul_le_mul_right den (show k + 1 ≤ num / den by omega)
    rw [Nat.succ_mul] at this
    omega
  have hle : k ≤ num / den + 1 := by
    by_contra hk
    have := Nat.mul_le_mul_right den (show num / den + 2 ≤ k by omega)
    rw [Nat.add_mul] at this
    omega
  unfold nearestNat
  rcases Nat.lt_or_ge (num / den) k with hlt | hge'
  · obtain rfl : k = num / den + 1 := by omega
    have hnext : (num / den + 1) * den = num / den * den + den := Nat.succ_mul ..
    rw [if_pos]
    simp only [Bool.or_eq_true, decide_eq_true_eq, Bool.and_eq_true, beq_iff_eq]
    omega
  · obtain rfl : k = num / den := by omega
    rw [if_neg]
    simp only [Bool.or_eq_true, decide_eq_true_eq, Bool.and_eq_true, beq_iff_eq]
    omega

theorem le_nearestNat {num den k : Nat} (hd : 0 < den) (h : k * den ≤ num) :
    k ≤ nearestNat num den := by
  have hq : k ≤ num / den := (Nat.le_div_iff_mul_le hd).mpr h
  simp only [nearestNat]
  split <;> omega

theorem nearestNat_le {num den k : Nat} (hd : 0 < den) (h : num < k * den) :
    nearestNat num den ≤ k := by
  have hq : num / den < k := (Nat.div_lt_iff_lt_mul hd).mpr h
  simp only [nearestNat]
  split <;> omega

/-- A quotient less than a half away from a natural number is rounded to it, and one that is just a
half away if the number is even. -/
theorem nearestNat_eq {num den k : Nat} (hd : 0 < den) (hlow : (k : ℚ) - 1 / 2 ≤ num / den)
    (hhigh : (num : ℚ) / den ≤ k + 1 / 2)
    (htie : (k : ℚ) - 1 / 2 = num / den ∨ (num : ℚ) / den = k + 1 / 2 → k % 2 = 0) :
    nearestNat num den = k := by
  have hden : (0 : ℚ) < den := Nat.cast_pos.mpr hd
  rw [le_div_iff₀ hden] at hlow
  rw [div_le_iff₀ hden] at hhigh
  rw [eq_div_iff hden.ne', div_eq_iff hden.ne'] at htie
  refine nearestNat_eq_of_le hd ?_ ?_ ?_
  · exact_mod_cast (by linarith : (2 : ℚ) * (k * den) ≤ 2 * num + den)
  · exact_mod_cast (by linarith : (2 : ℚ) * num ≤ 2 * (k * den) + den)
  · rintro (h | h)
    · have h : (2 : ℚ) * (k * den) = 2 * num + den := by exact_mod_cast h
      exact htie (.inl (by linarith))
    · have h : (2 : ℚ) * num = 2 * (k * den) + den := by exact_mod_cast h
      exact htie (.inr (by linarith))

/-! ### The exponent -/

namespace FloatFormat

variable {f : FloatFormat} {num den : Nat}

theorem log2_bounds {n : Nat} (h : 0 < n) :
    (2 : ℚ) ^ (n.log2 : ℤ) ≤ n ∧ (n : ℚ) < 2 ^ ((n.log2 : ℤ) + 1) := by
  constructor
  · rw [zpow_natCast]
    exact_mod_cast Nat.log2_self_le h.ne'
  · rw [← Nat.cast_succ, zpow_natCast]
    exact_mod_cast Nat.lt_log2_self

/-- The significand at the chosen exponent is short enough, and it has its full number of bits
unless the exponent is the least one. -/
theorem exponentOf_spec (hn : 0 < num) (hd : 0 < den) :
    f.minExponent ≤ f.exponentOf num den ∧
      (num : ℚ) / den < 2 ^ (f.precision + f.exponentOf num den) ∧
      (f.exponentOf num den = f.minExponent ∨
        (2 : ℚ) ^ (f.precision - 1 + f.exponentOf num den) ≤ num / den) := by
  obtain ⟨hn1, hn2⟩ := log2_bounds hn
  obtain ⟨hd1, hd2⟩ := log2_bounds hd
  have hden : (0 : ℚ) < den := Nat.cast_pos.mpr hd
  set low : Int := (num.log2 : Int) - den.log2 - f.precision with hlow
  have hlower : (2 : ℚ) ^ (f.precision - 1 + low) ≤ num / den := by
    rw [le_div_iff₀ hden]
    calc (2 : ℚ) ^ (f.precision - 1 + low) * den
        ≤ 2 ^ (f.precision - 1 + low) * 2 ^ ((den.log2 : ℤ) + 1) := by gcongr
      _ = 2 ^ (num.log2 : ℤ) := by rw [← zpow_add₀ two_ne_zero]; congr 1; omega
      _ ≤ num := hn1
  have hupper : (num : ℚ) / den < 2 ^ (f.precision + (low + 1)) := by
    rw [div_lt_iff₀ hden]
    calc (num : ℚ) < 2 ^ ((num.log2 : ℤ) + 1) := hn2
      _ = 2 ^ (f.precision + (low + 1)) * 2 ^ (den.log2 : ℤ) := by
        rw [← zpow_add₀ two_ne_zero]; congr 1; omega
      _ ≤ 2 ^ (f.precision + (low + 1)) * den := by gcongr
  -- The quotient is cut to whole units, which does not matter below a whole number.
  have hfull : (scaleRatio num den low).1 / (scaleRatio num den low).2 < Nat.pow 2 f.precision ↔
      (num : ℚ) / den < 2 ^ (f.precision + low) := by
    have hscaled : (0 : ℚ) < (scaleRatio num den low).2 := Nat.cast_pos.mpr (scaleRatio_pos hd low)
    rw [Nat.div_lt_iff_lt_mul (scaleRatio_pos hd low), ← Nat.cast_lt (α := ℚ), Nat.cast_mul,
      ← div_lt_iff₀ hscaled, scaleRatio_eq, zpow_neg, mul_inv_lt_iff₀ (by positivity),
      zpow_add₀ two_ne_zero]
    simp
  have he : f.exponentOf num den = max f.minExponent
      (if (scaleRatio num den low).1 / (scaleRatio num den low).2 < Nat.pow 2 f.precision then low
        else low + 1) := rfl
  obtain ⟨full, hfull, hlt, hge⟩ : ∃ full : Int,
      (if (scaleRatio num den low).1 / (scaleRatio num den low).2 < Nat.pow 2 f.precision then low
        else low + 1) = full ∧
      (num : ℚ) / den < 2 ^ (f.precision + full) ∧
      (2 : ℚ) ^ (f.precision - 1 + full) ≤ num / den := by
    split
    · next h => exact ⟨low, rfl, hfull.mp h, hlower⟩
    · next h =>
      have hbig := not_lt.mp (mt hfull.mpr h)
      rw [show f.precision + low = f.precision - 1 + (low + 1) by omega] at hbig
      exact ⟨low + 1, rfl, hupper, hbig⟩
  rw [he, hfull]
  refine ⟨le_max_left .., hlt.trans_le (zpow_le_zpow_right₀ one_le_two (by omega)), ?_⟩
  rcases le_total full f.minExponent with hle | hle
  · exact .inl (max_eq_left hle)
  · right
    rw [max_eq_right hle]
    exact hge

/-- The number that is chosen once the significand is rounded, which may have carried it over to
the next power of two. -/
theorem roundRatio_eq_of_nearest (hn : num ≠ 0) (negative : Bool) {k : Nat}
    (hk : nearestNat (scaleRatio num den (f.exponentOf num den)).1
      (scaleRatio num den (f.exponentOf num den)).2 = k) :
    f.roundRatio negative num den =
      if k = 2 ^ f.precision then
        if f.maxExponent < f.exponentOf num den + 1 then .infinite negative
        else .finite negative (2 ^ (f.precision - 1)) (f.exponentOf num den + 1)
      else if k = 0 then .finite negative 0 0
      else if f.maxExponent < f.exponentOf num den then .infinite negative
      else .finite negative k (f.exponentOf num den) := by
  have hpow : 2 ^ (f.precision - 1) ≠ 0 := (Nat.two_pow_pos _).ne'
  simp only [roundRatio, if_neg hn, hk, Nat.pow_eq]
  by_cases hcarry : k = 2 ^ f.precision
  · simp only [if_pos hcarry, if_neg hpow]
  · simp only [if_neg hcarry]

/-- The bounds of a canonical number that is not zero. -/
theorem IsCanonical.bounds {negative : Bool} {m : Nat} {e : Int}
    (h : f.IsCanonical (.finite negative m e)) (hm : 0 < m) :
    m < 2 ^ f.precision ∧ f.minExponent ≤ e ∧ e ≤ f.maxExponent ∧
      (2 ^ (f.precision - 1) ≤ m ∨ e = f.minExponent) :=
  (h.resolve_left fun hzero => hm.ne' hzero.1).2

/-- **What is rounded is in its one form.** -/
theorem isCanonical_roundRatio (hp : 0 < f.precision) (negative : Bool) (num : Nat)
    (hd : 0 < den) : f.IsCanonical (f.roundRatio negative num den) := by
  by_cases hn : num = 0
  · rw [roundRatio, if_pos hn]
    exact .inl ⟨rfl, rfl⟩
  · obtain ⟨hmin, hupper, hlower⟩ := exponentOf_spec (f := f) (Nat.pos_of_ne_zero hn) hd
    rw [roundRatio_eq_of_nearest hn negative rfl]
    have hbits : 2 ^ (f.precision - 1) < 2 ^ f.precision :=
      Nat.pow_lt_pow_right one_lt_two (by omega)
    split
    · split
      · trivial
      · exact .inr ⟨Nat.two_pow_pos _, hbits, by omega, by omega, .inl le_rfl⟩
    · next hcarry =>
      split
      · exact .inl ⟨rfl, rfl⟩
      · next hzero =>
        split
        · trivial
        · have hscaled : 0 < (scaleRatio num den (f.exponentOf num den)).2 := scaleRatio_pos hd _
          have hcast : (0 : ℚ) < (scaleRatio num den (f.exponentOf num den)).2 :=
            Nat.cast_pos.mpr hscaled
          have hpow : (0 : ℚ) < 2 ^ f.exponentOf num den := by positivity
          have hk : nearestNat (scaleRatio num den (f.exponentOf num den)).1
              (scaleRatio num den (f.exponentOf num den)).2 ≤ 2 ^ f.precision := by
            refine nearestNat_le hscaled ?_
            rw [← Nat.cast_lt (α := ℚ), Nat.cast_mul, ← div_lt_iff₀ hcast, scaleRatio_eq, zpow_neg,
              mul_inv_lt_iff₀ hpow]
            rw [zpow_add₀ two_ne_zero, zpow_natCast] at hupper
            exact_mod_cast hupper
          refine .inr ⟨Nat.pos_of_ne_zero hzero, lt_of_le_of_ne hk hcarry, hmin, by omega,
            hlower.symm.imp_left fun hlower => le_nearestNat hscaled ?_⟩
          rw [← Nat.cast_le (α := ℚ), Nat.cast_mul, ← le_div_iff₀ hcast, scaleRatio_eq, zpow_neg,
            le_mul_inv_iff₀ hpow]
          rw [zpow_add₀ two_ne_zero, ← Nat.cast_pred hp, zpow_natCast] at hlower
          exact_mod_cast hlower

/-! ### What is rounded to a number -/

/-- The numbers that are rounded to `m · 2 ^ e`: those between the points halfway to its neighbours,
and these themselves if the significand is even.  The neighbour below a power of two is only half as
far away as the one above. -/
structure RoundsTo (f : FloatFormat) (m : Nat) (e : Int) (x : ℚ) : Prop where
  low : ((m : ℚ) - 1 / 2) * 2 ^ e ≤ x
  power : m = 2 ^ (f.precision - 1) → f.minExponent < e → ((m : ℚ) - 1 / 4) * 2 ^ e ≤ x
  high : x ≤ ((m : ℚ) + 1 / 2) * 2 ^ e
  tie : ((m : ℚ) - 1 / 2) * 2 ^ e = x ∨ x = ((m : ℚ) + 1 / 2) * 2 ^ e → m % 2 = 0

theorem RoundsTo.pos {m : Nat} {e : Int} {x : ℚ} (h : f.RoundsTo m e x) (hm : 0 < m) : 0 < x := by
  have hm : (1 : ℚ) ≤ m := by exact_mod_cast hm
  have hpow : (0 : ℚ) < 2 ^ e := by positivity
  have := mul_pos (by linarith : (0 : ℚ) < m - 1 / 2) hpow
  linarith [h.low]

/-- The exponent is chosen too small only below a power of two, and then by one. -/
theorem RoundsTo.exponent {m : Nat} {e : Int} (hp : 0 < f.precision)
    (hlt : m < 2 ^ f.precision) (hfull : 2 ^ (f.precision - 1) ≤ m ∨ e = f.minExponent)
    (hmin : f.minExponent ≤ e) (hn : 0 < num) (hd : 0 < den)
    (h : f.RoundsTo m e (num / den)) :
    f.exponentOf num den = e ∨
      f.exponentOf num den = e - 1 ∧ m = 2 ^ (f.precision - 1) ∧ f.minExponent < e := by
  obtain ⟨hge, hupper, hlower⟩ := exponentOf_spec (f := f) hn hd
  have hpow : (0 : ℚ) < 2 ^ e := by positivity
  rcases lt_trichotomy (f.exponentOf num den) e with hless | heq | hmore
  · right
    have hfull : 2 ^ (f.precision - 1) ≤ m := hfull.resolve_right (by omega)
    have hhalf : ∀ d : Nat, f.exponentOf num den ≤ e - d →
        (num : ℚ) / den < 2 ^ (f.precision - d : ℤ) * 2 ^ e := by
      intro d hd
      rw [← zpow_add₀ two_ne_zero]
      exact hupper.trans_le (zpow_le_zpow_right₀ one_le_two (by omega))
    have hbits : (2 : ℚ) ^ (f.precision - 1 : ℤ) = (2 ^ (f.precision - 1) : Nat) := by
      rw [← Nat.cast_pred hp, zpow_natCast]
      norm_cast
    have hm : m = 2 ^ (f.precision - 1) := by
      by_contra hne
      have hsucc : (2 : ℚ) ^ (f.precision - 1 : ℤ) + 1 ≤ m := by
        rw [hbits]
        exact_mod_cast lt_of_le_of_ne hfull (Ne.symm hne)
      have hx := hhalf 1 (by omega)
      have hlow := h.low
      nlinarith
    have hpred : f.exponentOf num den = e - 1 := by
      by_contra hne
      have hone : (1 : ℚ) ≤ 2 ^ (f.precision - 1 : ℤ) := by
        rw [hbits]
        exact_mod_cast Nat.one_le_two_pow
      have hx := hhalf 2 (by omega)
      have hlow := h.power hm (by omega)
      rw [hm, ← hbits] at hlow
      rw [show (f.precision - (2 : Nat) : ℤ) = (f.precision - 1) - 1 by omega,
        zpow_sub_one₀ two_ne_zero] at hx
      nlinarith
    exact ⟨hpred, hm, by omega⟩
  · exact .inl heq
  · exfalso
    have hlower := hlower.resolve_left (by omega)
    have hsucc : (m : ℚ) + 1 ≤ 2 ^ (f.precision : ℤ) := by
      rw [zpow_natCast]
      exact_mod_cast hlt
    have : (num : ℚ) / den < 2 ^ (f.precision - 1 + f.exponentOf num den) := by
      calc (num : ℚ) / den ≤ (m + 1 / 2) * 2 ^ e := h.high
        _ < 2 ^ (f.precision : ℤ) * 2 ^ e := by gcongr; linarith
        _ = 2 ^ (f.precision + e) := (zpow_add₀ two_ne_zero ..).symm
        _ ≤ 2 ^ (f.precision - 1 + f.exponentOf num den) :=
          zpow_le_zpow_right₀ one_le_two (by omega)
    linarith

/-- **What lies in the rounding interval of a number is rounded to it.** -/
theorem roundRatio_eq (hp : 0 < f.precision) (negative : Bool) {m : Nat} {e : Int} (hm : 0 < m)
    (hc : f.IsCanonical (.finite negative m e)) (hd : 0 < den)
    (h : f.RoundsTo m e (num / den)) : f.roundRatio negative num den = .finite negative m e := by
  obtain ⟨hlt, hmin, hmax, hfull⟩ := hc.bounds hm
  have hn : 0 < num := by
    have hden : (0 : ℚ) < den := Nat.cast_pos.mpr hd
    exact_mod_cast (div_pos_iff_of_pos_right hden).mp (h.pos hm)
  have hpow : (0 : ℚ) < 2 ^ e := by positivity
  have hscaled : 0 < (scaleRatio num den (f.exponentOf num den)).2 := scaleRatio_pos hd _
  rcases h.exponent hp hlt hfull hmin hn hd with he | ⟨he, hm, hmin⟩
  · have hnearest : nearestNat (scaleRatio num den (f.exponentOf num den)).1
        (scaleRatio num den (f.exponentOf num den)).2 = m := by
      refine nearestNat_eq hscaled ?_ ?_ ?_ <;> rw [scaleRatio_eq, he, zpow_neg]
      · exact (le_mul_inv_iff₀ hpow).mpr h.low
      · exact (mul_inv_le_iff₀ hpow).mpr h.high
      · rw [eq_mul_inv_iff_mul_eq₀ hpow.ne', mul_inv_eq_iff_eq_mul₀ hpow.ne']
        exact h.tie
    rw [roundRatio_eq_of_nearest hn.ne' negative hnearest, if_neg hlt.ne, if_neg hm.ne',
      if_neg (by omega), he]
  · -- Seen with the smaller exponent, the number is the carry of the largest significand.
    have hhalf : (2 : ℚ) ^ (e - 1) = 2 ^ e / 2 := zpow_sub_one₀ two_ne_zero e
    have hcarry : 2 ^ f.precision = 2 * m := by
      rw [hm, ← Nat.pow_succ', Nat.succ_eq_add_one, Nat.sub_add_cancel hp]
    have hcast : ((2 ^ f.precision : Nat) : ℚ) = 2 * m := by
      rw [hcarry]
      push_cast
      rfl
    have hlow := h.power hm hmin
    have hhigh : (num : ℚ) / den < 2 * m * (2 ^ e / 2) := by
      have hupper := (exponentOf_spec (f := f) hn hd).2.1
      rw [he, zpow_add₀ two_ne_zero, zpow_natCast, hhalf] at hupper
      rw [← hcast]
      exact_mod_cast hupper
    have hnearest : nearestNat (scaleRatio num den (f.exponentOf num den)).1
        (scaleRatio num den (f.exponentOf num den)).2 = 2 ^ f.precision := by
      refine nearestNat_eq hscaled ?_ ?_ ?_ <;> rw [scaleRatio_eq, he, zpow_neg, hhalf]
      · rw [hcast, le_mul_inv_iff₀ (by positivity)]
        linarith
      · rw [hcast, mul_inv_le_iff₀ (by positivity)]
        linarith
      · rintro -
        rw [hcarry, Nat.mul_mod_right]
    rw [roundRatio_eq_of_nearest hn.ne' negative hnearest, if_pos rfl,
      if_neg (by omega), he, hm, sub_add_cancel]

theorem roundsTo_self (f : FloatFormat) (m : Nat) (e : Int) : f.RoundsTo m e (m * 2 ^ e) := by
  have hpow : (0 : ℚ) < 2 ^ e := by positivity
  constructor
  · nlinarith
  · intros
    nlinarith
  · nlinarith
  · rintro (h | h) <;> nlinarith

theorem round_eq_roundRatio (negative : Bool) (m : Nat) (e : Int) :
    f.round negative m e =
      f.roundRatio negative (scaleRatio m 1 (-e)).1 (scaleRatio m 1 (-e)).2 := rfl

theorem round_eq (hp : 0 < f.precision) {negative : Bool} {m : Nat} {e : Int}
    (hc : f.IsCanonical (.finite negative m e)) : f.round negative m e = .finite negative m e := by
  rcases Nat.eq_zero_or_pos m with rfl | hm
  · obtain rfl : e = 0 := (hc.resolve_right fun h => absurd h.1 (lt_irrefl 0)).2
    rfl
  · rw [round_eq_roundRatio]
    refine roundRatio_eq hp negative hm hc (scaleRatio_pos one_pos _) ?_
    rw [scaleRatio_eq, Nat.cast_one, div_one, neg_neg]
    exact roundsTo_self f m e

/-- Converting a number to the format that it is of changes nothing. -/
theorem convert_eq (hp : 0 < f.precision) {x : Floating} (hc : f.IsCanonical x) :
    f.convert x = x := by
  cases x with
  | nan => rfl
  | infinite negative => rfl
  | finite negative m e => exact round_eq hp hc

/-! ### Arithmetic -/

theorem isCanonical_round (hp : 0 < f.precision) (negative : Bool) (m : Nat) (e : Int) :
    f.IsCanonical (f.round negative m e) :=
  isCanonical_roundRatio hp negative _ (scaleRatio_pos one_pos _)

theorem isCanonical_ofInt (hp : 0 < f.precision) (i : Int) : f.IsCanonical (f.ofInt i) :=
  isCanonical_roundRatio hp _ _ one_pos

/-- The exponent is not much larger than the quotient needs. -/
theorem exponentOf_le (num den : Nat) :
    f.exponentOf num den ≤ max f.minExponent ((num.log2 : Int) - den.log2 - f.precision + 1) := by
  have he : ∃ full ≤ (num.log2 : Int) - den.log2 - f.precision + 1,
      f.exponentOf num den = max f.minExponent full := by
    unfold exponentOf
    dsimp only
    split
    · exact ⟨_, by omega, rfl⟩
    · exact ⟨_, le_rfl, rfl⟩
  obtain ⟨full, hfull, he⟩ := he
  rw [he]
  exact max_le_max le_rfl hfull

/-- Integers that are not too long do not become infinite. -/
theorem isFinite_ofInt {i : Int} (hmin : f.minExponent < f.maxExponent)
    (hi : (i.natAbs.log2 : Int) + 2 ≤ f.precision + f.maxExponent) :
    (f.ofInt i).isFinite = true := by
  have hone : ((1 : Nat).log2 : Int) = 0 := rfl
  have hexponent := exponentOf_le (f := f) i.natAbs 1
  by_cases hn : i.natAbs = 0
  · rw [ofInt, roundRatio, if_pos hn]
    rfl
  · have hcarried : ¬f.maxExponent < f.exponentOf i.natAbs 1 + 1 := by omega
    have hfits : ¬f.maxExponent < f.exponentOf i.natAbs 1 := by omega
    rw [ofInt, roundRatio_eq_of_nearest hn _ rfl, if_neg hcarried, if_neg hfits]
    split
    · rfl
    · split <;> rfl

theorem isCanonical_zero (negative : Bool) : f.IsCanonical (.zero negative) := .inl ⟨rfl, rfl⟩

theorem isCanonical_ofDecimal (hp : 0 < f.precision) (negative : Bool) (digits : Nat)
    (exponent : Int) : f.IsCanonical (f.ofDecimal negative digits exponent) := by
  unfold ofDecimal
  dsimp only
  split
  · exact isCanonical_zero negative
  · split
    · trivial
    · split
      · exact isCanonical_roundRatio hp _ _ one_pos
      · exact isCanonical_roundRatio hp _ _ (Nat.pow_pos (by omega))

theorem isCanonical_neg {x : Floating} (h : f.IsCanonical x) : f.IsCanonical x.neg := by
  cases x with
  | nan => trivial
  | infinite negative => trivial
  | finite negative m e => exact h

/-- Sums, products and quotients are rounded, or they are zeros, infinities or no numbers. -/
theorem isCanonical_add (hp : 0 < f.precision) (a b : Floating) :
    f.IsCanonical (Floating.add f a b) := by
  cases a with
  | nan => trivial
  | infinite s =>
    cases b with
    | infinite t =>
      simp only [Floating.add]
      split <;> trivial
    | _ => trivial
  | finite s m e =>
    cases b with
    | finite t n k =>
      simp only [Floating.add]
      split
      · exact isCanonical_zero _
      · split
        · exact isCanonical_zero _
        · exact isCanonical_round hp ..
    | _ => trivial

theorem isCanonical_mul (hp : 0 < f.precision) (a b : Floating) :
    f.IsCanonical (Floating.mul f a b) := by
  cases a with
  | nan => trivial
  | infinite s =>
    cases b with
    | nan => trivial
    | _ =>
      simp only [Floating.mul]
      split <;> trivial
  | finite s m e =>
    cases b with
    | nan => trivial
    | infinite t =>
      simp only [Floating.mul]
      split <;> trivial
    | finite t n k => exact isCanonical_round hp ..

theorem isCanonical_div (hp : 0 < f.precision) (a b : Floating) :
    f.IsCanonical (Floating.div f a b) := by
  cases a with
  | nan => trivial
  | infinite s => cases b <;> trivial
  | finite s m e =>
    cases b with
    | nan => trivial
    | infinite t => exact isCanonical_zero _
    | finite t n k =>
      simp only [Floating.div]
      split
      · split <;> trivial
      · next hn => exact isCanonical_roundRatio hp _ _ (scaleRatio_pos (Nat.pos_of_ne_zero hn) _)

end FloatFormat

end ConfigTree
