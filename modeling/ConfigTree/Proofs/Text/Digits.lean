import ConfigTree.Text.Digits

/-! # Decimal digits are read back

Texts of decimal digits, and no others, stand for numbers; zeros in front do not count, and zeros
behind multiply by ten.
-/
namespace ConfigTree.Text

theorem isDigit_iff {c : Char} : c.isDigit = true ↔ '0' ≤ c ∧ c ≤ '9' := by
  simp [Char.isDigit, Char.le_def]

theorem toLower_of_isDigit {c : Char} (h : c.isDigit = true) : c.toLower = c := by
  have hupper : ¬('A' ≤ c ∧ c ≤ 'Z') := fun hu =>
    absurd (Char.le_trans hu.1 (isDigit_iff.mp h).2) (by decide)
  exact dif_neg hupper

theorem digitValue?_of_isDigit {c : Char} (h : c.isDigit = true) :
    (digitValue? c).filter (· < 10) = some (c.toNat - 48) := by
  obtain ⟨hlow, hhigh⟩ := isDigit_iff.mp h
  have hvalue : c.toNat ≤ '9'.toNat := hhigh
  have hsmall : c.toNat - 48 < 10 := by
    have hnine : '9'.toNat = 57 := rfl
    omega
  simp [digitValue?, hlow, hhigh, hsmall]

/-- Digits are read as the number they stand for. -/
theorem readNat?_eq {cs : List Char} (hne : cs ≠ []) (h : ∀ c ∈ cs, c.isDigit = true) :
    readNat? cs = some (Nat.ofDigitChars 10 cs 0) := by
  have hvalues : cs.mapM (fun c => (digitValue? c).filter (· < 10)) =
      some (cs.map fun c => c.toNat - 48) := by
    clear hne
    induction cs with
    | nil => rfl
    | cons c rest ih =>
      obtain ⟨hc, hrest⟩ := List.forall_mem_cons.mp h
      rw [List.mapM_cons, digitValue?_of_isDigit hc, ih hrest]
      rfl
  rw [readNat?, readNatIn?, if_neg (by simpa using hne), hvalues, Option.map_some, ofDigits,
    Nat.ofDigitChars_eq_foldl, List.foldl_map]
  simp only [Nat.mul_comm]
  rfl

/-- Letters count from ten on. -/
theorem isDigit_of_digitValue? {c : Char} {d : Nat}
    (h : (digitValue? c).filter (· < 10) = some d) : c.isDigit = true := by
  obtain ⟨hvalue, hsmall⟩ := Option.filter_eq_some_iff.mp h
  have hsmall : d < 10 := of_decide_eq_true hsmall
  simp only [digitValue?, Bool.and_eq_true, decide_eq_true_eq] at hvalue
  split at hvalue
  · next hdigit => exact isDigit_iff.mpr hdigit
  · split at hvalue
    · next hletter =>
      have hlow : 97 ≤ c.toNat := hletter.1
      have hd : c.toNat - 87 = d := Option.some.inj hvalue
      omega
    · split at hvalue
      · next hletter =>
        have hlow : 65 ≤ c.toNat := hletter.1
        have hd : c.toNat - 55 = d := Option.some.inj hvalue
        omega
      · cases hvalue

/-- Only digits are read as a number. -/
theorem isDigit_of_readNat? {cs : List Char} {n : Nat} (h : readNat? cs = some n) :
    cs ≠ [] ∧ ∀ c ∈ cs, c.isDigit = true := by
  unfold readNat? readNatIn? at h
  split at h
  · cases h
  · next hne =>
    obtain ⟨digits, hdigits, -⟩ := Option.map_eq_some_iff.mp h
    refine ⟨by simpa using hne, ?_⟩
    clear hne h
    induction cs generalizing digits with
    | nil => simp
    | cons c rest ih =>
      rw [List.mapM_cons] at hdigits
      obtain ⟨d, hd, hdigits⟩ := Option.bind_eq_some_iff.mp hdigits
      obtain ⟨others, hothers, -⟩ := Option.bind_eq_some_iff.mp hdigits
      exact List.forall_mem_cons.mpr ⟨isDigit_of_digitValue? hd, ih others hothers⟩

theorem isDigit_of_mem_natDigits {n : Nat} {c : Char} (h : c ∈ natDigits n) : c.isDigit = true :=
  Nat.isDigit_of_mem_toDigits (by decide) (by decide) h

theorem natDigits_ne_nil (n : Nat) : natDigits n ≠ [] := Nat.toDigits_ne_nil

theorem ofDigitChars_natDigits (n : Nat) : Nat.ofDigitChars 10 (natDigits n) 0 = n :=
  Nat.ofDigitChars_ten_toDigits

theorem readNat?_natDigits (n : Nat) : readNat? (natDigits n) = some n := by
  rw [readNat?_eq (natDigits_ne_nil n) fun c => isDigit_of_mem_natDigits, ofDigitChars_natDigits]

end ConfigTree.Text
