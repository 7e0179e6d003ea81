import ConfigTree.Proofs.Floating.Decimal
import ConfigTree.Yaml.Value.Printer

/-! # Words are read back

Null, booleans and numbers are written as words.  A plain scalar is taken for one of them before it
is taken for a string, so **a word is read as the value it was written for** (`ofPlain_of_word?`):
an integer of 64 bits has no zero in front of other digits, and a floating-point number in its one
form has a point or an exponent and is nearest to the decimal it is written as.

So two of these values have the same word only if they are the same (`word?_injective`).
-/
namespace ConfigTree

/-- Only zero is written with a zero in front. -/
theorem Text.natDigits_head {n : Nat} {rest : List Char} (h : natDigits n = '0' :: rest) :
    rest = [] := by
  induction n using Nat.strongRecOn generalizing rest with
  | ind n ih =>
    rw [natDigits, Nat.toDigits_eq_if (by decide)] at h
    split at h
    · exact (List.cons.inj h).2.symm
    · next hlarge =>
      obtain ⟨d, front, hfront⟩ := List.exists_cons_of_ne_nil (natDigits_ne_nil (n / 10))
      rw [natDigits] at hfront
      rw [hfront] at h
      obtain ⟨rfl, -⟩ := List.cons.inj h
      obtain rfl := ih (n / 10) (Nat.div_lt_self (by omega) (by decide)) hfront
      -- what is left of the number after its last digit is not zero
      have hzero : n / 10 = 0 := by
        have hvalue := ofDigitChars_natDigits (n / 10)
        rw [natDigits, hfront] at hvalue
        exact hvalue.symm
      omega

namespace Yaml.Value

open Text Floating

/-! ### Texts that start like a number -/

/-- What is padded has a zero behind its sign, and other digits behind that. -/
theorem exists_of_isPadded {cs : List Char} (h : isPadded cs = true) :
    ∃ sign c more, cs = sign ++ '0' :: c :: more ∧ sign ∈ [[], ['-'], ['+']] ∧
      ('0' :: c :: more).all Char.isDigit = true := by
  unfold isPadded at h
  split at h
  · next c more hunsigned =>
    split at hunsigned
    · exact ⟨['-'], c, more, by rw [hunsigned]; rfl, by simp, by simpa using h⟩
    · exact ⟨['+'], c, more, by rw [hunsigned]; rfl, by simp, by simpa using h⟩
    · exact ⟨[], c, more, hunsigned, by simp, by simpa using h⟩
  · cases h

variable {d : Char} {rest : List Char}

theorem ne_of_isDigit {c : Char} (hd : d.isDigit = true) (hc : c.isDigit = false) : d ≠ c := by
  rintro rfl
  rw [hd] at hc
  cases hc

/-- A number is padded by itself, or behind a minus sign, only if it is digits with a zero in
front. -/
theorem eq_zero_of_isPadded (hd : d.isDigit = true)
    (h : isPadded (d :: rest) = true ∨ isPadded ('-' :: d :: rest) = true) :
    d = '0' ∧ rest ≠ [] ∧ (d :: rest).all Char.isDigit = true := by
  have hsign : ∀ {sign more : List Char}, sign ∈ [[], ['-'], ['+']] → d :: rest = sign ++ more →
      sign = [] := by
    intro sign more hmem heq
    rcases List.mem_cons.mp hmem with rfl | hmem
    · rfl
    · rcases List.mem_cons.mp hmem with rfl | hmem
      · exact absurd (List.cons.inj heq).1 (ne_of_isDigit hd (c := '-') rfl)
      · obtain rfl := List.mem_singleton.mp hmem
        exact absurd (List.cons.inj heq).1 (ne_of_isDigit hd (c := '+') rfl)
  rcases h with h | h
  · obtain ⟨sign, c, more, heq, hmem, hdigits⟩ := exists_of_isPadded h
    obtain rfl := hsign hmem heq
    obtain ⟨rfl, rfl⟩ := List.cons.inj heq
    exact ⟨rfl, List.cons_ne_nil _ _, hdigits⟩
  · obtain ⟨sign, c, more, heq, hmem, hdigits⟩ := exists_of_isPadded h
    rcases sign with _ | ⟨mark, sign⟩
    · cases heq
    · obtain ⟨hmark, heq⟩ := List.cons.inj heq
      obtain rfl : sign = [] := by simpa [← hmark] using hmem
      obtain ⟨rfl, rfl⟩ := List.cons.inj heq
      exact ⟨rfl, List.cons_ne_nil _ _, hdigits⟩

/-- Only the letters `x`, `o` and `b` ask for another base. -/
theorem readMagnitude?_eq {padded : Bool}
    (h : ∀ c ∈ rest.head?, c ≠ 'x' ∧ c ≠ 'o' ∧ c ≠ 'b') :
    readMagnitude? padded (d :: rest) = if padded then none else readNat? (d :: rest) := by
  unfold readMagnitude?
  split
  · next heq =>
    obtain ⟨-, rfl⟩ := List.cons.inj heq
    exact absurd rfl (h 'x' rfl).1
  · next heq =>
    obtain ⟨-, rfl⟩ := List.cons.inj heq
    exact absurd rfl (h 'o' rfl).2.1
  · next heq =>
    obtain ⟨-, rfl⟩ := List.cons.inj heq
    exact absurd rfl (h 'b' rfl).2.2
  · rfl

/-- A number is read by itself, and behind a minus sign as its negative. -/
theorem readInt?_eq (hd : d.isDigit = true) (h : ∀ c ∈ rest.head?, c ≠ 'x' ∧ c ≠ 'o' ∧ c ≠ 'b')
    (hpadded : isPadded (d :: rest) = false) (hminus : isPadded ('-' :: d :: rest) = false) :
    readInt? (d :: rest) = (readNat? (d :: rest)).map Int.ofNat ∧
      readInt? ('-' :: d :: rest) = (readNat? (d :: rest)).map (-Int.ofNat ·) := by
  have hread : readMagnitude? false (d :: rest) = readNat? (d :: rest) := readMagnitude?_eq h
  constructor
  · unfold readInt?
    split
    · next heq => exact absurd (List.cons.inj heq).1 (ne_of_isDigit hd (c := '-') rfl)
    · next heq => exact absurd (List.cons.inj heq).1 (ne_of_isDigit hd (c := '+') rfl)
    · simp only [hpadded, hread]
      cases readNat? (d :: rest) <;> rfl
  · simp only [readInt?, hminus, hread]
    cases readNat? (d :: rest) <;> rfl

/-- Is the text not empty, and does it start like a number? -/
def startsLikeNumber (text : String) : Bool :=
  text.toList.head?.any fun c => c.isDigit || c == '-'

/-- A text that starts like a number is neither null nor a boolean. -/
theorem isNull_of_startsLikeNumber {text : String} (h : startsLikeNumber text = true) :
    isNull text = false ∧ readBool? text = none := by
  have hcontains : ∀ words : List String, words.all (!startsLikeNumber ·) = true →
      words.contains text = false := by
    intro words hwords
    rw [Bool.eq_false_iff]
    intro hmem
    have hword := List.all_eq_true.mp hwords text (List.contains_iff_mem.mp hmem)
    rw [h] at hword
    cases hword
  refine ⟨hcontains _ (by decide), ?_⟩
  rw [readBool?, if_neg, if_neg]
  · rw [hcontains _ (by decide)]
    exact Bool.false_ne_true
  · rw [hcontains _ (by decide)]
    exact Bool.false_ne_true

/-! ### Words -/

variable {i : Int}

/-- **The digits of an integer are read as this integer.** -/
theorem readInt?_intDigits (i : Int) : readInt? (intDigits i) = some i := by
  obtain ⟨d, rest, hdigits⟩ := List.exists_cons_of_ne_nil (natDigits_ne_nil i.natAbs)
  have hall : ∀ c ∈ d :: rest, c.isDigit = true := fun c hc =>
    isDigit_of_mem_natDigits (hdigits ▸ hc)
  have hpadded : ∀ sign ∈ [[], ['-']], isPadded (sign ++ d :: rest) = false := by
    intro sign hsign
    rw [Bool.eq_false_iff]
    intro h
    have hzero : d = '0' ∧ rest ≠ [] ∧ (d :: rest).all Char.isDigit = true := by
      rcases List.mem_cons.mp hsign with rfl | hsign
      · exact eq_zero_of_isPadded (hall d (by simp)) (.inl h)
      · obtain rfl := List.mem_singleton.mp hsign
        exact eq_zero_of_isPadded (hall d (by simp)) (.inr h)
    obtain ⟨rfl, hrest, -⟩ := hzero
    exact hrest (natDigits_head hdigits)
  have hbase : ∀ c ∈ rest.head?, c ≠ 'x' ∧ c ≠ 'o' ∧ c ≠ 'b' := by
    intro c hc
    have hc : c.isDigit = true := hall c (List.mem_cons_of_mem _ (List.mem_of_mem_head? hc))
    exact ⟨ne_of_isDigit hc rfl, ne_of_isDigit hc rfl, ne_of_isDigit hc rfl⟩
  obtain ⟨hplain, hnegative⟩ := readInt?_eq (hall d (by simp)) hbase
    (hpadded [] (by simp)) (hpadded ['-'] (by simp))
  have hread : readNat? (d :: rest) = some i.natAbs := hdigits ▸ readNat?_natDigits i.natAbs
  unfold intDigits
  split
  · rw [hdigits, hnegative, hread]
    refine congrArg some ?_
    show -(i.natAbs : Int) = i
    omega
  · rw [hdigits, hplain, hread]
    refine congrArg some ?_
    show (i.natAbs : Int) = i
    omega

theorem isEmpty_of_startsLikeNumber {text : String} (h : startsLikeNumber text = true) :
    text.toList.isEmpty = false := by
  cases hchars : text.toList with
  | nil => simp [startsLikeNumber, hchars] at h
  | cons c cs => rfl

theorem startsLikeNumber_showInt (i : Int) : startsLikeNumber (showInt i) = true := by
  obtain ⟨d, rest, hdigits⟩ := List.exists_cons_of_ne_nil (natDigits_ne_nil i.natAbs)
  have hd : d.isDigit = true := isDigit_of_mem_natDigits (hdigits ▸ List.mem_cons_self ..)
  unfold startsLikeNumber showInt intDigits
  rw [String.toList_ofList]
  split
  · rfl
  · simp [hdigits, hd]

/-- An integer that fits is read as itself. -/
theorem ofPlain_showInt (h : integerFit i = .fits) : ofPlain (showInt i) = .ok (.int i) := by
  have hstart := startsLikeNumber_showInt i
  obtain ⟨hnull, hbool⟩ := isNull_of_startsLikeNumber hstart
  have hne := isEmpty_of_startsLikeNumber hstart
  have hread : readInt? (showInt i).toList = some i := by
    rw [showInt, String.toList_ofList]
    exact readInt?_intDigits i
  simp only [ofPlain, hne, hnull, hbool, hread, h, Bool.or_false, Bool.false_eq_true, if_false]

/-- A text with a digit in front, or with a minus sign and a digit, is none of the words for
infinity and for a non-number. -/
theorem readFloat?_eq (hd : d.isDigit = true) (rest : List Char) :
    readFloat? (d :: rest) = (Floating.read? double (d :: rest)).filter Floating.isFinite ∧
      readFloat? ('-' :: d :: rest) =
        (Floating.read? double ('-' :: d :: rest)).filter Floating.isFinite := by
  have hpoint : '.' ≠ d := fun h => ne_of_isDigit hd (c := '.') rfl h.symm
  have hminus : '-' ≠ d := fun h => ne_of_isDigit hd (c := '-') rfl h.symm
  have hplus : d ≠ '+' := ne_of_isDigit hd rfl
  constructor
  · simp [readFloat?, hpoint, hminus, hplus]
  · simp [readFloat?, hpoint]

/-- What spells a decimal is no integer, with or without a minus sign in front. -/
theorem readInt?_of_spells {cs : List Char} {digits : Nat} {exponent : Int}
    (h : Floating.Spells cs digits exponent) {sign : List Char} (hsign : sign ∈ [[], ['-']]) :
    readInt? (sign ++ cs) = none ∧ isPadded (sign ++ cs) = false := by
  obtain ⟨d, places, tail, rfl, hd, hplaces, htail⟩ := h.exists_places
  have hnot : ¬(d :: (places ++ tail)).all Char.isDigit = true := by
    rw [h.all_isDigit]
    exact Bool.false_ne_true
  have hpadded : isPadded (d :: (places ++ tail)) = false := Bool.eq_false_iff.mpr fun hp =>
    hnot (eq_zero_of_isPadded hd (.inl hp)).2.2
  have hminus : isPadded ('-' :: d :: (places ++ tail)) = false := Bool.eq_false_iff.mpr fun hp =>
    hnot (eq_zero_of_isPadded hd (.inr hp)).2.2
  have hread : readNat? (d :: (places ++ tail)) = none := by
    rw [Option.eq_none_iff_forall_ne_some]
    intro n hn
    exact hnot (List.all_eq_true.mpr (isDigit_of_readNat? hn).2)
  have hbase : ∀ c ∈ (places ++ tail).head?, c ≠ 'x' ∧ c ≠ 'o' ∧ c ≠ 'b' := by
    intro c hc
    have hplace : (c.isDigit || c == '.') = true ∨ c = 'e' := by
      rw [List.head?_append, Option.mem_def, Option.or_eq_some_iff] at hc
      rcases hc with hc | ⟨-, hc⟩
      · exact .inl (hplaces c (List.mem_of_mem_head? hc))
      · rcases htail with rfl | ⟨power, rfl⟩
        · cases hc
        · exact .inr (Option.some.inj hc).symm
    rcases hplace with hplace | rfl
    · exact ⟨ne_of_place hplace rfl, ne_of_place hplace rfl, ne_of_place hplace rfl⟩
    · decide
  obtain ⟨hplain, hnegative⟩ := readInt?_eq hd hbase hpadded hminus
  rcases List.mem_cons.mp hsign with rfl | hsign
  · exact ⟨by rw [List.nil_append, hplain, hread]; rfl, hpadded⟩
  · obtain rfl := List.mem_singleton.mp hsign
    exact ⟨by rw [List.singleton_append, hnegative, hread]; rfl, hminus⟩

/-- A text that starts like a number and is no integer is read as what `readFloat?` gives. -/
theorem ofPlain_of_readFloat? {text : String} {x : Floating} (hstart : startsLikeNumber text = true)
    (hint : readInt? text.toList = none) (hpadded : isPadded text.toList = false)
    (hread : readFloat? text.toList = some x) : ofPlain text = .ok (.float x) := by
  obtain ⟨hnull, hbool⟩ := isNull_of_startsLikeNumber hstart
  simp only [ofPlain, isEmpty_of_startsLikeNumber hstart, hnull, hbool, hint, hpadded, hread,
    Bool.or_false, Bool.false_eq_true, if_false]

/-- **A floating-point number in its one form is read as itself.** -/
theorem ofPlain_text_float {x : Floating} (hc : double.IsCanonical x) :
    ofPlain (Floating.text Floating.yaml double x) = .ok (.float x) := by
  match x, hc with
  | .nan, _ => rfl
  | .infinite false, _ => rfl
  | .infinite true, _ => rfl
  | .finite negative m e, hc =>
    have hspells : ∃ digits exponent,
        Floating.Spells (Floating.yaml.unsignedText double m e) digits exponent ∧
          double.ofDecimal negative digits exponent = .finite negative m e :=
      exists_spells_unsignedText FloatFormat.inReach_double rfl hc
    obtain ⟨digits, exponent, hspells, hdecimal⟩ := hspells
    obtain ⟨d, places, tail, hcs, hd, -, -⟩ := hspells.exists_places
    cases negative with
    | false =>
      obtain ⟨hint, hpadded⟩ := readInt?_of_spells hspells (by simp : [] ∈ [[], ['-']])
      refine ofPlain_of_readFloat? ?_ ?_ ?_ ?_ <;>
        simp only [Floating.text, Bool.false_eq_true, if_false, String.toList_ofList]
      · simp [startsLikeNumber, hcs, hd]
      · exact hint
      · exact hpadded
      · rw [hcs, (readFloat?_eq hd _).1, ← hcs, hspells.read?_eq, hdecimal]
        rfl
    | true =>
      obtain ⟨hint, hpadded⟩ := readInt?_of_spells hspells (by simp : ['-'] ∈ [[], ['-']])
      refine ofPlain_of_readFloat? ?_ ?_ ?_ ?_ <;>
        simp only [Floating.text, if_true, String.toList_ofList]
      · simp [startsLikeNumber]
      · exact hint
      · exact hpadded
      · rw [hcs, (readFloat?_eq hd _).2, ← hcs, hspells.read?_minus, hdecimal]
        rfl

/-- A number is one that is read: an integer that fits, or a floating-point number in its one
form. -/
def IsNative : Value → Prop
  | .int i => integerFit i = .fits
  | .float x => double.IsCanonical x
  | _ => True

/-- **Words are read as the values they were written for.** -/
theorem ofPlain_of_word? {value : Value} (hnative : value.IsNative) {text : String}
    (h : value.word? = some text) : ofPlain text = .ok value := by
  cases value with
  | null =>
    obtain rfl := Option.some.inj h
    rfl
  | bool b =>
    obtain rfl := Option.some.inj h
    cases b <;> rfl
  | int i =>
    obtain rfl := Option.some.inj h
    exact ofPlain_showInt hnative
  | float x =>
    obtain rfl := Option.some.inj h
    exact ofPlain_text_float hnative
  | string text => cases h
  | sequence items => cases h
  | mapping entries => cases h
  | tagged label value => cases h

/-- **Different values have different words.** -/
theorem word?_injective {a b : Value} (ha : a.IsNative) (hb : b.IsNative) {text : String}
    (hatext : a.word? = some text) (hbtext : b.word? = some text) : a = b :=
  Except.ok.inj ((ofPlain_of_word? ha hatext).symm.trans (ofPlain_of_word? hb hbtext))

end Yaml.Value

end ConfigTree
