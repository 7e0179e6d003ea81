import ConfigTree.Proofs.Floating.Shortest
import ConfigTree.Proofs.Text.Digits
import Mathlib.Data.List.TakeWhile

/-! # Written numbers are read back

A number is written as digits with a point among them, with an exponent, or with both, whatever the
layout is (`Floating.Spells`).  The text determines the decimal that is read; zeros that fill up the
places before the point change the decimal but not its value.  So **what is written for a number is
read as this number** (`exists_spells_unsignedText`), up to the sign, which stands in front of the
text.
-/
namespace ConfigTree.Floating

open Text

/-! ### Texts of decimals -/

/-- The texts that stand for `digits · 10 ^ exponent`, other than those of integers. -/
inductive Spells : List Char → Nat → Int → Prop where
  /-- Digits with a point among them. -/
  | point {whole fraction : List Char} :
      whole ≠ [] → (∀ c ∈ whole ++ fraction, c.isDigit = true) →
      Spells (whole ++ '.' :: fraction) (Nat.ofDigitChars 10 (whole ++ fraction) 0)
        (-fraction.length)
  /-- The same with an exponent. -/
  | scientific {whole fraction : List Char} {exponent : Int} :
      whole ≠ [] → (∀ c ∈ whole ++ fraction, c.isDigit = true) →
      Spells (whole ++ '.' :: (fraction ++ 'e' :: intDigits exponent))
        (Nat.ofDigitChars 10 (whole ++ fraction) 0) (exponent - fraction.length)
  /-- Digits and an exponent. -/
  | scaled {whole : List Char} {exponent : Int} :
      whole ≠ [] → (∀ c ∈ whole, c.isDigit = true) →
      Spells (whole ++ 'e' :: intDigits exponent) (Nat.ofDigitChars 10 whole 0) exponent

theorem spanDigits_append {digits rest : List Char} (hd : ∀ c ∈ digits, c.isDigit = true)
    (hr : ∀ c ∈ rest.head?, c.isDigit = false) : spanDigits (digits ++ rest) = (digits, rest) := by
  rw [spanDigits, List.takeWhile_append_of_pos hd, List.dropWhile_append_of_pos hd]
  cases rest with
  | nil => simp
  | cons c rest =>
    have hc : c.isDigit = false := hr c rfl
    simp [hc]

theorem readExponent?_intDigits (exponent : Int) :
    readExponent? ('e' :: intDigits exponent) = some exponent := by
  have hread := readNat?_natDigits exponent.natAbs
  unfold intDigits
  split
  · next hneg =>
    simp only [readExponent?, Char.reduceEq, decide_true, decide_false, Bool.or_false, if_true,
      hread]
    refine congrArg some ?_
    show -(exponent.natAbs : Int) = exponent
    omega
  · next hpos =>
    have habs : (exponent.natAbs : Int) = exponent := by omega
    obtain ⟨d, rest, hdigits⟩ := List.exists_cons_of_ne_nil (natDigits_ne_nil exponent.natAbs)
    have hd : d.isDigit = true := isDigit_of_mem_natDigits (hdigits ▸ List.mem_cons_self ..)
    rw [hdigits] at hread ⊢
    simp only [readExponent?, Char.reduceEq, decide_true, decide_false, Bool.or_false, if_true]
    split
    · next he =>
      cases he
      cases hd
    · next he =>
      cases he
      cases hd
    · rw [hread]
      exact congrArg some habs

theorem readUnsigned?_point (f : FloatFormat) (negative : Bool) {whole fraction tail : List Char}
    (hne : whole ≠ []) (hd : ∀ c ∈ whole ++ fraction, c.isDigit = true)
    (htail : ∀ c ∈ tail.head?, c.isDigit = false) :
    readUnsigned? f negative (whole ++ '.' :: (fraction ++ tail)) =
      (readExponent? tail).map fun exponent =>
        f.ofDecimal negative (Nat.ofDigitChars 10 (whole ++ fraction) 0)
          (exponent - fraction.length) := by
  obtain ⟨hwhole, hfraction⟩ := List.forall_mem_append.mp hd
  have hpoint : spanDigits (whole ++ '.' :: (fraction ++ tail)) =
      (whole, '.' :: (fraction ++ tail)) :=
    spanDigits_append hwhole fun c hc => by
      cases hc
      rfl
  have hempty : whole.isEmpty = false := by simpa using hne
  simp only [readUnsigned?, hpoint, spanDigits_append hfraction htail, hempty, Bool.false_and,
    Bool.false_eq_true, if_false, readNat?_eq (List.append_ne_nil_of_left_ne_nil hne _) hd]
  cases readExponent? tail <;> rfl

/-- **What spells a decimal is read as this decimal.** -/
theorem Spells.readUnsigned?_eq {cs : List Char} {digits : Nat} {exponent : Int}
    (h : Spells cs digits exponent) (f : FloatFormat) (negative : Bool) :
    readUnsigned? f negative cs = some (f.ofDecimal negative digits exponent) := by
  cases h with
  | @point whole fraction hne hd =>
    have hread : readUnsigned? f negative (whole ++ '.' :: (fraction ++ [])) = _ :=
      readUnsigned?_point f negative hne hd nofun
    rw [List.append_nil] at hread
    rw [hread, readExponent?, Option.map_some, zero_sub]
  | scientific hne hd =>
    rw [readUnsigned?_point f negative hne hd (by simp), readExponent?_intDigits, Option.map_some]
  | @scaled whole k hne hd =>
    have hspan : spanDigits (whole ++ 'e' :: intDigits exponent) =
        (whole, 'e' :: intDigits exponent) := spanDigits_append hd (by simp)
    have hread : readUnsigned? f negative (whole ++ 'e' :: intDigits exponent) =
        if whole.isEmpty && ([] : List Char).isEmpty then none
        else do
          let digits ← readNat? (whole ++ [])
          let power ← readExponent? ('e' :: intDigits exponent)
          return f.ofDecimal negative digits (power - (0 : Nat)) := by
      rw [readUnsigned?, hspan]
      rfl
    have hempty : whole.isEmpty = false := by simpa using hne
    rw [hread, hempty, List.append_nil, readNat?_eq hne hd, readExponent?_intDigits, Nat.cast_zero]
    simp

/-! ### Layouts -/

variable {f : FloatFormat} {layout : FloatLayout}

theorem ofDigitChars_zeros (k : Nat) (digits : List Char) :
    Nat.ofDigitChars 10 (List.replicate k '0' ++ digits) 0 = Nat.ofDigitChars 10 digits 0 := by
  rw [Nat.ofDigitChars_append, Nat.ofDigitChars_replicate_zero, Nat.mul_zero]

/-- Without an exponent, a text spells the decimal or the same value with more zeros. -/
theorem positionalText_spells (hlayout : layout.fraction = true) (number : Nat) (power : Int) :
    ∃ digits exponent,
      Spells (layout.positionalText (natDigits number) ((natDigits number).length + power))
        digits exponent ∧
      (digits : ℚ) * 10 ^ exponent = number * 10 ^ power := by
  have hdigits : ∀ c ∈ natDigits number, c.isDigit = true := fun c => isDigit_of_mem_natDigits
  have hzeros : ∀ k, ∀ c ∈ List.replicate k '0', c.isDigit = true := by
    intro k c hc
    rw [List.eq_of_mem_replicate hc]
    rfl
  have hvalue := ofDigitChars_natDigits number
  -- The point stands before the first digit, with zeros between them if there are any.
  have hsmall : ∀ k : Nat, ((natDigits number).length : Int) + power = -k →
      ∃ digits exponent,
        Spells (['0'] ++ '.' :: (List.replicate k '0' ++ natDigits number)) digits exponent ∧
        (digits : ℚ) * 10 ^ exponent = number * 10 ^ power := by
    intro k hpoint
    refine ⟨_, _, .point (by simp) ?_, ?_⟩
    · simp only [List.forall_mem_append]
      exact ⟨by simp, hzeros k, hdigits⟩
    · rw [show ['0'] = List.replicate 1 '0' from rfl, ofDigitChars_zeros, ofDigitChars_zeros,
        hvalue, List.length_append, List.length_replicate]
      congr 2
      push_cast
      omega
  unfold FloatLayout.positionalText
  split
  · next n hpoint =>
    rw [show "0.".toList ++ List.replicate (n + 1) '0' ++ natDigits number =
      ['0'] ++ '.' :: (List.replicate (n + 1) '0' ++ natDigits number) by simp]
    exact hsmall (n + 1) (by omega)
  · next hpoint =>
    rw [show "0.".toList ++ natDigits number =
      ['0'] ++ '.' :: (List.replicate 0 '0' ++ natDigits number) by simp]
    exact hsmall 0 hpoint
  · next n hn hpoint =>
    have hpoint : ((natDigits number).length : Int) + power = n := hpoint
    split
    · next hlen =>
      -- All digits stand before the point, and zeros fill up the places.
      have hpower : power = (n - (natDigits number).length : Nat) := by omega
      rw [show ".0".toList = '.' :: ['0'] by simp]
      refine ⟨_, _, .point (by simp [natDigits_ne_nil]) ?_, ?_⟩
      · simp only [List.forall_mem_append]
        exact ⟨⟨hdigits, hzeros _⟩, by simp⟩
      · rw [Nat.ofDigitChars_append, Nat.ofDigitChars_append, hvalue,
          Nat.ofDigitChars_replicate_zero, Nat.ofDigitChars_cons, Nat.ofDigitChars_nil, hpower,
          zpow_natCast, List.length_singleton, Nat.cast_one, zpow_neg_one]
        push_cast
        field_simp
        simp
    · next hlen =>
      have htake : List.take n (natDigits number) ≠ [] := by
        simpa [List.take_eq_nil_iff, natDigits_ne_nil] using hn
      refine ⟨_, _, .point htake ?_, ?_⟩
      · rw [List.take_append_drop]
        exact hdigits
      · rw [List.take_append_drop, hvalue, List.length_drop]
        congr 2
        omega

/-- With an exponent, a text spells the decimal itself. -/
theorem exponentText_spells (number : Nat) (power : Int) :
    Spells (FloatLayout.exponentText (natDigits number) ((natDigits number).length + power))
      number power := by
  have hdigits : ∀ c ∈ natDigits number, c.isDigit = true := fun c => isDigit_of_mem_natDigits
  have hvalue := ofDigitChars_natDigits number
  have hne := natDigits_ne_nil number
  generalize natDigits number = digits at hdigits hvalue hne ⊢
  subst hvalue
  match digits, hne with
  | [d], _ =>
    have h : Spells ([d] ++ 'e' :: intDigits (([d].length : Int) + power - 1)) _ _ :=
      .scaled (by simp) hdigits
    have hpower : ([d].length : Int) + power - 1 = power := by simp
    show Spells ([d] ++ 'e' :: intDigits (([d].length : Int) + power - 1)) _ _
    rwa [hpower] at h ⊢
  | d :: d' :: rest, _ =>
    have h : Spells ([d] ++ '.' ::
        (d' :: rest ++ 'e' :: intDigits (((d :: d' :: rest).length : Int) + power - 1))) _ _ :=
      .scientific (by simp) hdigits
    rwa [show ((d :: d' :: rest).length : Int) + power - 1 - (d' :: rest).length = power by
      simp only [List.length_cons]; omega] at h

/-- **What is written for a number spells a decimal that is rounded to the number**, if integers are
written with a fraction. -/
theorem unsignedText_spells (hlayout : layout.fraction = true) {m : Nat} (e : Int) (hm : 0 < m) :
    ∃ digits exponent, Spells (layout.unsignedText f m e) digits exponent ∧
      f.RoundsTo m e (digits * 10 ^ exponent) := by
  have hround := shortest_roundsTo (f := f) layout.tie e hm
  unfold FloatLayout.unsignedText
  rw [if_neg hm.ne']
  generalize shortest f layout.tie m e = decimal at hround
  obtain ⟨number, power⟩ := decimal
  have hspells : ∀ positional : Bool, ∃ digits exponent,
      Spells (if positional then
          layout.positionalText (natDigits number) ((natDigits number).length + power)
        else FloatLayout.exponentText (natDigits number) ((natDigits number).length + power))
        digits exponent ∧ f.RoundsTo m e (digits * 10 ^ exponent) := by
    intro positional
    cases positional with
    | true =>
      obtain ⟨digits, exponent, hspells, hvalue⟩ := positionalText_spells hlayout number power
      exact ⟨digits, exponent, hspells, hvalue ▸ hround⟩
    | false => exact ⟨number, power, exponentText_spells number power, hround⟩
  exact hspells _

/-- **The text of a number without its sign is read as the number**, if its sign is known. -/
theorem exists_spells_unsignedText (hf : f.InReach) (hlayout : layout.fraction = true)
    {negative : Bool} {m : Nat} {e : Int} (hc : f.IsCanonical (.finite negative m e)) :
    ∃ digits exponent, Spells (layout.unsignedText f m e) digits exponent ∧
      f.ofDecimal negative digits exponent = .finite negative m e := by
  rcases Nat.eq_zero_or_pos m with rfl | hm
  · obtain rfl : e = 0 := (hc.resolve_right fun h => absurd h.1 (lt_irrefl 0)).2
    have hspells : Spells (['0'] ++ '.' :: ['0']) 0 (-1) := .point (by simp) (by simp)
    refine ⟨0, -1, ?_, rfl⟩
    rw [FloatLayout.unsignedText, if_pos rfl, if_pos hlayout]
    simpa using hspells
  · obtain ⟨digits, exponent, hspells, hround⟩ := unsignedText_spells hlayout e hm
    exact ⟨digits, exponent, hspells, FloatFormat.ofDecimal_eq hf negative hm hc hround⟩

/-- The same for the numbers and the texts that are stored, apart from the sign. -/
theorem exists_spells_stored {negative : Bool} {m : Nat} {e : Int}
    (hc : double.IsCanonical (.finite negative m e)) :
    ∃ digits exponent, Spells (stored.unsignedText double m e) digits exponent ∧
      double.ofDecimal false digits exponent = .finite false m e :=
  have hc : double.IsCanonical (.finite false m e) := hc
  exists_spells_unsignedText FloatFormat.inReach_double rfl hc

/-! ### Whole texts -/

/-- What spells a decimal starts with a digit; behind that are digits and points and perhaps an
exponent. -/
theorem Spells.exists_places {cs : List Char} {digits : Nat} {exponent : Int}
    (h : Spells cs digits exponent) :
    ∃ d places tail, cs = d :: (places ++ tail) ∧ d.isDigit = true ∧
      (∀ c ∈ places, (c.isDigit || c == '.') = true) ∧
      (tail = [] ∨ ∃ power, tail = 'e' :: intDigits power) := by
  have hplaces : ∀ {cs : List Char}, (∀ c ∈ cs, c.isDigit = true) →
      ∀ c ∈ cs, (c.isDigit || c == '.') = true := fun h c hc => by rw [h c hc, Bool.true_or]
  have hpoint : ∀ {whole fraction : List Char}, (∀ c ∈ whole ++ fraction, c.isDigit = true) →
      ∀ c ∈ whole ++ '.' :: fraction, (c.isDigit || c == '.') = true := by
    intro whole fraction hd
    obtain ⟨hwhole, hfraction⟩ := List.forall_mem_append.mp hd
    exact List.forall_mem_append.mpr
      ⟨hplaces hwhole, List.forall_mem_cons.mpr ⟨rfl, hplaces hfraction⟩⟩
  cases h with
  | @point whole fraction hne hd =>
    obtain ⟨d, rest, rfl⟩ := List.exists_cons_of_ne_nil hne
    exact ⟨d, rest ++ '.' :: fraction, [], by simp, hd d (by simp),
      (List.forall_mem_cons.mp (hpoint hd)).2, .inl rfl⟩
  | @scientific whole fraction power hne hd =>
    obtain ⟨d, rest, rfl⟩ := List.exists_cons_of_ne_nil hne
    exact ⟨d, rest ++ '.' :: fraction, 'e' :: intDigits power, by simp, hd d (by simp),
      (List.forall_mem_cons.mp (hpoint hd)).2, .inr ⟨power, rfl⟩⟩
  | @scaled whole power hne hd =>
    obtain ⟨d, rest, rfl⟩ := List.exists_cons_of_ne_nil hne
    obtain ⟨hd, hrest⟩ := List.forall_mem_cons.mp hd
    exact ⟨d, rest, 'e' :: intDigits exponent, by simp, hd, hplaces hrest, .inr ⟨exponent, rfl⟩⟩

/-- What spells a decimal is not made of digits alone. -/
theorem Spells.all_isDigit {cs : List Char} {digits : Nat} {exponent : Int}
    (h : Spells cs digits exponent) : cs.all Char.isDigit = false := by
  cases h <;> simp

/-- An exponent ends in a digit. -/
theorem isDigit_of_readExponent? {cs : List Char} {exponent : Int}
    (h : readExponent? cs = some exponent) : ∀ c ∈ cs.getLast?, c.isDigit = true := by
  have hlast : ∀ before digits : List Char, readNat? digits ≠ none →
      ∀ c ∈ (before ++ digits).getLast?, c.isDigit = true := by
    intro before digits hread c hc
    obtain ⟨n, hn⟩ := Option.ne_none_iff_exists'.mp hread
    obtain ⟨hne, hdigits⟩ := isDigit_of_readNat? hn
    rw [List.getLast?_append_of_ne_nil _ hne] at hc
    exact hdigits c (List.mem_of_getLast? hc)
  unfold readExponent? at h
  split at h
  · simp
  · next mark rest =>
    split at h
    · split at h
      · next digits => exact hlast [mark, '-'] digits fun hnone => by simp [hnone] at h
      · next digits => exact hlast [mark, '+'] digits fun hnone => by simp [hnone] at h
      · exact hlast [mark] rest fun hnone => by simp [hnone] at h
    · cases h

/-- A decimal ends in a digit or in its point. -/
theorem place_of_readUnsigned? {f : FloatFormat} {negative : Bool} {cs : List Char} {x : Floating}
    (h : readUnsigned? f negative cs = some x) :
    ∀ c ∈ cs.getLast?, (c.isDigit || c == '.') = true := by
  -- The text is made of places and of an exponent.
  have hlast : ∀ {empty : Bool} {digits : Option Nat} {places tail : List Char} {length : Int},
      (if empty = true then none
        else do return f.ofDecimal negative (← digits) ((← readExponent? tail) - length)) = some x →
      (∀ c ∈ places, (c.isDigit || c == '.') = true) →
      ∀ c ∈ (places ++ tail).getLast?, (c.isDigit || c == '.') = true := by
    intro empty digits places tail length h hplaces c hc
    rw [List.getLast?_append, Option.mem_def, Option.or_eq_some_iff] at hc
    rcases hc with hc | ⟨-, hc⟩
    · split at h
      · cases h
      · simp only [Option.bind_eq_bind, Option.pure_def, Option.bind_eq_some_iff] at h
        obtain ⟨_, -, exponent, hexponent, -⟩ := h
        rw [isDigit_of_readExponent? hexponent c hc, Bool.true_or]
    · exact hplaces c (List.mem_of_getLast? hc)
  have hdigits : ∀ text : List Char, ∀ c ∈ text.takeWhile Char.isDigit,
      (c.isDigit || c == '.') = true := fun text c hc => by
    rw [List.mem_takeWhile_imp hc, Bool.true_or]
  have hcs : cs.takeWhile Char.isDigit ++ cs.dropWhile Char.isDigit = cs :=
    List.takeWhile_append_dropWhile
  unfold readUnsigned? spanDigits at h
  dsimp only at h
  split at h
  · next after hafter =>
    have hplaces : cs.takeWhile Char.isDigit ++ '.' :: after.takeWhile Char.isDigit ++
        after.dropWhile Char.isDigit = cs := by
      rw [List.append_assoc, List.cons_append, List.takeWhile_append_dropWhile, ← hafter, hcs]
    rw [← hplaces]
    exact hlast h (List.forall_mem_append.mpr
      ⟨hdigits cs, List.forall_mem_cons.mpr ⟨rfl, hdigits after⟩⟩)
  · rw [← hcs]
    exact hlast h (hdigits cs)

theorem ne_of_place {d c : Char} (hd : (d.isDigit || d == '.') = true)
    (hc : (c.isDigit || c == '.') = false) : d ≠ c := by
  rintro rfl
  rw [hd] at hc
  cases hc

/-- A text that starts with a digit or a point is none of the words for infinity and for a
non-number. -/
theorem map_toLower_ne_of_place {d c : Char} (hd : (d.isDigit || d == '.') = true)
    (hc : (c.isDigit || c == '.') = false) (rest word : List Char) :
    (d :: rest).map Char.toLower ≠ c :: word := by
  intro h
  have hhead : d.toLower = c := (List.cons.inj h).1
  have hsame : d.toLower = d := by
    rcases Bool.or_eq_true_iff.mp hd with hdigit | hpoint
    · exact toLower_of_isDigit hdigit
    · rw [beq_iff_eq.mp hpoint]
      rfl
  exact ne_of_place hd hc (hsame.symm.trans hhead)

/-- Behind a digit or a point in front, with or without a minus sign, there are no words. -/
theorem read?_of_place (f : FloatFormat) {d : Char} (hd : (d.isDigit || d == '.') = true)
    (rest : List Char) :
    read? f (d :: rest) = readUnsigned? f false (d :: rest) ∧
      read? f ('-' :: d :: rest) = readUnsigned? f true (d :: rest) := by
  have hinf : (d :: rest).map Char.toLower ≠ "inf".toList :=
    map_toLower_ne_of_place hd (c := 'i') rfl rest _
  have hinfinity : (d :: rest).map Char.toLower ≠ "infinity".toList :=
    map_toLower_ne_of_place hd (c := 'i') rfl rest _
  have hnan : (d :: rest).map Char.toLower ≠ "nan".toList :=
    map_toLower_ne_of_place hd (c := 'n') rfl rest _
  constructor
  · unfold read?
    split
    next negative unsigned hsign =>
    split at hsign
    · next he => exact absurd (List.cons.inj he).1 (ne_of_place hd (c := '-') rfl)
    · next he => exact absurd (List.cons.inj he).1 (ne_of_place hd (c := '+') rfl)
    · cases hsign
      simp only [hinf, hinfinity, hnan, decide_false, Bool.or_false, Bool.false_eq_true, if_false]
  · simp only [read?, hinf, hinfinity, hnan, decide_false, Bool.or_false, Bool.false_eq_true,
      if_false]

/-- What spells a decimal is read as this decimal, also where a sign could stand. -/
theorem Spells.read?_eq {cs : List Char} {digits : Nat} {exponent : Int}
    (h : Spells cs digits exponent) (f : FloatFormat) :
    read? f cs = some (f.ofDecimal false digits exponent) := by
  obtain ⟨d, places, tail, rfl, hd, -, -⟩ := h.exists_places
  rw [(read?_of_place f (by rw [hd, Bool.true_or]) _).1, h.readUnsigned?_eq]

/-- The same behind a minus sign. -/
theorem Spells.read?_minus {cs : List Char} {digits : Nat} {exponent : Int}
    (h : Spells cs digits exponent) (f : FloatFormat) :
    read? f ('-' :: cs) = some (f.ofDecimal true digits exponent) := by
  obtain ⟨d, places, tail, rfl, hd, -, -⟩ := h.exists_places
  rw [(read?_of_place f (by rw [hd, Bool.true_or]) _).2, h.readUnsigned?_eq]

/-- What is read is in its one form. -/
theorem isCanonical_of_read? (hp : 0 < f.precision) {cs : List Char} {x : Floating}
    (h : read? f cs = some x) : f.IsCanonical x := by
  have hunsigned : ∀ {negative unsigned}, readUnsigned? f negative unsigned = some x →
      f.IsCanonical x := by
    intro negative unsigned h
    have hdecimal : ∀ {none? : Bool} {digits : Option Nat} {exponent : Option Int} {places : Int},
        (if none? = true then none
          else do return f.ofDecimal negative (← digits) ((← exponent) - places)) = some x →
        f.IsCanonical x := by
      intro none? digits exponent places h
      split at h
      · cases h
      · simp only [Option.bind_eq_bind, Option.pure_def, Option.bind_eq_some_iff,
          Option.some.injEq] at h
        obtain ⟨number, -, power, -, rfl⟩ := h
        exact FloatFormat.isCanonical_ofDecimal hp _ _ _
    unfold readUnsigned? at h
    dsimp only at h
    split at h <;> exact hdecimal h
  unfold read? at h
  split at h
  dsimp only at h
  split at h
  · cases h
    trivial
  · split at h
    · cases h
      trivial
    · exact hunsigned h

end ConfigTree.Floating
