import ConfigTree.Proofs.Yaml.Quoted
import ConfigTree.Text.Quoted
import ConfigTree.Yaml.Scalar
import Mathlib.Algebra.Group.Nat.Defs

/-! # Escapes

Both ways to write a character between double quotes, that of YAML and that of JSON, either let it
stand as it is or write an escape that is read as the character: `doubleChar_spells` and
`jsonChar_spells`.
-/
namespace ConfigTree.Yaml

/-! ### Code points -/

/-- The value of a hexadecimal digit. -/
def hexValue? (c : Char) : Option Nat := (Text.digitValue? c).filter (· < 16)

theorem ofDigits_append (digits : List Nat) (d : Nat) :
    Text.ofDigits 16 (digits ++ [d]) = Text.ofDigits 16 digits * 16 + d := by
  simp [Text.ofDigits]

theorem ofDigits_zeros (k : Nat) (digits : List Nat) :
    Text.ofDigits 16 (List.replicate k 0 ++ digits) = Text.ofDigits 16 digits := by
  induction k with
  | zero => rfl
  | succ k ih =>
    rw [List.replicate_succ, List.cons_append]
    exact ih

/-- The digits of a number are read as the number, in whichever case they are written. -/
theorem exists_hexValues {f : Char → Char}
    (hf : ∀ d < 16, hexValue? (f (Nat.digitChar d)) = some d) (n : Nat) :
    ∃ values, ((Text.hexDigits n).map f).mapM hexValue? = some values ∧
      Text.ofDigits 16 values = n := by
  unfold Text.hexDigits
  induction n using Nat.strongRecOn with
  | ind n ih =>
    rw [Nat.toDigits_eq_if (by decide)]
    split
    · next hlt =>
      refine ⟨[n], ?_, ?_⟩
      · simp [hf n hlt]
      · simp [Text.ofDigits]
    · next hge =>
      obtain ⟨values, hvalues, hn⟩ := ih (n / 16) (by omega)
      refine ⟨values ++ [n % 16], ?_, ?_⟩
      · simp [hvalues, hf (n % 16) (Nat.mod_lt n (by decide))]
      · rw [ofDigits_append, hn]
        omega

theorem mem_hexDigits {n : Nat} {c : Char} (h : c ∈ Text.hexDigits n) :
    ∃ d < 16, c = Nat.digitChar d := by
  unfold Text.hexDigits at h
  induction n using Nat.strongRecOn with
  | ind n ih =>
    rw [Nat.toDigits_eq_if (by decide)] at h
    split at h
    · next hlt => exact ⟨n, hlt, List.mem_singleton.mp h⟩
    · next hge =>
      rcases List.mem_append.mp h with h | h
      · exact ih (n / 16) (by omega) h
      · exact ⟨n % 16, Nat.mod_lt n (by decide), List.mem_singleton.mp h⟩

theorem mem_paddedHex {width n : Nat} {c : Char} (h : c ∈ Text.paddedHex width n) :
    ∃ d < 16, c = Nat.digitChar d := by
  unfold Text.paddedHex at h
  rcases List.mem_append.mp h with h | h
  · exact ⟨0, by decide, List.eq_of_mem_replicate h⟩
  · exact mem_hexDigits h

theorem length_paddedHex {width n : Nat} (hwidth : 0 < width) (h : n < 16 ^ width) :
    (Text.paddedHex width n).length = width := by
  have hle := (Nat.length_toDigits_le_iff (by decide) hwidth).mpr h
  simp only [Text.paddedHex, Text.hexDigits, List.length_append, List.length_replicate]
  omega

/-- A code point that is written with leading zeros is read. -/
theorem readCode?_paddedHex {f : Char → Char} {width : Nat} {c : Char}
    (hf : ∀ d < 16, hexValue? (f (Nat.digitChar d)) = some d) (hwidth : 0 < width)
    (h : c.toNat < 16 ^ width) (rest : List Char) :
    readCode? width ((Text.paddedHex width c.toNat).map f ++ rest) = some c := by
  have hlength : ((Text.paddedHex width c.toNat).map f).length = width := by
    rw [List.length_map, length_paddedHex hwidth h]
  have htake : ((Text.paddedHex width c.toNat).map f ++ rest).take width =
      (Text.paddedHex width c.toNat).map f := List.take_left' hlength
  obtain ⟨values, hvalues, hn⟩ := exists_hexValues hf c.toNat
  have hzero : hexValue? (f '0') = some 0 := hf 0 (by decide)
  have hpadded : ∀ k : Nat, (List.replicate k (f '0')).mapM hexValue? =
      some (List.replicate k 0) := by
    intro k
    induction k with
    | zero => rfl
    | succ k ih => simp [List.replicate_succ, hzero, ih]
  have hread : ((Text.paddedHex width c.toNat).map f).mapM hexValue? =
      some (List.replicate (width - (Text.hexDigits c.toNat).length) 0 ++ values) := by
    simp [Text.paddedHex, hpadded, hvalues]
  have hcode : Text.ofDigits 16
      (List.replicate (width - (Text.hexDigits c.toNat).length) 0 ++ values) = c.toNat := by
    rw [ofDigits_zeros, hn]
  have hchar : ∀ (n : Nat) (hn : n.isValidChar), n = c.toNat → Char.ofNatAux n hn = c := by
    rintro _ hn rfl
    apply Char.toNat_inj.mp
    rfl
  have hvalid : (Text.ofDigits 16
      (List.replicate (width - (Text.hexDigits c.toNat).length) 0 ++ values)).isValidChar := by
    rw [hcode]
    exact c.valid
  have hread : ((Text.paddedHex width c.toNat).map f).mapM
      (fun c => (Text.digitValue? c).filter (· < 16)) = _ := hread
  have hlong : ¬ ((Text.paddedHex width c.toNat).map f).length < width := by omega
  rw [readCode?, htake, if_neg hlong, hread]
  show (if h : (Text.ofDigits 16 _).isValidChar then some (Char.ofNatAux _ h) else none) = _
  rw [dif_pos hvalid, hchar _ hvalid hcode]

/-! ### Escaped characters -/

/-- How a character can be written between double quotes: as it is, or as an escape. -/
inductive Spells (c : Char) : List Char → Prop where
  | plain : c ≠ '"' → c ≠ '\\' → Spells c [c]
  | escape {written : List Char} : (∀ x ∈ written, isGap x = false) →
    (∀ rest, readEscape (written ++ rest) = .ok (c, written.length)) →
    Spells c ('\\' :: written)

/-- No escape has a gap in it. -/
theorem Spells.eq_of_gap {c x : Char} {written : List Char} (h : Spells c written)
    (hx : x ∈ written) (hgap : isGap x = true) : written = [x] ∧ x = c := by
  cases h with
  | plain =>
    obtain rfl := List.mem_singleton.mp hx
    exact ⟨rfl, rfl⟩
  | escape hplain _ =>
    rcases List.mem_cons.mp hx with rfl | hx
    · exact absurd hgap (by decide)
    · rw [hplain x hx] at hgap
      cases hgap

theorem spells_letter {c letter : Char} (h : letterEscapes.lookup letter = some c)
    (hgap : isGap letter = false) : Spells c ['\\', letter] := by
  refine .escape (by simpa using hgap) fun rest => ?_
  simp [readEscape, h]

theorem spells_code {f : Char → Char} {letter : Char} {width : Nat} {c : Char}
    (hletter : letterEscapes.lookup letter = none) (hcode : codeLength? letter = some width)
    (hgap : isGap letter = false) (hwidth : 0 < width)
    (hf : ∀ d < 16, hexValue? (f (Nat.digitChar d)) = some d ∧ isGap (f (Nat.digitChar d)) = false)
    (h : c.toNat < 16 ^ width) :
    Spells c ('\\' :: letter :: (Text.paddedHex width c.toNat).map f) := by
  refine .escape ?_ fun rest => ?_
  · intro x hx
    rcases List.mem_cons.mp hx with rfl | hx
    · exact hgap
    obtain ⟨y, hy, rfl⟩ := List.mem_map.mp hx
    obtain ⟨d, hd, rfl⟩ := mem_paddedHex hy
    exact (hf d hd).2
  · have hread := readCode?_paddedHex (fun d hd => (hf d hd).1) hwidth h rest
    simp [readEscape, hletter, hcode, hread, length_paddedHex hwidth h]

theorem of_lookup {p : Char → Char → Prop} {table : List (Char × Char)} {c letter : Char}
    (h : table.lookup c = some letter) (hp : ∀ entry ∈ table, p entry.1 entry.2) : p c letter := by
  obtain ⟨before, after, rfl, -⟩ := List.lookup_eq_some_iff.mp h
  exact hp (c, letter) (by simp)

theorem doubleChar_spells (c : Char) : Spells c (doubleChar c) := by
  have hupper : ∀ d < 16, hexValue? (Char.toUpper (Nat.digitChar d)) = some d ∧
      isGap (Char.toUpper (Nat.digitChar d)) = false := by decide
  unfold doubleChar
  split
  · next hc =>
    simp only [Bool.and_eq_true, bne_iff_ne] at hc
    exact .plain hc.1.2 hc.2
  split
  · next letter hlookup =>
    let p : Char → Char → Prop := fun c letter =>
      letterEscapes.lookup letter = some c ∧ isGap letter = false
    obtain ⟨hletter, hgap⟩ : p c letter := of_lookup hlookup (by decide)
    exact spells_letter hletter hgap
  · have hlarge : c.toNat < 16 ^ 8 := c.val.toNat_lt
    by_cases hx : c.toNat ≤ 0xff
    · simp only [hx, if_true]
      exact spells_code (by decide) rfl (by decide) (by decide) hupper (by omega)
    by_cases hu : c.toNat ≤ 0xffff
    · simp only [hx, hu, if_true, if_false]
      exact spells_code (by decide) rfl (by decide) (by decide) hupper (by omega)
    · simp only [hx, hu, if_false]
      exact spells_code (by decide) rfl (by decide) (by decide) hupper hlarge

theorem jsonChar_spells (c : Char) : Spells c (Text.jsonChar c) := by
  have hlower : ∀ d < 16, hexValue? (id (Nat.digitChar d)) = some d ∧
      isGap (id (Nat.digitChar d)) = false := by decide
  unfold Text.jsonChar
  split
  · exact spells_letter (by decide) (by decide)
  · exact spells_letter (by decide) (by decide)
  · exact spells_letter (by decide) (by decide)
  · exact spells_letter (by decide) (by decide)
  · exact spells_letter (by decide) (by decide)
  · exact spells_letter (by decide) (by decide)
  · exact spells_letter (by decide) (by decide)
  · next hquote hslash _ _ _ _ _ =>
    split
    · next hlow =>
      have hcode : Spells c ('\\' :: 'u' :: (Text.paddedHex 4 c.toNat).map id) :=
        spells_code (by decide) rfl (by decide) (by decide) hlower (by omega)
      rw [List.map_id] at hcode
      exact hcode
    · exact .plain hquote hslash

end ConfigTree.Yaml
