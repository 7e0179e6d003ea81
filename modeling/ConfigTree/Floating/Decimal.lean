import ConfigTree.Floating.Basic
import ConfigTree.Text.Digits

/-!
# Floating-point numbers in decimal

Reading takes an optional sign and then digits with at most one point and an optional exponent, or
one of the words for infinity and for a non-number; the result is the nearest number of the format.

Writing takes the decimal with the fewest digits among those that read back as the number, and the
nearest such decimal if there are several (`shortest`).  A number is the nearest one of its format
to a decimal when that decimal lies in its **rounding interval**, whose ends are halfway to the two
neighbours and belong to it when the significand is even.  So the largest power of ten that has a
multiple in the interval gives the fewest digits.

Where the point stands, when an exponent is written and how infinities are spelled is a matter of
layout: a `FloatLayout`, of which there are three.
-/

namespace ConfigTree

namespace Floating

/-! ## Reading -/

/-- Splits a text into the decimal digits it starts with and the rest. -/
def spanDigits (cs : List Char) : List Char × List Char :=
  (cs.takeWhile Char.isDigit, cs.dropWhile Char.isDigit)

/-- Reads the exponent part of a decimal: nothing, or the letter `e`, an optional sign and
digits. -/
def readExponent? : List Char → Option Int
  | [] => some 0
  | c :: rest =>
    if c = 'e' || c = 'E' then
      match rest with
      | '-' :: digits => (Text.readNat? digits).map fun n => -(n : Int)
      | '+' :: digits => (Text.readNat? digits).map fun n => (n : Int)
      | digits => (Text.readNat? digits).map fun n => (n : Int)
    else none

/-- Reads an unsigned decimal: digits with at most one point, at least one digit, and an optional
exponent. -/
def readUnsigned? (f : FloatFormat) (negative : Bool) (cs : List Char) : Option Floating :=
  let (whole, rest) := spanDigits cs
  let (fraction, rest) := match rest with
    | '.' :: after => spanDigits after
    | _ => ([], rest)
  if whole.isEmpty && fraction.isEmpty then none
  else do
    let digits ← Text.readNat? (whole ++ fraction)
    let exponent ← readExponent? rest
    return f.ofDecimal negative digits (exponent - fraction.length)

/-- Reads a number: an optional sign, then a decimal or one of the words `inf`, `infinity` and `nan`
in whatever case. -/
def read? (f : FloatFormat) (cs : List Char) : Option Floating :=
  let (negative, unsigned) := match cs with
    | '-' :: rest => (true, rest)
    | '+' :: rest => (false, rest)
    | _ => (false, cs)
  let word := unsigned.map Char.toLower
  if word = "inf".toList || word = "infinity".toList then some (.infinite negative)
  else if word = "nan".toList then some .nan
  else readUnsigned? f negative unsigned

/-! ## The fewest digits -/

/-- Which of two decimals at the same distance is written. -/
inductive Tie where
  /-- The larger one. -/
  | up
  /-- The one with the even last digit. -/
  | even
deriving DecidableEq, Repr

/-- The rounding interval of a number and the number itself, all as multiples of one unit that is
given as a quotient of natural numbers. -/
structure RoundingInterval where
  low : Nat
  value : Nat
  high : Nat
  /-- Do the ends belong to the interval? -/
  closed : Bool
  unitNum : Nat
  unitDen : Nat

/-- The rounding interval of `m · 2 ^ e` in a format.  Below a power of two the numbers are twice as
dense, so there the lower half is only a quarter of the distance. -/
def roundingInterval (f : FloatFormat) (m : Nat) (e : Int) : RoundingInterval :=
  let (num, den) := scaleRatio 1 1 (2 - e)
  let isPower := m == Nat.pow 2 (f.precision - 1) && f.minExponent < e
  { low := if isPower then 4 * m - 1 else 4 * m - 2
    value := 4 * m
    high := 4 * m + 2
    closed := m % 2 == 0
    unitNum := num
    unitDen := den }

namespace RoundingInterval

/-- Does the decimal `digits · 10 ^ power` lie in the interval? -/
def contains (i : RoundingInterval) (digits : Nat) (power : Int) : Bool :=
  let (num, den) := match power with
    | .ofNat p => (digits * Nat.pow 10 p * i.unitDen, i.unitNum)
    | .negSucc p => (digits * i.unitDen, i.unitNum * Nat.pow 10 (p + 1))
  if i.closed then i.low * den ≤ num && num ≤ i.high * den
  else i.low * den < num && num < i.high * den

/-- The value divided by `10 ^ power`, as a quotient of natural numbers. -/
def quotient (i : RoundingInterval) (power : Int) : Nat × Nat :=
  match power with
  | .ofNat p => (i.value * i.unitNum, i.unitDen * Nat.pow 10 p)
  | .negSucc p => (i.value * i.unitNum * Nat.pow 10 (p + 1), i.unitDen)

/-- The multiple of `10 ^ power` in the interval that is nearest to the value, as a count of that
power. -/
def nearest? (i : RoundingInterval) (tie : Tie) (power : Int) : Option Nat :=
  let (num, den) := i.quotient power
  let below := num / den
  let rest := num % den
  match i.contains below power, i.contains (below + 1) power with
  | false, false => none
  | true, false => some below
  | false, true => some (below + 1)
  | true, true =>
    let up : Bool := match tie with
      | .up => den ≤ 2 * rest
      | .even => den < 2 * rest || (2 * rest == den && below % 2 == 1)
    some (if up then below + 1 else below)

/-- Searches downwards from `power` for the first power of ten with a multiple in the interval. -/
def search (i : RoundingInterval) (tie : Tie) : Nat → Int → Option (Nat × Int)
  | 0, _ => none
  | steps + 1, power => match i.nearest? tie power with
    | some digits => some (digits, power)
    | none => search i tie steps (power - 1)

end RoundingInterval

/-- A power of ten that is at least as large as the largest one with a multiple in the rounding
interval of `m · 2 ^ e`; the factor is a little more than the decimal logarithm of two. -/
def topPower (m : Nat) (e : Int) : Int :=
  (m.log2 + e + 2) * 30103 / 100000 + 1

/-- The digits and the power of ten of `m · 2 ^ e`, exactly. -/
def exactDecimal (m : Nat) : Int → Nat × Int
  | .ofNat e => (m <<< e, 0)
  | .negSucc e => (m * Nat.pow 5 (e + 1), .negSucc e)

/-- The decimal with the fewest digits in the rounding interval of `m · 2 ^ e`, and of those the
nearest to it. -/
def shortest (f : FloatFormat) (tie : Tie) (m : Nat) (e : Int) : Nat × Int :=
  match (roundingInterval f m e).search tie 24 (topPower m e) with
  | some decimal => decimal
  | none => exactDecimal m e

/-! ## Layout -/

/-- How the digits of a number are set out. -/
structure FloatLayout where
  /-- The numbers written without an exponent: the point stands after at least `least` and at most
  `most` digits, counted from the first one that is not zero; `none` if there is no bound. -/
  positional : Option (Int × Int)
  /-- Is a fraction written, if only a zero? -/
  fraction : Bool
  nan : String
  infinity : String
  tie : Tie

/-- Sets out `digits · 10 ^ power` without an exponent. -/
def FloatLayout.positionalText (layout : FloatLayout) (digits : List Char) (point : Int) :
    List Char :=
  match point with
  | .negSucc n => "0.".toList ++ List.replicate (n + 1) '0' ++ digits
  | .ofNat 0 => "0.".toList ++ digits
  | .ofNat n =>
    if digits.length ≤ n then
      digits ++ List.replicate (n - digits.length) '0' ++
        (if layout.fraction then ".0".toList else [])
    else digits.take n ++ '.' :: digits.drop n

/-- Sets out digits with an exponent, the point after the first digit. -/
def FloatLayout.exponentText (digits : List Char) (point : Int) : List Char :=
  let mantissa := match digits with
    | [] => []
    | [d] => [d]
    | d :: rest => d :: '.' :: rest
  mantissa ++ 'e' :: Text.intDigits (point - 1)

/-- The text of a finite number without its sign. -/
def FloatLayout.unsignedText (layout : FloatLayout) (f : FloatFormat) (m : Nat) (e : Int) :
    List Char :=
  if m = 0 then '0' :: (if layout.fraction then ".0".toList else [])
  else
    let (number, power) := shortest f layout.tie m e
    let digits := Text.natDigits number
    let point := digits.length + power
    let isPositional := match layout.positional with
      | none => true
      | some (least, most) => least ≤ point && point ≤ most
    if isPositional then layout.positionalText digits point
    else FloatLayout.exponentText digits point

/-- The text of a number. -/
def text (layout : FloatLayout) (f : FloatFormat) : Floating → String
  | .nan => layout.nan
  | .infinite negative => if negative then "-" ++ layout.infinity else layout.infinity
  | .finite negative m e =>
    let digits := layout.unsignedText f m e
    String.ofList (if negative then '-' :: digits else digits)

/-- The layout of stored values: always a fraction, an exponent below `1e-4` and from `1e16` on. -/
def stored : FloatLayout := ⟨some (-3, 16), true, "NaN", "inf", .up⟩

/-- The layout of messages: never an exponent, and no fraction on integers. -/
def plain : FloatLayout := ⟨none, false, "NaN", "inf", .up⟩

/-- The layout of numbers that were read from a YAML text: always a fraction, an exponent below
`1e-5` and from `1e16` on. -/
def yaml : FloatLayout := ⟨some (-4, 16), true, ".nan", ".inf", .even⟩

example : (read? double "0.1".toList).map (text stored double) = some "0.1" := by decide +kernel
example : (read? double "1e16".toList).map (text stored double) = some "1e16" := by decide +kernel
example : (read? double "1e30".toList).map (text plain double) =
    some "1000000000000000000000000000000" := by decide +kernel
example : (read? single "16777217".toList).map (text stored single) = some "16777216.0" := by
  decide +kernel

end Floating

end ConfigTree
