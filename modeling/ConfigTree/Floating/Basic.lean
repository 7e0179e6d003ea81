/-!
# Binary floating-point numbers

A `Floating` is a number `± significand · 2 ^ exponent`, an infinity, or not a number.  A
`FloatFormat` says how many bits a significand has and how far exponents reach; `double` and
`single` are the two IEEE formats in use here.

Everything is done in exact integer arithmetic and rounded once, by `roundRatio`: the result is the
number of the format nearest to a quotient of natural numbers, a half going to the even significand.
Sums, products, quotients, readings from decimal and conversions between formats are all instances
of it, so none of them needs the machine's floating-point unit.

Numbers are kept in one form each (`FloatFormat.IsCanonical`): a significand has its full number of
bits unless the exponent is the least one, and zero has exponent zero.
-/

namespace ConfigTree

/-- A binary floating-point number, in whatever format. -/
inductive Floating where
  /-- Not a number. -/
  | nan
  /-- An infinity. -/
  | infinite (negative : Bool)
  /-- The number `± significand · 2 ^ exponent`. -/
  | finite (negative : Bool) (significand : Nat) (exponent : Int)
deriving DecidableEq, Inhabited, Repr

/-- The numbers a format can hold: significands of `precision` bits, exponents between
`minExponent` and `maxExponent`. -/
structure FloatFormat where
  precision : Nat
  minExponent : Int
  maxExponent : Int
deriving DecidableEq, Repr

/-- The IEEE format of 64 bits. -/
def double : FloatFormat := ⟨53, -1074, 971⟩

/-- The IEEE format of 32 bits. -/
def single : FloatFormat := ⟨24, -149, 104⟩

/-- `num / den` divided by `2 ^ exponent`, as a quotient of natural numbers. -/
def scaleRatio (num den : Nat) : Int → Nat × Nat
  | .ofNat e => (num, den <<< e)
  | .negSucc e => (num <<< (e + 1), den)

/-- The natural number nearest to `num / den`; a half goes to the even neighbour. -/
def nearestNat (num den : Nat) : Nat :=
  let q := num / den
  let r := num % den
  if 2 * r > den || (2 * r == den && q % 2 == 1) then q + 1 else q

namespace FloatFormat

/-- The exponent at which `num / den` has a significand of `precision` bits, or the least exponent
if that one is too small. -/
def exponentOf (f : FloatFormat) (num den : Nat) : Int :=
  let low : Int := (num.log2 : Int) - den.log2 - f.precision
  let (n, d) := scaleRatio num den low
  let full := if n / d < Nat.pow 2 f.precision then low else low + 1
  max f.minExponent full

/-- The number of the format nearest to `± num / den`, with a half going to the even significand and
what lies beyond the largest number going to infinity. -/
def roundRatio (f : FloatFormat) (negative : Bool) (num den : Nat) : Floating :=
  if num = 0 then .finite negative 0 0
  else
    let e := f.exponentOf num den
    let (n, d) := scaleRatio num den e
    let m := nearestNat n d
    let (m, e) := if m = Nat.pow 2 f.precision then (Nat.pow 2 (f.precision - 1), e + 1) else (m, e)
    if m = 0 then .finite negative 0 0
    else if f.maxExponent < e then .infinite negative
    else .finite negative m e

/-- The number of the format nearest to `± significand · 2 ^ exponent`. -/
def round (f : FloatFormat) (negative : Bool) (significand : Nat) (exponent : Int) : Floating :=
  let (n, d) := scaleRatio significand 1 (-exponent)
  f.roundRatio negative n d

/-- The number of the format nearest to an integer. -/
def ofInt (f : FloatFormat) (i : Int) : Floating :=
  f.roundRatio (i < 0) i.natAbs 1

/-- The number of the format nearest to `± digits · 10 ^ exponent`.  Powers that are out of reach of
every format are not computed. -/
def ofDecimal (f : FloatFormat) (negative : Bool) (digits : Nat) (exponent : Int) : Floating :=
  let length : Int := digits.log2 / 3 + 1
  if digits = 0 || exponent + length < -400 then .finite negative 0 0
  else if 400 < exponent then .infinite negative
  else match exponent with
    | .ofNat e => f.roundRatio negative (digits * Nat.pow 10 e) 1
    | .negSucc e => f.roundRatio negative digits (Nat.pow 10 (e + 1))

/-- The number in this format nearest to one that may be of another format. -/
def convert (f : FloatFormat) : Floating → Floating
  | .finite negative m e => f.round negative m e
  | x => x

/-- Is this the one form that the format has for its number? -/
def IsCanonical (f : FloatFormat) : Floating → Prop
  | .finite _ m e =>
    (m = 0 ∧ e = 0) ∨
      (0 < m ∧ m < Nat.pow 2 f.precision ∧ f.minExponent ≤ e ∧ e ≤ f.maxExponent ∧
        (Nat.pow 2 (f.precision - 1) ≤ m ∨ e = f.minExponent))
  | _ => True

end FloatFormat

namespace Floating

/-- Zero, with a sign. -/
def zero (negative : Bool) : Floating := .finite negative 0 0

/-- Neither an infinity nor a non-number. -/
def isFinite : Floating → Bool
  | .finite .. => true
  | _ => false

/-- Is it zero, of either sign? -/
def isZero : Floating → Bool
  | .finite _ m _ => m == 0
  | _ => false

/-- The number with the opposite sign. -/
def neg : Floating → Floating
  | .nan => .nan
  | .infinite negative => .infinite !negative
  | .finite negative m e => .finite (!negative) m e

/-- Equality of numbers: the two zeros are equal, and what is not a number equals nothing. -/
def equal : Floating → Floating → Bool
  | .nan, _ => false
  | _, .nan => false
  | a, b => a == b || (a.isZero && b.isZero)

/-- The integer that `± m · 2 ^ e` lies next to on the side of zero. -/
def truncated (negative : Bool) (m : Nat) (e : Int) : Int :=
  let whole := match e with
    | .ofNat e => m <<< e
    | .negSucc e => m >>> (e + 1)
  if negative then -whole else whole

/-- Is the number an integer? -/
def isIntegral : Floating → Bool
  | .finite _ m (.negSucc e) => m % Nat.pow 2 (e + 1) == 0
  | .finite _ _ (.ofNat _) => true
  | _ => false

/-- The number without its fraction, if it is finite. -/
def toInt? : Floating → Option Int
  | .finite negative m e => some (truncated negative m e)
  | _ => none

/-- Is the sign a minus? -/
def isNegative : Floating → Bool
  | .nan => false
  | .infinite negative => negative
  | .finite negative _ _ => negative

/-- The signed multiple of `2 ^ exponent` that a finite number is; the exponent must not exceed the
number's own. -/
def unitsOf (negative : Bool) (m : Nat) (e exponent : Int) : Int :=
  let units : Int := m <<< (e - exponent).toNat
  if negative then -units else units

/-- The rounded sum. -/
def add (f : FloatFormat) : Floating → Floating → Floating
  | .nan, _ => .nan
  | _, .nan => .nan
  | .infinite a, .infinite b => if a == b then .infinite a else .nan
  | .infinite a, .finite .. => .infinite a
  | .finite .., .infinite b => .infinite b
  | .finite an am ae, .finite bn bm be =>
    if am = 0 && bm = 0 then zero (an && bn)
    else
      let e := min ae be
      let sum := unitsOf an am ae e + unitsOf bn bm be e
      if sum = 0 then zero false else f.round (sum < 0) sum.natAbs e

/-- The rounded difference. -/
def sub (f : FloatFormat) (a b : Floating) : Floating :=
  add f a b.neg

/-- The rounded product. -/
def mul (f : FloatFormat) : Floating → Floating → Floating
  | .nan, _ => .nan
  | _, .nan => .nan
  | .infinite a, b => if b.isZero then .nan else .infinite (a != b.isNegative)
  | a, .infinite b => if a.isZero then .nan else .infinite (b != a.isNegative)
  | .finite an am ae, .finite bn bm be => f.round (an != bn) (am * bm) (ae + be)

/-- The rounded quotient. -/
def div (f : FloatFormat) : Floating → Floating → Floating
  | .nan, _ => .nan
  | _, .nan => .nan
  | .infinite _, .infinite _ => .nan
  | .infinite a, .finite bn _ _ => .infinite (a != bn)
  | .finite an _ _, .infinite b => zero (an != b)
  | .finite an am ae, .finite bn bm be =>
    if bm = 0 then if am = 0 then .nan else .infinite (an != bn)
    else
      let (n, d) := scaleRatio am bm (be - ae)
      f.roundRatio (an != bn) n d

end Floating

example : double.ofInt 9007199254740993 = double.ofInt 9007199254740992 := by decide
example : (Floating.add double (double.ofInt 1) (double.ofInt (-1))) = .zero false := by decide
example : single.ofInt 16777217 = single.ofInt 16777216 := by decide

end ConfigTree
