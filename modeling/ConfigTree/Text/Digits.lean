/-!
# Natural numbers in decimal

Reading and writing of natural numbers in decimal, on lists of characters.  Reading takes one or
more of the ten ASCII digits and nothing else; the readers of signed and bounded numbers are built
on it.
-/

namespace ConfigTree.Text

/-- The number a list of digits stands for in the given base. -/
def ofDigits (base : Nat) (digits : List Nat) : Nat :=
  digits.foldl (fun acc d => acc * base + d) 0

/-- The value of an ASCII digit or letter as a digit, letters counting from ten on. -/
def digitValue? (c : Char) : Option Nat :=
  if '0' ≤ c && c ≤ '9' then some (c.toNat - 48)
  else if 'a' ≤ c && c ≤ 'z' then some (c.toNat - 87)
  else if 'A' ≤ c && c ≤ 'Z' then some (c.toNat - 55)
  else none

/-- Reads digits of the given base; there has to be at least one. -/
def readNatIn? (base : Nat) (cs : List Char) : Option Nat :=
  if cs.isEmpty then none
  else (cs.mapM fun c => (digitValue? c).filter (· < base)).map (ofDigits base)

/-- Reads decimal digits; there has to be at least one. -/
def readNat? (cs : List Char) : Option Nat :=
  readNatIn? 10 cs

/-- The decimal digits of a natural number. -/
def natDigits (n : Nat) : List Char :=
  Nat.toDigits 10 n

/-- The largest number that counts the places of a list. -/
def maxIndex : Nat := 18446744073709551615

/-- Reads a place in a list: decimal digits after an optional plus sign, at most `maxIndex`. -/
def readIndex? (cs : List Char) : Option Nat :=
  let digits := match cs with
    | '+' :: rest => rest
    | _ => cs
  (readNat? digits).filter (· ≤ maxIndex)

/-- An integer in decimal, with a minus sign in front of its digits if it is negative. -/
def intDigits (i : Int) : List Char :=
  if i < 0 then '-' :: natDigits i.natAbs else natDigits i.natAbs

/-- The decimal text of an integer. -/
def showInt (i : Int) : String := String.ofList (intDigits i)

/-- The decimal text of a natural number. -/
def showNat (n : Nat) : String := String.ofList (natDigits n)

example : readNat? "0120".toList = some 120 := by decide
example : readNat? "".toList = none := by decide
example : readIndex? "+7".toList = some 7 := by decide
example : readIndex? "18446744073709551616".toList = none := by decide
example : showInt (-40) = "-40" := by decide

end ConfigTree.Text
