/-!
# Characters and lines of a text

A class of characters is written down as the closed ranges of code points it consists of.  The
ranges of the Unicode properties this library needs (`Letter`, `Hidden`) are long, so the test for
membership is stated once, here.  The blank characters, which have the property `White_Space`, are
few, and are trimmed off a text.

A line ends at a line feed, and a carriage return right before that line feed belongs to the line
end.  What follows the last line feed is a line only if it is not empty.
-/

namespace ConfigTree.Text

/-! ## Classes of characters -/

/-- Is the character in one of the closed ranges? -/
def inRanges (ranges : List (Nat × Nat)) (c : Char) : Bool :=
  ranges.any fun range => range.1 ≤ c.toNat && c.toNat ≤ range.2

/-- Has the character the property `White_Space`? -/
def isBlank (c : Char) : Bool :=
  let n := c.toNat
  (9 ≤ n && n ≤ 13) || n == 0x20 || n == 0x85 || n == 0xa0 || n == 0x1680 ||
    (0x2000 ≤ n && n ≤ 0x200a) || n == 0x2028 || n == 0x2029 || n == 0x202f || n == 0x205f ||
    n == 0x3000

/-! ## Trimming -/

/-- The text without the characters of `drop` at its end. -/
def trimRight (drop : Char → Bool) (cs : List Char) : List Char :=
  (cs.reverse.dropWhile drop).reverse

/-- The text without the blank characters at both ends. -/
def trim (cs : List Char) : List Char :=
  trimRight isBlank (cs.dropWhile isBlank)

@[simp] theorem trimRight_nil (drop : Char → Bool) : trimRight drop [] = [] := rfl

/-! ## Lines -/

/-- The lines of a text, `acc` being the part of the current line that is already read, reversed. -/
def linesFrom (acc : List Char) : List Char → List (List Char)
  | [] => if acc.isEmpty then [] else [acc.reverse]
  | '\n' :: rest =>
    let line := match acc with
      | '\r' :: before => before
      | _ => acc
    line.reverse :: linesFrom [] rest
  | c :: rest => linesFrom (c :: acc) rest

/-- The lines of a text, without their ends. -/
def lines (s : String) : List String :=
  (linesFrom [] s.toList).map String.ofList

/-- The text written `count` times in a row. -/
def replicate (count : Nat) (s : String) : String :=
  String.ofList (List.replicate count s.toList).flatten

example : lines "a\r\nb\n" = ["a", "b"] := by decide
example : lines "a\r\n\nb\r" = ["a", "", "b\r"] := by decide
example : lines "" = [] := by decide

end ConfigTree.Text
