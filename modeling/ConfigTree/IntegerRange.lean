/-!
# Ranges of integers

The integers that a fixed number of bits can hold.  All integers of the library are mathematical
ones; a range is asked wherever one has to fit.
-/

namespace ConfigTree

/-- An interval of integers and the name it has in messages. -/
structure IntegerRange where
  name : String
  least : Int
  greatest : Int
deriving DecidableEq, Repr

namespace IntegerRange

/-- Does the integer lie in the range? -/
def contains (range : IntegerRange) (i : Int) : Bool :=
  range.least ≤ i && i ≤ range.greatest

/-- The range of all integers that values and expressions have. -/
def signed64 : IntegerRange :=
  ⟨"i64", -9223372036854775808, 9223372036854775807⟩

def signed32 : IntegerRange := ⟨"i32", -2147483648, 2147483647⟩

def unsigned32 : IntegerRange := ⟨"u32", 0, 4294967295⟩

def unsigned64 : IntegerRange := ⟨"u64", 0, 18446744073709551615⟩

/-- The range of sizes. -/
def size : IntegerRange := ⟨"usize", 0, 18446744073709551615⟩

theorem contains_iff {range : IntegerRange} {i : Int} :
    range.contains i = true ↔ range.least ≤ i ∧ i ≤ range.greatest := by
  simp [contains]

end IntegerRange

end ConfigTree
