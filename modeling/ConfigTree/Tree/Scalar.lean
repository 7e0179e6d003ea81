import ConfigTree.Floating.Decimal
import ConfigTree.Text.Basic
import ConfigTree.Tree.Basic

/-!
# Leaves for numbers and booleans

The texts under which values are stored in a tree.  A stored boolean is read again, and has other
spellings besides; numbers are read through arithmetic expressions.
-/

namespace ConfigTree

namespace Tree

/-- The leaf of an integer. -/
def ofInt (i : Int) : Tree := .scalar (Text.showInt i)

/-- The leaf of a boolean. -/
def ofBool (b : Bool) : Tree := .scalar (if b then "true" else "false")

/-- The leaf of a floating-point number. -/
def ofFloating (f : FloatFormat) (x : Floating) : Tree :=
  .scalar (Floating.text Floating.stored f x)

end Tree

namespace Schema

/-- Reads a boolean: `true`, `yes`, `on` and their opposites, in any case and between blanks. -/
def readBool? (text : String) : Option Bool :=
  let word := String.ofList ((Text.trim text.toList).map Char.toLower)
  if word ∈ ["true", "yes", "on"] then some true
  else if word ∈ ["false", "no", "off"] then some false
  else none

theorem readBool?_of_ofBool {b : Bool} {text : String} (h : Tree.ofBool b = .scalar text) :
    readBool? text = some b := by
  cases h
  cases b <;> decide +kernel

example : readBool? " On\n" = some true := by decide +kernel

end Schema

end ConfigTree
