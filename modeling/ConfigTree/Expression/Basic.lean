import ConfigTree.Floating.Decimal
import ConfigTree.IntegerRange

/-!
# Arithmetic expressions

A number may be written as a small expression: literals, the four operations, signs and parentheses.
Nothing else is allowed, and what is not allowed is told apart from what cannot be computed
(`Fault.isRefusal`).

Integers stay integers under sums, differences and products, and have to fit into 64 bits; a
quotient is always a floating-point number.
-/

namespace ConfigTree.Expression

/-- The value of an expression. -/
inductive Number where
  | int (i : Int)
  | float (x : Floating)
deriving DecidableEq, Inhabited, Repr

inductive Operator where
  | add
  | subtract
  | multiply
  | divide
deriving DecidableEq, Repr

/-- Does the operator bind its operands more tightly than sums do? -/
def Operator.isTight : Operator → Bool
  | .multiply | .divide => true
  | .add | .subtract => false

inductive Token where
  | number (n : Number)
  | operator (op : Operator)
  | opening
  | closing
deriving DecidableEq, Inhabited, Repr

/-- Why an expression has no value. -/
inductive Fault where
  | empty
  /-- Two asterisks without a blank between them. -/
  | power
  | malformedNumber (literal : String)
  | name (word : String)
  | quote
  | character (c : Char)
  /-- A token in the place of an operand. -/
  | unexpected (token : Token)
  | unexpectedEnd
  /-- A token where a parenthesis has to be closed. -/
  | notClosing (token : Token)
  | unclosed
  /-- A token behind a complete expression. -/
  | trailing (token : Token)
  | tooDeep
  | integerLiteral (literal : String)
  | floatLiteral (literal : String)
  | overflow
  | divisionByZero
  | notFinite
deriving DecidableEq, Repr

/-- Does the fault lie in the form of the text, and not in the numbers it works with? -/
def Fault.isRefusal : Fault → Bool
  | .integerLiteral _ | .floatLiteral _ | .overflow | .divisionByZero | .notFinite => false
  | _ => true

/-- The token as messages name it. -/
def Token.label : Token → String
  | .number (.int i) => "number " ++ Text.showInt i
  | .number (.float x) => "number " ++ Floating.text Floating.plain double x
  | .operator .add => "'+'"
  | .operator .subtract => "'-'"
  | .operator .multiply => "'*'"
  | .operator .divide => "'/'"
  | .opening => "'('"
  | .closing => "')'"

/-- What messages say of a fault. -/
def Fault.reason : Fault → String
  | .empty => "empty expression"
  | .power => "operator '**' is not allowed"
  | .malformedNumber literal => "malformed number '" ++ literal ++ "'"
  | .name word => "names are not allowed: '" ++ word ++ "'"
  | .quote => "string literals are not allowed"
  | .character c => "unexpected character '" ++ c.toString ++ "'"
  | .unexpected token => "unexpected " ++ token.label
  | .unexpectedEnd => "unexpected end of expression"
  | .notClosing token => "expected ')' but found " ++ token.label
  | .unclosed => "unclosed '('"
  | .trailing token => "unexpected " ++ token.label ++ " after complete expression"
  | .tooDeep => "expression nested too deeply"
  | .integerLiteral literal => "integer literal out of range: " ++ literal
  | .floatLiteral literal => "float literal out of range: " ++ literal
  | .overflow => "integer overflow"
  | .divisionByZero => "division by zero"
  | .notFinite => "result is not finite"

end ConfigTree.Expression
