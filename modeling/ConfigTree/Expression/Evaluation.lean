import ConfigTree.Expression.Number
import ConfigTree.Expression.Token.Lexer

/-!
# Evaluation

Tokens are worked off from left to right with a stack of what waits for a number: open parentheses,
signs, and operators with their left operand.  As soon as a number is complete it is given to the
signs and to the product or quotient on top of the stack (`settle`); a sum or difference is computed
when a token comes that does not bind more tightly (`closeSum`).  So a fault in the numbers is found
when the operation is complete, and a fault in the form when its token is reached: whichever comes
first in the text.

Parentheses and signs may be nested `maxDepth` deep; the length of an expression has no bound.
-/

namespace ConfigTree.Expression

/-- What waits for a number. -/
inductive Frame where
  | parenthesis
  | sign (negative : Bool)
  | operation (left : Number) (op : Operator)
deriving DecidableEq, Repr

/-- Does the frame count as a level of nesting? -/
def Frame.nests : Frame → Bool
  | .operation .. => false
  | _ => true

/-- How deep parentheses and signs may be nested. -/
def maxDepth : Nat := 64

/-- Where the evaluation stands; the top of the stack comes first. -/
inductive State where
  /-- An operand has to follow. -/
  | awaiting (stack : List Frame)
  /-- An operand has been read. -/
  | holding (value : Number) (stack : List Frame)
deriving DecidableEq, Repr

/-- Gives a number to the signs, products and quotients on top of the stack. -/
def settle (value : Number) : List Frame → Except Fault State
  | .sign negative :: rest => do
    settle (← if negative then value.negate else .ok value) rest
  | .operation left op :: rest =>
    if op.isTight then do settle (← Number.combine op left value) rest
    else .ok (.holding value (.operation left op :: rest))
  | stack => .ok (.holding value stack)

/-- Gives a number to the sum or difference on top of the stack. -/
def closeSum (value : Number) : List Frame → Except Fault (Number × List Frame)
  | .operation left op :: rest => do return (← Number.combine op left value, rest)
  | stack => .ok (value, stack)

namespace State

/-- Opens one more level of nesting. -/
def nest (frame : Frame) (stack : List Frame) : Except Fault State :=
  if stack.countP Frame.nests < maxDepth then .ok (.awaiting (frame :: stack)) else .error .tooDeep

/-- Works off one token. -/
def step : State → Token → Except Fault State
  | .awaiting stack, .number n => settle n stack
  | .awaiting stack, .opening => nest .parenthesis stack
  | .awaiting stack, .operator .add => nest (.sign false) stack
  | .awaiting stack, .operator .subtract => nest (.sign true) stack
  | .awaiting _, token => .error (.unexpected token)
  | .holding value stack, .operator op =>
    if op.isTight then .ok (.awaiting (.operation value op :: stack))
    else do
      let (value, stack) ← closeSum value stack
      return .awaiting (.operation value op :: stack)
  | .holding value stack, token => do
    match token, ← closeSum value stack with
    | .closing, (value, .parenthesis :: rest) => settle value rest
    | token, (_, []) => .error (.trailing token)
    | token, _ => .error (.notClosing token)

/-- The value when no tokens are left. -/
def finish : State → Except Fault Number
  | .awaiting _ => .error .unexpectedEnd
  | .holding value stack => do
    match ← closeSum value stack with
    | (value, []) => .ok value
    | _ => .error .unclosed

/-- Works off all tokens. -/
def run (state : State) : List Token → Except Fault Number
  | [] => state.finish
  | token :: rest => do run (← state.step token) rest

end State

/-- The value of an expression. -/
def evaluate (text : String) : Except Fault Number := do
  match ← tokens text.toList with
  | [] => .error .empty
  | first :: rest => State.run (.awaiting []) (first :: rest)

end ConfigTree.Expression
