import ConfigTree.Expression.Basic

/-!
# Arithmetic on numbers

Every operation checks its result: an integer has to fit into 64 bits (`checked`), a floating-point
number has to be finite (`finite`).
-/

namespace ConfigTree.Expression.Number

/-- The number as a floating-point number, rounded if it is an integer that has too many digits. -/
def toFloating : Number → Floating
  | .int i => double.ofInt i
  | .float x => x

/-- An integer, if it fits. -/
def checked (i : Int) : Except Fault Number :=
  if IntegerRange.signed64.contains i then .ok (.int i) else .error .overflow

/-- A floating-point number, if it is finite. -/
def finite (x : Floating) : Except Fault Number :=
  if x.isFinite then .ok (.float x) else .error .notFinite

/-- The number with the opposite sign. -/
def negate : Number → Except Fault Number
  | .int i => checked (-i)
  | .float x => .ok (.float x.neg)

/-- The quotient, which is never an integer. -/
def divide (a b : Number) : Except Fault Number :=
  if b.toFloating.isZero then .error .divisionByZero
  else finite (Floating.div double a.toFloating b.toFloating)

/-- Applies an operation to two integers, or to what they are as floating-point numbers if one of
them is no integer. -/
def lift (onInt : Int → Int → Int) (onFloating : Floating → Floating → Floating) :
    Number → Number → Except Fault Number
  | .int i, .int j => checked (onInt i j)
  | a, b => finite (onFloating a.toFloating b.toFloating)

/-- Applies an operator. -/
def combine : Operator → Number → Number → Except Fault Number
  | .add => lift (· + ·) (Floating.add double)
  | .subtract => lift (· - ·) (Floating.sub double)
  | .multiply => lift (· * ·) (Floating.mul double)
  | .divide => divide

theorem checked_eq_ok_iff {i : Int} {n : Number} :
    checked i = .ok n ↔ IntegerRange.signed64.contains i = true ∧ n = .int i := by
  unfold checked
  cases IntegerRange.signed64.contains i with
  | true => simpa using eq_comm
  | false => simp

example : (combine .divide (.int 10) (.int 5)).toOption = some (.float (double.ofInt 2)) := by
  decide +kernel
example : (negate (.int IntegerRange.signed64.least)).toOption = none := by decide +kernel

end ConfigTree.Expression.Number
