import Lox.Syntax.Operator
import Lox.Value.Fault

/-!
# What the operators do

Arithmetic is that of binary64 numbers; a division by zero gives an infinity or no number. Only
addition knows strings. Every value can be negated as a truth value and compared for equality.
-/

namespace Lox

namespace UnaryOp

/-- Applies a unary operator. -/
def apply : UnaryOp → Value → Except FaultCause Value
  | .not, value => .ok (.boolean !value.isTruthy)
  | .negate, .number x => .ok (.number (-x))
  | .negate, value => .error (.notANumber value)

end UnaryOp

namespace Value

/-- Applies an operation on numbers. -/
def onNumbers (operation : Float → Float → Value) : Value → Value → Except FaultCause Value
  | .number x, .number y => .ok (operation x y)
  | left, right => .error (.notNumbers left right)

/-- Adds two numbers or puts two strings together. -/
def add : Value → Value → Except FaultCause Value
  | .number x, .number y => .ok (.number (x + y))
  | .string s, .string t => .ok (.string (s ++ t))
  | left, right => .error (.notAddable left right)

end Value

namespace BinaryOp

/-- Applies a binary operator. -/
def apply : BinaryOp → Value → Value → Except FaultCause Value
  | .add => Value.add
  | .subtract => Value.onNumbers fun x y => .number (x - y)
  | .multiply => Value.onNumbers fun x y => .number (x * y)
  | .divide => Value.onNumbers fun x y => .number (x / y)
  | .less => Value.onNumbers fun x y => .boolean (x < y)
  | .lessEqual => Value.onNumbers fun x y => .boolean (x ≤ y)
  | .greater => Value.onNumbers fun x y => .boolean (y < x)
  | .greaterEqual => Value.onNumbers fun x y => .boolean (y ≤ x)
  | .equal => fun left right => .ok (.boolean (left.equals right))
  | .notEqual => fun left right => .ok (.boolean !left.equals right)

end BinaryOp

namespace LogicalOp

/-- The value on the left decides, so the right operand is not evaluated. -/
def decidedBy : LogicalOp → Value → Bool
  | .and, left => !left.isTruthy
  | .or, left => left.isTruthy

end LogicalOp

end Lox
