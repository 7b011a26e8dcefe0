import Lox.Token.Basic

/-!
# Operators and how tightly they bind

An operator that follows an operand has a left power, which is compared with what the context asks
for, and a right power, which is asked of the operand behind it. An operator associates to the left
when its right power is the greater of the two, and to the right otherwise.
-/

namespace Lox

/-- Operators in front of their operand. -/
inductive UnaryOp
  | not
  | negate
  deriving DecidableEq, Repr

/-- Operators that evaluate both operands. -/
inductive BinaryOp
  | multiply
  | divide
  | add
  | subtract
  | less
  | lessEqual
  | greater
  | greaterEqual
  | equal
  | notEqual
  deriving DecidableEq, Repr

/-- Operators that may leave their second operand alone. -/
inductive LogicalOp
  | and
  | or
  deriving DecidableEq, Repr

/-- What can follow an operand and continue its expression. -/
inductive Follow
  | call
  | access
  | binary (op : BinaryOp)
  | logical (op : LogicalOp)
  | assign
  deriving DecidableEq, Repr

namespace UnaryOp

/-- The operator a token stands for in front of an operand. -/
def ofKind? : Kind → Option UnaryOp
  | .bang => some .not
  | .minus => some .negate
  | _ => none

/-- What a unary operator asks of its operand. -/
def power : Nat :=
  15

end UnaryOp

namespace BinaryOp

/-- The operator a token stands for between two operands. -/
def ofKind? : Kind → Option BinaryOp
  | .star => some .multiply
  | .slash => some .divide
  | .plus => some .add
  | .minus => some .subtract
  | .less => some .less
  | .lessEqual => some .lessEqual
  | .greater => some .greater
  | .greaterEqual => some .greaterEqual
  | .equalEqual => some .equal
  | .bangEqual => some .notEqual
  | _ => none

/-- The left power of a binary operator. -/
def power : BinaryOp → Nat
  | .multiply | .divide => 13
  | .add | .subtract => 11
  | .less | .lessEqual | .greater | .greaterEqual => 9
  | .equal | .notEqual => 7

end BinaryOp

namespace LogicalOp

/-- The left power of a logical operator. -/
def power : LogicalOp → Nat
  | .and => 5
  | .or => 3

end LogicalOp

namespace Follow

/-- What a token behind an operand means. -/
def ofKind? : Kind → Option Follow
  | .leftParen => some .call
  | .dot => some .access
  | .keyword .and => some (.logical .and)
  | .keyword .or => some (.logical .or)
  | .equal => some .assign
  | kind => (BinaryOp.ofKind? kind).map .binary

/-- How tightly it binds the operand before it. -/
def leftPower : Follow → Nat
  | .call | .access => 17
  | .binary op => op.power
  | .logical op => op.power
  | .assign => 2

/-- What it asks of the operand behind it. Only assignment associates to the right. A call and an
access have no such operand. -/
def rightPower : Follow → Nat
  | .assign => 1
  | f => f.leftPower + 1

end Follow

end Lox
