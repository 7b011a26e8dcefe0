import Lox.Report.Notice
import Lox.Value.Fault
import Lox.Value.Show

/-!
# Reporting faults
-/

namespace Lox

namespace FaultCause

/-- The remark on the place of the fault. -/
def remark : FaultCause → String
  | .notANumber operand => "This evaluates to " ++ operand.typeName ++ " and not a number"
  | .notNumbers left right | .notAddable left right =>
      "The operands are " ++ left.typeName ++ " and " ++ right.typeName
  | .undefinedVariable name => name ++ " is not defined here"
  | .notCallable callee => "This is " ++ callee.typeName ++ " and can't be called"
  | .wrongArgumentCount actual expected =>
      "Called with " ++ toString actual ++ " where " ++ toString expected ++ " are needed"
  | .propertyOfNoInstance value | .fieldOfNoInstance value =>
      "This is " ++ value.typeName ++ " and not an instance"
  | .undefinedProperty object name => object.text ++ " has no field or method " ++ name
  | .superclassNotAClass value => "This is " ++ value.typeName ++ " and not a class"
  | .nativeFailure name _ => "The call to " ++ name ++ " failed here"
  | .stackOverflow => "This call nests deeper than " ++ toString maxDepth ++ " calls"

end FaultCause

namespace Fault

/-- What the fault has to say. -/
def notice (f : Fault) : Notice :=
  ⟨f.cause.code, f.cause.message, f.span, [⟨f.span, f.cause.remark⟩]⟩

/-- The fault in plain style: the message, and on a line of its own the number of its line. -/
def plain (lines : LineTable) (f : Fault) : String :=
  f.cause.message ++ "\n[line " ++ toString (lines.lineOf f.span) ++ "]"

end Fault

end Lox
