import Lox.Value.Basic

/-!
# Faults

A fault is a mistake that shows only when a program runs. It keeps the values that caused it.
-/

namespace Lox

/-- A running program may be at most this deep in calls. -/
def maxDepth : Nat :=
  255

/-- Why a program cannot go on. -/
inductive FaultCause
  | notANumber (operand : Value)
  | notNumbers (left right : Value)
  | notAddable (left right : Value)
  | undefinedVariable (name : String)
  | notCallable (callee : Value)
  | wrongArgumentCount (actual expected : Nat)
  | propertyOfNoInstance (value : Value)
  | fieldOfNoInstance (value : Value)
  | undefinedProperty (object : Value) (name : String)
  | superclassNotAClass (value : Value)
  | nativeFailure (name reason : String)
  | stackOverflow

/-- A fault and the expression or name it arose at. -/
structure Fault where
  cause : FaultCause
  span : Span

namespace FaultCause

/-- The code by which the fault is known. -/
def code : FaultCause → String
  | .notANumber _ => "RT001"
  | .notNumbers _ _ => "RT002"
  | .notAddable _ _ => "RT003"
  | .undefinedVariable _ => "RT004"
  | .notCallable _ => "RT005"
  | .wrongArgumentCount _ _ => "RT006"
  | .propertyOfNoInstance _ => "RT007"
  | .fieldOfNoInstance _ => "RT008"
  | .undefinedProperty _ _ => "RT009"
  | .superclassNotAClass _ => "RT010"
  | .nativeFailure _ _ => "RT011"
  | .stackOverflow => "RT012"

/-- What the fault is. -/
def message : FaultCause → String
  | .notANumber _ => "Operand must be a number."
  | .notNumbers _ _ => "Operands must be numbers."
  | .notAddable _ _ => "Operands must be two numbers or two strings."
  | .undefinedVariable name => "Undefined variable '" ++ name ++ "'."
  | .notCallable _ => "Can only call functions and classes."
  | .wrongArgumentCount actual expected =>
      "Expected " ++ toString expected ++ " arguments but got " ++ toString actual ++ "."
  | .propertyOfNoInstance _ => "Only instances have properties."
  | .fieldOfNoInstance _ => "Only instances have fields."
  | .undefinedProperty _ name => "Undefined property '" ++ name ++ "'."
  | .superclassNotAClass _ => "Superclass must be a class."
  | .nativeFailure name reason => "Native function '" ++ name ++ "' failed: " ++ reason
  | .stackOverflow => "Stack overflow."

end FaultCause

end Lox
