import Lox.Token.Error
import Lox.Syntax.Tree

/-!
# Mistakes in the grammar of a program

A mistake is recorded with what was expected in its place, or with the rule it breaks. The wording
stands in one place, `SyntaxError.message`.
-/

namespace Lox

/-- What a routine is declared as. -/
inductive RoutineKind
  | function
  | method
  deriving DecidableEq, Repr

/-- The tokens the grammar asks for at one point. -/
inductive Expectation
  | className
  | superclassName
  | openClass
  | closeClass
  | routineName (kind : RoutineKind)
  | openParameters (kind : RoutineKind)
  | parameterName
  | closeParameters
  | openRoutine (kind : RoutineKind)
  | closeBlock
  | variableName
  | endVariable
  | endPrint
  | endReturn
  | openWhile
  | closeWhile
  | openIf
  | closeIf
  | openFor
  | endForCondition
  | closeFor
  | endExpression
  | closeGroup
  | closeArguments
  | propertyName
  | superDot
  | superMethod
  deriving DecidableEq, Repr

namespace RoutineKind

/-- How the kind is called in a message. -/
def text : RoutineKind → String
  | .function => "function"
  | .method => "method"

end RoutineKind

namespace Expectation

/-- How the expected token is called in a message. -/
def text : Expectation → String
  | .className => "class name"
  | .superclassName => "superclass name"
  | .openClass => "'\x7b' before class body"
  | .closeClass => "'\x7d' after class body"
  | .routineName kind => kind.text ++ " name"
  | .openParameters kind => "'(' after " ++ kind.text ++ " name"
  | .parameterName => "parameter name"
  | .closeParameters => "')' after parameters"
  | .openRoutine kind => "'\x7b' before " ++ kind.text ++ " body"
  | .closeBlock => "'\x7d' after block"
  | .variableName => "variable name"
  | .endVariable => "';' after variable declaration"
  | .endPrint => "';' after value"
  | .endReturn => "';' after return value"
  | .openWhile => "'(' after 'while'"
  | .closeWhile => "')' after condition"
  | .openIf => "'(' after 'if'"
  | .closeIf => "')' after if condition"
  | .openFor => "'(' after 'for'"
  | .endForCondition => "';' after loop condition"
  | .closeFor => "')' after for clauses"
  | .endExpression => "';' after expression"
  | .closeGroup => "')' after expression"
  | .closeArguments => "')' after arguments"
  | .propertyName => "property name after '.'"
  | .superDot => "'.' after 'super'"
  | .superMethod => "superclass method name"

end Expectation

/-- Why a program does not follow the grammar. -/
inductive SyntaxCause
  | lexical (cause : LexicalCause)
  | expected (what : Expectation)
  | expectedExpression
  | invalidTarget
  | tooManyArguments
  | tooManyParameters
  deriving DecidableEq, Repr

/-- A mistake in the grammar of a program and the token it is found at, or a mistake in its
characters. At the end of the input the span is empty. -/
structure SyntaxError where
  cause : SyntaxCause
  span : Span
  deriving DecidableEq, Repr

namespace SyntaxError

/-- A mistake in the characters, among those in the grammar. -/
def ofLexical (e : LexicalError) : SyntaxError :=
  ⟨.lexical e.cause, e.span⟩

/-- The code by which the mistake is known. -/
def code (e : SyntaxError) : String :=
  match e.cause with
  | .lexical cause => (LexicalError.mk cause e.span).code
  | .expected _ => "PA001"
  | .expectedExpression => "PA002"
  | .invalidTarget => "PA003"
  | .tooManyArguments => "PA004"
  | .tooManyParameters => "PA005"

/-- What the mistake is. -/
def message (e : SyntaxError) : String :=
  match e.cause with
  | .lexical cause => (LexicalError.mk cause e.span).message
  | .expected what => "Expect " ++ what.text ++ "."
  | .expectedExpression => "Expect expression."
  | .invalidTarget => "Invalid assignment target."
  | .tooManyArguments => "Can't have more than " ++ toString maxArguments ++ " arguments."
  | .tooManyParameters => "Can't have more than " ++ toString maxArguments ++ " parameters."

/-- The mistake is in the grammar, and the input ended where it was found. -/
def isAtEnd (e : SyntaxError) : Bool :=
  match e.cause with
  | .lexical _ => false
  | _ => e.span.isEmpty

end SyntaxError

end Lox
