import Lox.Report.Notice
import Lox.Syntax.Error

/-!
# Reporting mistakes in the characters and the grammar
-/

namespace Lox

namespace SyntaxError

/-- The remark on the place of the mistake. -/
def remark (e : SyntaxError) : String :=
  match e.cause with
  | .lexical (.unrecognized c) =>
      "The character " ++ String.singleton c ++ " is not part of the language"
  | .lexical .unclosedString => "This string is never closed"
  | .expected _ => if e.isAtEnd then "The input ends here" else "Found this instead"
  | .expectedExpression => "This can't start an expression"
  | .invalidTarget => "The left hand side of this assignment is not a variable or property"
  | .tooManyArguments | .tooManyParameters =>
      "This goes past the limit of " ++ toString maxArguments

/-- What the mistake has to say. -/
def notice (e : SyntaxError) : Notice :=
  ⟨e.code, e.message, e.span, [⟨e.span, e.remark⟩]⟩

/-- The mistake in plain style. A mistake in the characters is on the line where it is noticed. -/
def plain (lines : LineTable) (text : List Char) (e : SyntaxError) : String :=
  match e.cause with
  | .lexical cause =>
      let line := lines.lineAt (LexicalError.mk cause e.span).noticedAt
      "[line " ++ toString line ++ "] Error: " ++ e.message
  | _ =>
      if e.isAtEnd then
        "[line " ++ toString (lines.lineOf e.span) ++ "] Error at end: " ++ e.message
      else plainAt lines text e.span e.message

end SyntaxError

end Lox
