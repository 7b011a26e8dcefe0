import Lox.Report.Notice
import Lox.Scope.Error

/-!
# Reporting violations of the scope rules
-/

namespace Lox

namespace ScopeError

/-- The remarks on the place of the violation, and on the declaration it clashes with. -/
def remarks (e : ScopeError) : List Remark :=
  match e.cause with
  | .ownInitializer destination reference =>
      [⟨destination.span, "The variable " ++ destination.name ++ " is declared here..."⟩,
        ⟨reference.span, "...and read before its initializer finishes"⟩]
  | .redeclared old new =>
      [⟨old.span, "Variable is first declared here..."⟩,
        ⟨new.span, "...but is declared again over here"⟩]
  | .returnOutsideFunction => [⟨e.span, "Returning from here is an invalid operation"⟩]
  | .returnFromInitializer => [⟨e.span, "Initializers always return the instance"⟩]
  | .thisOutsideClass | .superOutsideClass => [⟨e.span, "There is no enclosing class here"⟩]
  | .superWithoutSuperclass =>
      [⟨e.span, "The enclosing class does not inherit from anything"⟩]
  | .inheritsItself name => [⟨e.span, name.name ++ " is named as its own superclass"⟩]

/-- What the violation has to say. -/
def notice (e : ScopeError) : Notice :=
  ⟨e.code, e.message, e.span, e.remarks⟩

/-- The violation in plain style. -/
def plain (lines : LineTable) (text : List Char) (e : ScopeError) : String :=
  plainAt lines text e.span e.message

end ScopeError

end Lox
