import Lox.Syntax.Tree

/-!
# Violations of the scope rules
-/

namespace Lox

/-- The scope rule that is broken. -/
inductive ScopeCause
  /-- A variable is read in its own initializer. -/
  | ownInitializer (destination reference : Ident)
  /-- A name is declared twice in one scope. -/
  | redeclared (old new : Ident)
  | returnOutsideFunction
  | returnFromInitializer
  | thisOutsideClass
  | superOutsideClass
  | superWithoutSuperclass
  | inheritsItself (name : Ident)
  deriving DecidableEq, Repr

/-- A violation of a scope rule and the token it is found at. -/
structure ScopeError where
  cause : ScopeCause
  span : Span
  deriving DecidableEq, Repr

namespace ScopeError

/-- The code by which the violation is known. -/
def code (e : ScopeError) : String :=
  match e.cause with
  | .ownInitializer _ _ => "RA001"
  | .redeclared _ _ => "RA002"
  | .returnOutsideFunction => "RA003"
  | .thisOutsideClass => "RA004"
  | .returnFromInitializer => "RA005"
  | .superOutsideClass => "RA006"
  | .superWithoutSuperclass => "RA007"
  | .inheritsItself _ => "RA008"

/-- What the violation is. -/
def message (e : ScopeError) : String :=
  match e.cause with
  | .ownInitializer _ _ => "Can't read local variable in its own initializer."
  | .redeclared _ _ => "Already a variable with this name in this scope."
  | .returnOutsideFunction => "Can't return from top-level code."
  | .thisOutsideClass => "Can't use 'this' outside of a class."
  | .returnFromInitializer => "Can't return a value from an initializer."
  | .superOutsideClass => "Can't use 'super' outside of a class."
  | .superWithoutSuperclass => "Can't use 'super' in a class with no superclass."
  | .inheritsItself _ => "A class can't inherit from itself."

end ScopeError

end Lox
