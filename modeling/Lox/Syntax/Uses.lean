import Lox.Syntax.Tree

/-!
# The uses of names in a program

The expressions of a program that use a variable, `this` or a method of the superclass, in the order
of the tree. These are the expressions for which scope resolution can record a distance. The left
side of an assignment is no use of its own: it is not part of the tree.
-/

namespace Lox

/-- How a name is used. -/
inductive UseKind
  | read (name : String)
  | assign (name : String)
  | this
  | super (method : String)
  deriving DecidableEq, Repr

/-- The use of a name: which expression it is, and how the name is used. -/
structure Use where
  node : Node
  kind : UseKind
  deriving DecidableEq, Repr

namespace UseKind

/-- The name that is looked up. -/
def name : UseKind → String
  | .read name => name
  | .assign name => name
  | .this => thisName
  | .super _ => superName

end UseKind

/-- The use of a variable as a value. -/
def Reference.use (r : Reference) : Use :=
  ⟨r.node, .read r.name.name⟩

namespace Expr

mutual

/-- The uses of names in an expression. -/
def uses : Expr → List Use
  | .literal _ _ => []
  | .group _ inner => uses inner
  | .unary _ _ operand => uses operand
  | .binary _ _ left right => uses left ++ uses right
  | .logical _ _ left right => uses left ++ uses right
  | .var target => [target.use]
  | .assign target value => ⟨target.node, .assign target.name.name⟩ :: uses value
  | .call _ callee arguments => uses callee ++ usesAll arguments
  | .get _ object _ => uses object
  | .set _ object _ value => uses object ++ uses value
  | .this node => [⟨node, .this⟩]
  | .super node method => [⟨node, .super method.name⟩]

/-- The uses of names in expressions. -/
def usesAll : List Expr → List Use
  | [] => []
  | e :: es => uses e ++ usesAll es

end

/-- The uses of names in an expression that may be missing. -/
def usesOption : Option Expr → List Use
  | none => []
  | some e => uses e

end Expr

namespace Stmt

mutual

/-- The uses of names in a statement. -/
def uses : Stmt → List Use
  | .expression value => value.uses
  | .print value => value.uses
  | .var _ initial => Expr.usesOption initial
  | .block body => usesAll body
  | .ifElse condition consequent alternative =>
      condition.uses ++ uses consequent ++ usesOption alternative
  | .while condition body => condition.uses ++ uses body
  | .function decl => usesRoutine decl
  | .return _ value => Expr.usesOption value
  | .class _ parent methods => (parent.map Reference.use).toList ++ usesMethods methods

/-- The uses of names in statements. -/
def usesAll : List Stmt → List Use
  | [] => []
  | s :: ss => uses s ++ usesAll ss

/-- The uses of names in a statement that may be missing. -/
def usesOption : Option Stmt → List Use
  | none => []
  | some s => uses s

/-- The uses of names in the body of a function. -/
def usesRoutine : Routine Stmt → List Use
  | ⟨_, _, body⟩ => usesAll body

/-- The uses of names in the bodies of methods. -/
def usesMethods : List (Routine Stmt) → List Use
  | [] => []
  | method :: methods => usesRoutine method ++ usesMethods methods

end

end Stmt

end Lox
