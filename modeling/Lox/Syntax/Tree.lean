import Lox.Syntax.Operator

/-!
# Syntax trees

Every expression has a number of its own, by which the results of scope resolution are recorded, and
a span, at which its errors are shown: the operator, the name, the keyword, the opening parenthesis
of a group or the closing parenthesis of a call. There is no tree for a `for` loop; it is written
with blocks and a `while` loop.
-/

namespace Lox

/-- A name as it is written at one place. -/
structure Ident where
  name : String
  span : Span
  deriving DecidableEq, Repr

/-- The number and the place of an expression. -/
structure Node where
  id : Nat
  span : Span
  deriving DecidableEq, Repr

/-- An expression that uses a variable: its number and the variable's name. It is shown at the
name. -/
structure Reference where
  id : Nat
  name : Ident
  deriving DecidableEq, Repr

/-- The number and the place of a reference. -/
def Reference.node (r : Reference) : Node :=
  ⟨r.id, r.name.span⟩

/-- Values that are written out. -/
inductive Literal
  | number (x : Float)
  | string (s : String)
  | boolean (b : Bool)
  | nil

/-- Expressions. -/
inductive Expr
  | literal (node : Node) (value : Literal)
  | group (node : Node) (inner : Expr)
  | unary (node : Node) (op : UnaryOp) (operand : Expr)
  | binary (node : Node) (op : BinaryOp) (left right : Expr)
  | logical (node : Node) (op : LogicalOp) (left right : Expr)
  | var (target : Reference)
  | assign (target : Reference) (value : Expr)
  | call (node : Node) (callee : Expr) (arguments : List Expr)
  | get (id : Nat) (object : Expr) (name : Ident)
  | set (id : Nat) (object : Expr) (name : Ident) (value : Expr)
  | this (node : Node)
  | super (node : Node) (method : Ident)

namespace Expr

/-- The number and the place of an expression. -/
def node : Expr → Node
  | .literal node _ => node
  | .group node _ => node
  | .unary node _ _ => node
  | .binary node _ _ _ => node
  | .logical node _ _ _ => node
  | .var target => target.node
  | .assign target _ => target.node
  | .call node _ _ => node
  | .get id _ name => ⟨id, name.span⟩
  | .set id _ name _ => ⟨id, name.span⟩
  | .this node => node
  | .super node _ => node

end Expr

/-- A function or a method with a name, parameters and a body of statements. -/
structure Routine (Statement : Type) where
  name : Ident
  parameters : List Ident
  body : List Statement

/-- Statements. -/
inductive Stmt
  | expression (value : Expr)
  | print (value : Expr)
  | var (name : Ident) (initial : Option Expr)
  | block (body : List Stmt)
  | ifElse (condition : Expr) (consequent : Stmt) (alternative : Option Stmt)
  | while (condition : Expr) (body : Stmt)
  | function (routine : Routine Stmt)
  | return (keyword : Span) (value : Option Expr)
  | class (name : Ident) (superclass : Option Reference) (methods : List (Routine Stmt))

/-- A declared function or method. -/
abbrev FunctionDecl := Routine Stmt

/-- The name of the method that prepares a new instance. -/
def initializerName : String :=
  "init"

/-- The name under which a method finds its instance. -/
def thisName : String :=
  "this"

/-- The name under which a method finds the superclass of its class. -/
def superName : String :=
  "super"

/-- A list of parameters or arguments has at most this many members. -/
def maxArguments : Nat :=
  255

end Lox
