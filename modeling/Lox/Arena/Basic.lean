import Lox.Syntax.Tree

/-!
# Arenas

The nodes of all programs of a session stand in three arrays: expressions, statements and functions.
A node does not hold its parts but their indices. Nodes are added at the end and never removed.

A node in one of the arrays is known by its handle.
-/

namespace Lox

/-- The index of a node in its array. It has 32 bits. -/
abbrev Index := UInt32

/-- An expression without its parts. -/
inductive ExprNode
  | literal (value : Literal)
  | group (inner : Index)
  | unary (op : UnaryOp) (operand : Index)
  | binary (op : BinaryOp) (left right : Index)
  | logical (op : LogicalOp) (left right : Index)
  | var (name : Ident)
  | assign (name : Ident) (value : Index)
  | call (callee : Index) (arguments : List Index)
  | get (object : Index) (name : Ident)
  | set (object : Index) (name : Ident) (value : Index)
  | this
  | super (method : Ident)

/-- An expression at a place. -/
structure ExprEntry where
  node : ExprNode
  span : Span

/-- A statement without its parts. The superclass of a class is an expression, which is always a
variable. -/
inductive StmtNode
  | expression (value : Index)
  | print (value : Index)
  | var (name : Ident) (initial : Option Index)
  | block (body : List Index)
  | ifElse (condition consequent : Index) (alternative : Option Index)
  | while (condition body : Index)
  | function (routine : Index)
  | return (keyword : Span) (value : Option Index)
  | class (name : Ident) (superclass : Option Index) (methods : List Index)

/-- What stands for a node. -/
inductive Handle
  | expression (i : Index)
  | statement (i : Index)
  | function (i : Index)
  deriving DecidableEq, Repr

/-- All nodes that have been added. -/
structure Arena where
  expressions : Array ExprEntry
  statements : Array StmtNode
  functions : Array (Routine Index)
  /-- What was added, the latest first. -/
  added : List Handle

/-- The expressions that an expression holds. -/
def ExprNode.parts : ExprNode → List Index
  | .literal _ => []
  | .group inner => [inner]
  | .unary _ operand => [operand]
  | .binary _ left right => [left, right]
  | .logical _ left right => [left, right]
  | .var _ => []
  | .assign _ value => [value]
  | .call callee arguments => callee :: arguments
  | .get object _ => [object]
  | .set object _ value => [object, value]
  | .this => []
  | .super _ => []

/-- What an expression holds. -/
def ExprNode.children (node : ExprNode) : List Handle :=
  node.parts.map .expression

/-- What a statement holds. -/
def StmtNode.children : StmtNode → List Handle
  | .expression value => [.expression value]
  | .print value => [.expression value]
  | .var _ initial => initial.toList.map .expression
  | .block body => body.map .statement
  | .ifElse condition consequent alternative =>
      .expression condition :: .statement consequent :: alternative.toList.map .statement
  | .while condition body => [.expression condition, .statement body]
  | .function routine => [.function routine]
  | .return _ value => value.toList.map .expression
  | .class _ superclass methods => superclass.toList.map .expression ++ methods.map .function

namespace Arena

/-- An arena without nodes. -/
def empty : Arena :=
  ⟨#[], #[], #[], []⟩

/-- Adds an expression. -/
def pushExpression (a : Arena) (entry : ExprEntry) : Arena :=
  { a with
    expressions := a.expressions.push entry
    added := .expression (.ofNat a.expressions.size) :: a.added }

/-- Adds a statement. -/
def pushStatement (a : Arena) (node : StmtNode) : Arena :=
  { a with
    statements := a.statements.push node
    added := .statement (.ofNat a.statements.size) :: a.added }

/-- Adds a function. -/
def pushFunction (a : Arena) (routine : Routine Index) : Arena :=
  { a with
    functions := a.functions.push routine
    added := .function (.ofNat a.functions.size) :: a.added }

/-- What a node holds, if there is a node for the handle. -/
def children? (a : Arena) : Handle → Option (List Handle)
  | .expression i => (a.expressions[i.toNat]?).map fun entry => entry.node.children
  | .statement i => (a.statements[i.toNat]?).map StmtNode.children
  | .function i => (a.functions[i.toNat]?).map fun routine => routine.body.map .statement

end Arena

end Lox
