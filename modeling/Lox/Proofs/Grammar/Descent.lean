import Lox.Syntax.Expression

/-!
# Expressions layer by layer

The grammar of expressions has ten layers. An expression of one layer is made of expressions of the
next tighter layer, joined by the operators of its own. `Descent.read` reads an expression by
recursive descent, with one clause for each layer; the six layers whose operators associate to the
left share one. No powers of operators occur here.

An assignment associates to the right. Its target is a variable or a property; where it is anything
else, the mistake is recorded at the equals sign and reading goes on.

That this gives what the reader that goes by powers gives, for right and for wrong programs, is proved
in `Lox.Proofs.Grammar.Agreement`.
-/

namespace Lox

/-- The layers of the grammar of expressions, the loosest first. -/
inductive Layer
  | assignment
  | disjunction
  | conjunction
  | equality
  | comparison
  | term
  | factor
  | unary
  | call
  | primary
  deriving DecidableEq, Repr

namespace Layer

/-- The next tighter layer. -/
def tighter : Layer → Layer
  | .assignment => .disjunction
  | .disjunction => .conjunction
  | .conjunction => .equality
  | .equality => .comparison
  | .comparison => .term
  | .term => .factor
  | .factor => .unary
  | .unary => .call
  | .call | .primary => .primary

/-- The operators of a layer that evaluate both operands. -/
def binary? : Layer → Kind → Option BinaryOp
  | .equality, .equalEqual => some .equal
  | .equality, .bangEqual => some .notEqual
  | .comparison, .less => some .less
  | .comparison, .lessEqual => some .lessEqual
  | .comparison, .greater => some .greater
  | .comparison, .greaterEqual => some .greaterEqual
  | .term, .plus => some .add
  | .term, .minus => some .subtract
  | .factor, .star => some .multiply
  | .factor, .slash => some .divide
  | _, _ => none

/-- The operators of a layer that may leave their second operand alone. -/
def logical? : Layer → Kind → Option LogicalOp
  | .disjunction, .keyword .or => some .or
  | .conjunction, .keyword .and => some .and
  | _, _ => none

/-- How a token joins two expressions, if it is an operator of the layer. -/
def join? (layer : Layer) (kind : Kind) : Option (Node → Expr → Expr → Expr) :=
  match layer.binary? kind, layer.logical? kind with
  | some op, _ => some fun node => .binary node op
  | none, some op => some fun node => .logical node op
  | none, none => none

end Layer

namespace Descent

open Parse

/-- Reads further operands of a layer, each behind an operator of the layer, and joins them from the
left to the right. -/
def chain (layer : Layer) (operand : Parse Expr) : Nat → Expr → Parse Expr
  | 0, left => return left
  | fuel + 1, left => do
      let token ← peek
      match layer.join? token.kind with
      | none => return left
      | some join =>
          let _ ← advance
          let right ← operand
          let joined := join (← node token.span) left right
          chain layer operand fuel joined

mutual

/-- Reads an expression of a layer. -/
def read : Nat → Layer → Parse Expr
  | 0, _ => fail .expectedExpression
  | fuel + 1, .assignment => do
      let left ← read fuel .disjunction
      let token ← peek
      if token.kind = .equal then
        let _ ← advance
        let value ← read fuel .assignment
        match left with
        | .var old => return .assign (← reference old.name) value
        | .get _ object name => return .set (← node name.span).id object name value
        | _ =>
            record .invalidTarget token.span
            return left
      else return left
  | fuel + 1, .unary => do
      let token ← peek
      match UnaryOp.ofKind? token.kind with
      | some op =>
          let _ ← advance
          let operand ← read fuel .unary
          return .unary (← node token.span) op operand
      | none => read fuel .call
  | fuel + 1, .call => do
      let callee ← read fuel .primary
      suffixes fuel callee
  | fuel + 1, .primary => do
      let token ← peek
      if token.kind = .leftParen then
        let _ ← advance
        let inner ← read fuel .assignment
        let _ ← expect .rightParen .closeGroup
        return .group (← node token.span) inner
      else atom token
  | fuel + 1, layer => do
      let left ← read fuel layer.tighter
      chain layer (read fuel layer.tighter) fuel left

/-- Reads the calls and the accesses to properties behind an expression. -/
def suffixes : Nat → Expr → Parse Expr
  | 0, left => return left
  | fuel + 1, left => do
      let token ← peek
      match token.kind with
      | .leftParen =>
          let _ ← advance
          let values ← arguments fuel
          let close ← expect .rightParen .closeArguments
          let called := Expr.call (← node close.span) left values
          suffixes fuel called
      | .dot =>
          let _ ← advance
          let name ← ident .propertyName
          let property := Expr.get (← node name.span).id left name
          suffixes fuel property
      | _ => return left

/-- Reads the arguments of a call, up to its closing parenthesis. -/
def arguments : Nat → Parse (List Expr)
  | 0 => return []
  | fuel + 1 => do
      if ← check .rightParen then return []
      else moreArguments fuel 0

/-- Reads one argument behind `count` others, and those that follow it. -/
def moreArguments : Nat → Nat → Parse (List Expr)
  | 0, _ => return []
  | fuel + 1, count => do
      limit .tooManyArguments count
      let first ← read fuel .assignment
      if ← accept .comma then
        let others ← moreArguments fuel (count + 1)
        return first :: others
      else return [first]

end

end Descent

end Lox
