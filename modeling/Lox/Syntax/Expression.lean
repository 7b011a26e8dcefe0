import Lox.Number.Literal
import Lox.Syntax.Parse

/-!
# Reading expressions

An expression is an operand and what follows it. What follows is taken as long as it binds tightly
enough for the context, so the powers of the operators decide the shape of the tree.

Numbers are given to expressions when they are complete, so an expression has a greater number than
its parts. An assignment gets a number of its own and leaves that of the variable or property it was
first read as unused.
-/

namespace Lox

/-- The value of a string token, which is written between quotes. -/
def unquote (lexeme : String) : String :=
  String.ofList lexeme.toList.tail.dropLast

/-- The value a token writes out, if it does. -/
def Literal.ofToken? (token : Token) : Option Literal :=
  match token.kind with
  | .number => some (.number (literalValue token.lexeme.toList))
  | .string => some (.string (unquote token.lexeme))
  | .keyword .true => some (.boolean true)
  | .keyword .false => some (.boolean false)
  | .keyword .nil => some .nil
  | _ => none

namespace Parse

/-- Turns the expression on the left of an equals sign into an assignment. Where it can be no
target, the mistake is recorded, the value is dropped and reading goes on. -/
def assignTo (target : Expr) (equals : Span) (value : Expr) : Parse Expr := do
  match target with
  | .var old => return .assign (← reference old.name) value
  | .get _ object name => return .set (← node name.span).id object name value
  | _ =>
      record .invalidTarget equals
      return target

/-- Reads what can stand alone as an operand and holds no expression: a literal, a variable, `this`,
or a method of the superclass. -/
def atom (token : Token) : Parse Expr := do
  match Literal.ofToken? token, token.kind with
  | some value, _ =>
      let _ ← advance
      return .literal (← node token.span) value
  | none, .identifier =>
      let _ ← advance
      return .var (← reference ⟨token.lexeme, token.span⟩)
  | none, .keyword .this =>
      let _ ← advance
      return .this (← node token.span)
  | none, .keyword .super =>
      let _ ← advance
      let _ ← expect .dot .superDot
      let method ← ident .superMethod
      return .super (← node token.span) method
  | none, _ => fail .expectedExpression

mutual

/-- Reads an expression whose operators all bind with at least the power `least`. -/
def expressionAt : Nat → Nat → Parse Expr
  | 0, _ => fail .expectedExpression
  | fuel + 1, least => do
      let left ← operand fuel
      continueFrom fuel least left

/-- Reads an operand: an atom, a group, or an operator and its operand. -/
def operand : Nat → Parse Expr
  | 0 => fail .expectedExpression
  | fuel + 1 => do
      let token ← peek
      match UnaryOp.ofKind? token.kind, token.kind with
      | some op, _ =>
          let _ ← advance
          let inner ← expressionAt fuel UnaryOp.power
          return .unary (← node token.span) op inner
      | none, .leftParen =>
          let _ ← advance
          let inner ← expressionAt fuel 0
          let _ ← expect .rightParen .closeGroup
          return .group (← node token.span) inner
      | none, _ => atom token

/-- Reads what follows an operand, as far as it binds with at least the power `least`. -/
def continueFrom : Nat → Nat → Expr → Parse Expr
  | 0, _, left => return left
  | fuel + 1, least, left => do
      let token ← peek
      match Follow.ofKind? token.kind with
      | none => return left
      | some follow =>
          if follow.leftPower < least then return left
          else
            let _ ← advance
            let longer ← followOperand fuel left token.span follow
            continueFrom fuel least longer

/-- Reads the rest of an expression whose operand and operator, at the given place, have been
passed. -/
def followOperand : Nat → Expr → Span → Follow → Parse Expr
  | 0, left, _, _ => return left
  | fuel + 1, left, place, follow => do
      match follow with
      | .call =>
          let values ← arguments fuel
          let close ← expect .rightParen .closeArguments
          return .call (← node close.span) left values
      | .access =>
          let name ← ident .propertyName
          return .get (← node name.span).id left name
      | .binary op =>
          let right ← expressionAt fuel follow.rightPower
          return .binary (← node place) op left right
      | .logical op =>
          let right ← expressionAt fuel follow.rightPower
          return .logical (← node place) op left right
      | .assign =>
          let value ← expressionAt fuel follow.rightPower
          assignTo left place value

/-- Reads the arguments of a call, up to its closing parenthesis. -/
def arguments : Nat → Parse (List Expr)
  | 0 => return []
  | fuel + 1 => do
      if ← check .rightParen then return []
      else moreArguments fuel 0

/-- Reads one argument after `count` others, and those that follow it. -/
def moreArguments : Nat → Nat → Parse (List Expr)
  | 0, _ => return []
  | fuel + 1, count => do
      limit .tooManyArguments count
      let first ← expressionAt fuel 0
      if ← accept .comma then
        let others ← moreArguments fuel (count + 1)
        return first :: others
      else return [first]

end

/-- Reads an expression. -/
def expression : Parse Expr :=
  fuelled fun fuel => expressionAt fuel 0

end Parse

end Lox
