import Lox.Arena.Basic
import Lox.Syntax.Expression

/-!
# Reading expressions into an arena

A text is read into an arena node by node. Each step takes its tokens as the reading of trees does,
adds the nodes that it makes, and gives their indices. The nodes of a statement that is not completed
stay, and so does the variable or the property that turns out to be the target of an assignment.
-/

namespace Lox

/-- The state of reading into an arena. The next number of the reading counts the expressions. -/
structure BuildState where
  reading : ParseState
  arena : Arena

/-- Steps of reading into an arena. -/
abbrev Build := EStateM SyntaxError BuildState

namespace Build

variable {α : Type}

/-- Takes a step that makes no node. -/
def read (step : Parse α) : Build α := fun b =>
  match step b.reading with
  | .ok a s => .ok a { b with reading := s }
  | .error e s => .error e { b with reading := s }

/-- Adds an expression and gives its index. -/
def pushExpression (node : ExprNode) (span : Span) : Build Index := fun b =>
  .ok (.ofNat b.arena.expressions.size)
    { reading := { b.reading with nextId := b.reading.nextId + 1 }
      arena := b.arena.pushExpression ⟨node, span⟩ }

/-- Adds a statement and gives its index. -/
def pushStatement (node : StmtNode) : Build Index := fun b =>
  .ok (.ofNat b.arena.statements.size) { b with arena := b.arena.pushStatement node }

/-- Adds a function and gives its index. -/
def pushFunction (routine : Routine Index) : Build Index := fun b =>
  .ok (.ofNat b.arena.functions.size) { b with arena := b.arena.pushFunction routine }

/-- The expression with the given index, if there is one. -/
def expression? (i : Index) : Build (Option ExprEntry) := fun b =>
  .ok b.arena.expressions[i.toNat]? b

/-- Takes a step if a token of the given kind can be passed before it. -/
def behind (kind : Kind) (step : Build α) : Build (Option α) := do
  if ← read (Parse.accept kind) then some <$> step else return none

/-- Takes a step unless the token at hand is of the given kind. -/
def unlessAt (kind : Kind) (step : Build α) : Build (Option α) := do
  if ← read (Parse.check kind) then return none else some <$> step

/-- Runs a step. If it stops, its mistake is recorded, reading goes on at the next statement and
there is no result. -/
def recover (step : Build α) : Build (Option α) := fun b =>
  match step b with
  | .ok a b' => .ok (some a) b'
  | .error e b' => .ok none { b' with reading := (b'.reading.record e).synchronize }

/-- Runs a step with fuel that it does not use up. -/
def fuelled (step : Nat → Build α) : Build α := fun b =>
  step b.reading.fuel b

/-- Adds the assignment to a target. A variable or a property is replaced by the assignment to it;
where there can be no target, the mistake is recorded and the value is dropped. -/
def assignTo (target : Index) (equals : Span) (value : Index) : Build Index := do
  match (← expression? target).map ExprEntry.node with
  | some (.var name) => pushExpression (.assign name value) name.span
  | some (.get object name) => pushExpression (.set object name value) name.span
  | _ =>
      read (Parse.record .invalidTarget equals)
      return target

/-- Reads what can stand alone as an operand and holds no expression. -/
def atom (token : Token) : Build Index := do
  match Literal.ofToken? token, token.kind with
  | some value, _ =>
      let _ ← read Parse.advance
      pushExpression (.literal value) token.span
  | none, .identifier =>
      let _ ← read Parse.advance
      pushExpression (.var ⟨token.lexeme, token.span⟩) token.span
  | none, .keyword .this =>
      let _ ← read Parse.advance
      pushExpression .this token.span
  | none, .keyword .super =>
      let _ ← read Parse.advance
      let _ ← read (Parse.expect .dot .superDot)
      let method ← read (Parse.ident .superMethod)
      pushExpression (.super method) token.span
  | none, _ => read (Parse.fail .expectedExpression)

mutual

/-- Reads an expression whose operators all bind with at least the power `least`. -/
def expressionAt : Nat → Nat → Build Index
  | 0, _ => read (Parse.fail .expectedExpression)
  | fuel + 1, least => do
      let left ← operand fuel
      continueFrom fuel least left

/-- Reads an operand: an atom, a group, or an operator and its operand. -/
def operand : Nat → Build Index
  | 0 => read (Parse.fail .expectedExpression)
  | fuel + 1 => do
      let token ← read Parse.peek
      match UnaryOp.ofKind? token.kind, token.kind with
      | some op, _ =>
          let _ ← read Parse.advance
          let inner ← expressionAt fuel UnaryOp.power
          pushExpression (.unary op inner) token.span
      | none, .leftParen =>
          let _ ← read Parse.advance
          let inner ← expressionAt fuel 0
          let _ ← read (Parse.expect .rightParen .closeGroup)
          pushExpression (.group inner) token.span
      | none, _ => atom token

/-- Reads what follows an operand, as far as it binds with at least the power `least`. -/
def continueFrom : Nat → Nat → Index → Build Index
  | 0, _, left => return left
  | fuel + 1, least, left => do
      let token ← read Parse.peek
      match Follow.ofKind? token.kind with
      | none => return left
      | some follow =>
          if follow.leftPower < least then return left
          else
            let _ ← read Parse.advance
            let longer ← followOperand fuel left token.span follow
            continueFrom fuel least longer

/-- Reads the rest of an expression whose operand and operator, at the given place, have been
passed. -/
def followOperand : Nat → Index → Span → Follow → Build Index
  | 0, left, _, _ => return left
  | fuel + 1, left, place, follow => do
      match follow with
      | .call =>
          let values ← arguments fuel
          let close ← read (Parse.expect .rightParen .closeArguments)
          pushExpression (.call left values) close.span
      | .access =>
          let name ← read (Parse.ident .propertyName)
          pushExpression (.get left name) name.span
      | .binary op =>
          let right ← expressionAt fuel follow.rightPower
          pushExpression (.binary op left right) place
      | .logical op =>
          let right ← expressionAt fuel follow.rightPower
          pushExpression (.logical op left right) place
      | .assign =>
          let value ← expressionAt fuel follow.rightPower
          assignTo left place value

/-- Reads the arguments of a call, up to its closing parenthesis. -/
def arguments : Nat → Build (List Index)
  | 0 => return []
  | fuel + 1 => do
      if ← read (Parse.check .rightParen) then return []
      else moreArguments fuel 0

/-- Reads one argument after `count` others, and those that follow it. -/
def moreArguments : Nat → Nat → Build (List Index)
  | 0, _ => return []
  | fuel + 1, count => do
      read (Parse.limit .tooManyArguments count)
      let first ← expressionAt fuel 0
      if ← read (Parse.accept .comma) then
        let others ← moreArguments fuel (count + 1)
        return first :: others
      else return [first]

end

/-- Reads an expression. -/
def expression : Build Index :=
  fuelled fun fuel => expressionAt fuel 0

end Build

end Lox
