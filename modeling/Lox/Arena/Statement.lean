import Lox.Arena.Expression
import Lox.Syntax.Program

/-!
# Reading programs into an arena

Statements and functions are added when they are complete, so after their parts. What a `for` loop
stands for is added from the inside outwards.
-/

namespace Lox

namespace Build

/-! ## Statements that hold no other statement -/

/-- Reads an expression, up to and with its semicolon. -/
def expressionStatement : Build Index := do
  let value ← expression
  let _ ← read (Parse.expect .semicolon .endExpression)
  pushStatement (.expression value)

/-- Reads a `print` statement, whose keyword is at hand. -/
def printStatement : Build Index := do
  let _ ← read Parse.advance
  let value ← expression
  let _ ← read (Parse.expect .semicolon .endPrint)
  pushStatement (.print value)

/-- Reads a `return` statement, whose keyword is at hand. -/
def returnStatement : Build Index := do
  let keyword ← read Parse.advance
  let value ← unlessAt .semicolon expression
  let _ ← read (Parse.expect .semicolon .endReturn)
  pushStatement (.return keyword.span value)

/-- Reads the declaration of a variable, whose keyword is at hand. -/
def varDeclaration : Build Index := do
  let _ ← read Parse.advance
  let name ← read (Parse.ident .variableName)
  let initial ← behind .equal expression
  let _ ← read (Parse.expect .semicolon .endVariable)
  pushStatement (.var name initial)

/-! ## Loops -/

/-- What the parentheses of a `for` loop hold, with the place of the semicolon behind the
condition. -/
structure ForParts where
  initializer : Option Index
  condition : Option Index
  semicolon : Span
  increment : Option Index

/-- Reads the first clause of a `for` loop with its semicolon. -/
def forInitializer : Build (Option Index) := do
  if ← read (Parse.accept .semicolon) then return none
  else
    some <$> (do
      if ← read (Parse.check (.keyword .var)) then varDeclaration else expressionStatement)

/-- Reads the clauses of a `for` loop, each of which may be missing, up to the closing
parenthesis. -/
def forParts : Build ForParts := do
  let initializer ← forInitializer
  let condition ← unlessAt .semicolon expression
  let semicolon ← read (Parse.expect .semicolon .endForCondition)
  let increment ← unlessAt .rightParen expression
  let _ ← read (Parse.expect .rightParen .closeFor)
  return ⟨initializer, condition, semicolon.span, increment⟩

/-- Adds what a `for` loop does in each round: the increment follows the body in a block. -/
def ForParts.round (parts : ForParts) (body : Index) : Build Index := do
  match parts.increment with
  | some increment =>
      let step ← pushStatement (.expression increment)
      pushStatement (.block [body, step])
  | none => return body

/-- The condition of a `for` loop. A missing one is added as `true`, written at the semicolon. -/
def ForParts.test (parts : ForParts) : Build Index :=
  match parts.condition with
  | some condition => return condition
  | none => pushExpression (.literal (.boolean true)) parts.semicolon

/-- Adds the block around the loop that holds the initializer. -/
def ForParts.around (parts : ForParts) (loop : Index) : Build Index :=
  match parts.initializer with
  | some initializer => pushStatement (.block [initializer, loop])
  | none => return loop

/-- Adds a `for` loop as a `while` loop. -/
def forLoop (parts : ForParts) (body : Index) : Build Index := do
  let round ← parts.round body
  let condition ← parts.test
  let loop ← pushStatement (.while condition round)
  parts.around loop

/-! ## Functions, classes and statements -/

/-- Reads the class a class declaration inherits from, if one is named. -/
def superclass : Build (Option Index) :=
  behind .less do
    let name ← read (Parse.ident .superclassName)
    pushExpression (.var name) name.span

mutual

/-- Reads a declaration or a statement. After a mistake there is none, and reading goes on at the
next statement. -/
def declaration : Nat → Build (Option Index)
  | 0 => return none
  | fuel + 1 => recover do
      let token ← read Parse.peek
      match token.kind with
      | .keyword .class => classDeclaration fuel
      | .keyword .fun =>
          let _ ← read Parse.advance
          let decl ← routine fuel .function
          pushStatement (.function decl)
      | .keyword .var => varDeclaration
      | _ => statement fuel

/-- Reads declarations up to a closing brace or the end of the input. -/
def declarations : Nat → Build (List Index)
  | 0 => return []
  | fuel + 1 => do
      if (← read (Parse.check .rightBrace)) || (← read Parse.atEnd) then return []
      else
        let first ← declaration fuel
        let others ← declarations fuel
        return first.toList ++ others

/-- Reads the declarations of a block whose opening brace has been passed, and its closing brace. -/
def blockBody : Nat → Build (List Index)
  | 0 => return []
  | fuel + 1 => do
      let body ← declarations fuel
      let _ ← read (Parse.expect .rightBrace .closeBlock)
      return body

/-- Reads a function or a method, from its name on. -/
def routine : Nat → RoutineKind → Build Index
  | 0, _ => read (Parse.fail .expectedExpression)
  | fuel + 1, kind => do
      let name ← read (Parse.ident (.routineName kind))
      let _ ← read (Parse.expect .leftParen (.openParameters kind))
      let names ← read Parse.parameters
      let _ ← read (Parse.expect .rightParen .closeParameters)
      let _ ← read (Parse.expect .leftBrace (.openRoutine kind))
      let body ← blockBody fuel
      pushFunction ⟨name, names, body⟩

/-- Reads methods up to a closing brace or the end of the input. -/
def methods : Nat → Build (List Index)
  | 0 => return []
  | fuel + 1 => do
      if (← read (Parse.check .rightBrace)) || (← read Parse.atEnd) then return []
      else
        let first ← routine fuel .method
        let others ← methods fuel
        return first :: others

/-- Reads the declaration of a class, whose keyword is at hand. -/
def classDeclaration : Nat → Build Index
  | 0 => read (Parse.fail .expectedExpression)
  | fuel + 1 => do
      let _ ← read Parse.advance
      let name ← read (Parse.ident .className)
      let parent ← superclass
      let _ ← read (Parse.expect .leftBrace .openClass)
      let members ← methods fuel
      let _ ← read (Parse.expect .rightBrace .closeClass)
      pushStatement (.class name parent members)

/-- Reads a statement that is no declaration. -/
def statement : Nat → Build Index
  | 0 => read (Parse.fail .expectedExpression)
  | fuel + 1 => do
      let token ← read Parse.peek
      match token.kind with
      | .keyword .for =>
          let _ ← read Parse.advance
          let _ ← read (Parse.expect .leftParen .openFor)
          let parts ← forParts
          let body ← statement fuel
          forLoop parts body
      | .keyword .if =>
          let _ ← read Parse.advance
          let _ ← read (Parse.expect .leftParen .openIf)
          let condition ← expression
          let _ ← read (Parse.expect .rightParen .closeIf)
          let consequent ← statement fuel
          let alternative ← behind (.keyword .else) (statement fuel)
          pushStatement (.ifElse condition consequent alternative)
      | .keyword .print => printStatement
      | .keyword .return => returnStatement
      | .keyword .while =>
          let _ ← read Parse.advance
          let _ ← read (Parse.expect .leftParen .openWhile)
          let condition ← expression
          let _ ← read (Parse.expect .rightParen .closeWhile)
          let body ← statement fuel
          pushStatement (.while condition body)
      | .leftBrace =>
          let _ ← read Parse.advance
          let body ← blockBody fuel
          pushStatement (.block body)
      | _ => expressionStatement

end

/-- Reads declarations up to the end of the input. -/
def program : Nat → Build (List Index)
  | 0 => return []
  | fuel + 1 => do
      if ← read Parse.atEnd then return []
      else
        let first ← fuelled declaration
        let others ← program fuel
        return first.toList ++ others

end Build

namespace Arena

/-- Reads items into an arena. Gives the arena, and the indices of the statements or the mistakes. -/
def readItems (a : Arena) (items : List Item) : Arena × Except (List SyntaxError) (List Index) :=
  match Build.fuelled Build.program ⟨.start items a.expressions.size, a⟩ with
  | .ok statements b =>
      (b.arena, if b.reading.errors.isEmpty then .ok statements else .error b.reading.errors)
  | .error e b => (b.arena, .error (b.reading.errors ++ [e]))

/-- Reads a text that begins at byte `offset` into an arena. -/
def readText (a : Arena) (offset : Nat) (text : List Char) :
    Arena × Except (List SyntaxError) (List Index) :=
  a.readItems (scan offset text)

end Arena

end Lox
