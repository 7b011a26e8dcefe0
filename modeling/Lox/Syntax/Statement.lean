import Lox.Syntax.Expression

/-!
# Reading statements

Declarations may stand at the top of a program, in blocks and in bodies of functions; a branch of an
`if` and the body of a loop are statements without declarations. A mistake stops the declaration it
stands in, and reading goes on at the next statement.
-/

namespace Lox

namespace Parse

/-! ## Statements that hold no other statement -/

/-- Reads an expression, up to and with its semicolon. -/
def expressionStatement : Parse Stmt := do
  let value ← expression
  let _ ← expect .semicolon .endExpression
  return .expression value

/-- Reads a `print` statement, whose keyword is at hand. -/
def printStatement : Parse Stmt := do
  let _ ← advance
  let value ← expression
  let _ ← expect .semicolon .endPrint
  return .print value

/-- Reads a `return` statement, whose keyword is at hand. -/
def returnStatement : Parse Stmt := do
  let keyword ← advance
  let value ← unlessAt .semicolon expression
  let _ ← expect .semicolon .endReturn
  return .return keyword.span value

/-- Reads the declaration of a variable, whose keyword is at hand. -/
def varDeclaration : Parse Stmt := do
  let _ ← advance
  let name ← ident .variableName
  let initial ← behind .equal expression
  let _ ← expect .semicolon .endVariable
  return .var name initial

/-! ## Loops -/

/-- What the parentheses of a `for` loop hold, with the place of the semicolon behind the
condition. -/
structure ForClauses where
  initializer : Option Stmt
  condition : Option Expr
  semicolon : Span
  increment : Option Expr

/-- Reads the first clause of a `for` loop with its semicolon. -/
def forInitializer : Parse (Option Stmt) := do
  if ← accept .semicolon then return none
  else some <$> (do if ← check (.keyword .var) then varDeclaration else expressionStatement)

/-- Reads the clauses of a `for` loop, each of which may be missing, up to the closing
parenthesis. -/
def forClauses : Parse ForClauses := do
  let initializer ← forInitializer
  let condition ← unlessAt .semicolon expression
  let semicolon ← expect .semicolon .endForCondition
  let increment ← unlessAt .rightParen expression
  let _ ← expect .rightParen .closeFor
  return ⟨initializer, condition, semicolon.span, increment⟩

/-- The condition of a `for` loop. A missing one is `true`, written at the semicolon. -/
def ForClauses.test (clauses : ForClauses) : Parse Expr :=
  match clauses.condition with
  | some condition => return condition
  | none => return .literal (← node clauses.semicolon) (.boolean true)

/-- What a `for` loop does in each round: the increment follows the body in a block. -/
def ForClauses.round (clauses : ForClauses) (body : Stmt) : Stmt :=
  match clauses.increment with
  | some increment => .block [body, .expression increment]
  | none => body

/-- A block around the loop holds the initializer. -/
def ForClauses.around (clauses : ForClauses) (loop : Stmt) : Stmt :=
  match clauses.initializer with
  | some initializer => .block [initializer, loop]
  | none => loop

/-- Writes a `for` loop as a `while` loop. -/
def forLoop (clauses : ForClauses) (body : Stmt) : Parse Stmt := do
  let condition ← clauses.test
  return clauses.around (.while condition (clauses.round body))

/-! ## Functions, classes and statements -/

/-- Reads one parameter after `count` others, and those that follow it. -/
def moreParameters : Nat → Nat → Parse (List Ident)
  | 0, _ => return []
  | fuel + 1, count => do
      limit .tooManyParameters count
      let first ← ident .parameterName
      if ← accept .comma then
        let others ← moreParameters fuel (count + 1)
        return first :: others
      else return [first]

/-- Reads the parameters of a routine, up to the closing parenthesis. -/
def parameters : Parse (List Ident) := do
  if ← check .rightParen then return [] else fuelled fun fuel => moreParameters fuel 0

/-- Reads the class a class declaration inherits from, if one is named. -/
def superclass : Parse (Option Reference) :=
  behind .less do
    let name ← ident .superclassName
    reference name

mutual

/-- Reads a declaration or a statement. After a mistake there is none, and reading goes on at the
next statement. -/
def declaration : Nat → Parse (Option Stmt)
  | 0 => return none
  | fuel + 1 => recover do
      let token ← peek
      match token.kind with
      | .keyword .class => classDeclaration fuel
      | .keyword .fun =>
          let _ ← advance
          let decl ← routine fuel .function
          return .function decl
      | .keyword .var => varDeclaration
      | _ => statement fuel

/-- Reads declarations up to a closing brace or the end of the input. -/
def declarations : Nat → Parse (List Stmt)
  | 0 => return []
  | fuel + 1 => do
      if (← check .rightBrace) || (← atEnd) then return []
      else
        let first ← declaration fuel
        let others ← declarations fuel
        return first.toList ++ others

/-- Reads the declarations of a block whose opening brace has been passed, and its closing brace. -/
def blockBody : Nat → Parse (List Stmt)
  | 0 => return []
  | fuel + 1 => do
      let body ← declarations fuel
      let _ ← expect .rightBrace .closeBlock
      return body

/-- Reads a function or a method, from its name on. -/
def routine : Nat → RoutineKind → Parse FunctionDecl
  | 0, _ => fail .expectedExpression
  | fuel + 1, kind => do
      let name ← ident (.routineName kind)
      let _ ← expect .leftParen (.openParameters kind)
      let names ← parameters
      let _ ← expect .rightParen .closeParameters
      let _ ← expect .leftBrace (.openRoutine kind)
      let body ← blockBody fuel
      return ⟨name, names, body⟩

/-- Reads methods up to a closing brace or the end of the input. -/
def methods : Nat → Parse (List FunctionDecl)
  | 0 => return []
  | fuel + 1 => do
      if (← check .rightBrace) || (← atEnd) then return []
      else
        let first ← routine fuel .method
        let others ← methods fuel
        return first :: others

/-- Reads the declaration of a class, whose keyword is at hand. -/
def classDeclaration : Nat → Parse Stmt
  | 0 => fail .expectedExpression
  | fuel + 1 => do
      let _ ← advance
      let name ← ident .className
      let parent ← superclass
      let _ ← expect .leftBrace .openClass
      let members ← methods fuel
      let _ ← expect .rightBrace .closeClass
      return .class name parent members

/-- Reads a statement that is no declaration. -/
def statement : Nat → Parse Stmt
  | 0 => fail .expectedExpression
  | fuel + 1 => do
      let token ← peek
      match token.kind with
      | .keyword .for =>
          let _ ← advance
          let _ ← expect .leftParen .openFor
          let clauses ← forClauses
          let body ← statement fuel
          forLoop clauses body
      | .keyword .if =>
          let _ ← advance
          let _ ← expect .leftParen .openIf
          let condition ← expression
          let _ ← expect .rightParen .closeIf
          let consequent ← statement fuel
          let alternative ← behind (.keyword .else) (statement fuel)
          return .ifElse condition consequent alternative
      | .keyword .print => printStatement
      | .keyword .return => returnStatement
      | .keyword .while =>
          let _ ← advance
          let _ ← expect .leftParen .openWhile
          let condition ← expression
          let _ ← expect .rightParen .closeWhile
          let body ← statement fuel
          return .while condition body
      | .leftBrace =>
          let _ ← advance
          let body ← blockBody fuel
          return .block body
      | _ => expressionStatement

end

/-- Reads declarations up to the end of the input. -/
def program : Nat → Parse (List Stmt)
  | 0 => return []
  | fuel + 1 => do
      if ← atEnd then return []
      else
        let first ← fuelled declaration
        let others ← program fuel
        return first.toList ++ others

end Parse

end Lox
