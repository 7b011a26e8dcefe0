import Lox.Syntax.Statement

/-!
# Programs

A program is what a text without mistakes reads as: its statements and the first number that is
free for the expressions of a later text. Reading a text with mistakes uses up numbers as well.
-/

namespace Lox

/-- The statements of a text and the first number that none of its expressions has. -/
structure Program where
  statements : List Stmt
  nextId : Nat

/-- What reading a text comes to: the first number that has not been given to an expression, and the
statements or the mistakes. -/
structure Reading where
  nextId : Nat
  outcome : Except (List SyntaxError) (List Stmt)

namespace ParseState

/-- The state before anything is read. The mistakes in the characters are recorded already. -/
def start (items : List Item) (nextId : Nat) : ParseState :=
  let tokens := items.filterMap Except.toOption
  { rest := tokens.dropLast
    finish := (tokens.getLast?.map fun t => t.span.start).getD 0
    nextId
    errors := items.filterMap fun
      | .ok _ => none
      | .error e => some (.ofLexical e) }

end ParseState

namespace Reading

/-- Reads items as statements whose expressions are numbered from `nextId` on. If there are
mistakes, they are given in the order in which they were found, those in the characters first. -/
def ofItems (items : List Item) (nextId : Nat) : Reading :=
  match Parse.fuelled Parse.program (.start items nextId) with
  | .ok statements s => ⟨s.nextId, if s.errors.isEmpty then .ok statements else .error s.errors⟩
  | .error e s => ⟨s.nextId, .error (s.errors ++ [e])⟩

/-- Reads a text that begins at byte `offset`. -/
def ofText (offset nextId : Nat) (text : List Char) : Reading :=
  ofItems (scan offset text) nextId

end Reading

namespace Program

/-- Reads a text that begins at byte `offset` as a program, or gives its mistakes. -/
def ofText (offset nextId : Nat) (text : List Char) : Except (List SyntaxError) Program :=
  let reading := Reading.ofText offset nextId text
  reading.outcome.map fun statements => ⟨statements, reading.nextId⟩

end Program

end Lox
