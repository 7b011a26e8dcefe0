import Lox.Syntax.Error
import Lox.Token.Lexer

/-!
# Reading tokens

The state of a reader: the tokens that are left, the number of the next expression, and the mistakes
recorded so far. A step of reading gives a result, or stops at a mistake; what it has read, numbered
and recorded stays. The end of the input is never passed.
-/

namespace Lox

/-- The state of reading. The tokens that are left do not include the end of the input, which stands
at byte `finish`. -/
structure ParseState where
  rest : List Token
  finish : Nat
  nextId : Nat
  errors : List SyntaxError

/-- Steps of reading. -/
abbrev Parse := EStateM SyntaxError ParseState

namespace ParseState

/-- The token at hand. -/
def current (s : ParseState) : Token :=
  s.rest.headD (Token.endAt s.finish)

/-- Passes one token. -/
def next (s : ParseState) : ParseState :=
  { s with rest := s.rest.tail }

/-- Records a mistake without stopping. -/
def record (e : SyntaxError) (s : ParseState) : ParseState :=
  { s with errors := s.errors ++ [e] }

/-- Drops tokens until the last one dropped is a semicolon or the next one begins a statement. -/
def resume (previous : Token) : List Token → List Token
  | [] => []
  | t :: ts =>
      if previous.kind == .semicolon || t.kind.startsStatement then t :: ts else resume t ts

/-- Where reading goes on after a mistake. At least one token is dropped, if there is any. -/
def synchronize (s : ParseState) : ParseState :=
  match s.rest with
  | [] => s
  | t :: ts => { s with rest := resume t ts }

theorem nextId_synchronize (s : ParseState) : s.synchronize.nextId = s.nextId := by
  unfold synchronize
  split <;> rfl

/-- An amount of fuel that no reading of the rest of the tokens uses up. -/
def fuel (s : ParseState) : Nat :=
  8 * (s.rest.length + 1)

end ParseState

namespace Parse

/-- The token at hand. -/
def peek : Parse Token := fun s =>
  .ok s.current s

/-- Passes the token at hand and gives it. -/
def advance : Parse Token := fun s =>
  .ok s.current s.next

/-- The token at hand is of the given kind. -/
def check (kind : Kind) : Parse Bool := fun s =>
  .ok (s.current.kind == kind) s

/-- No token is left. -/
def atEnd : Parse Bool := fun s =>
  .ok s.rest.isEmpty s

/-- Passes the token at hand if it is of the given kind. -/
def accept (kind : Kind) : Parse Bool := fun s =>
  if s.current.kind == kind then .ok true s.next else .ok false s

/-- Stops at the token at hand. -/
def fail {α : Type} (cause : SyntaxCause) : Parse α := fun s =>
  .error ⟨cause, s.current.span⟩ s

/-- Passes a token of the given kind, or stops. -/
def expect (kind : Kind) (what : Expectation) : Parse Token := fun s =>
  if s.current.kind == kind then .ok s.current s.next
  else .error ⟨.expected what, s.current.span⟩ s

/-- Passes an identifier, or stops. -/
def ident (what : Expectation) : Parse Ident := do
  let token ← expect .identifier what
  pure ⟨token.lexeme, token.span⟩

/-- Records a mistake at the given place and goes on. -/
def record (cause : SyntaxCause) (span : Span) : Parse Unit := fun s =>
  .ok () (s.record ⟨cause, span⟩)

/-- Records a mistake at the token at hand if a list already has as many members as it may. -/
def limit (cause : SyntaxCause) (count : Nat) : Parse Unit := fun s =>
  if maxArguments ≤ count then .ok () (s.record ⟨cause, s.current.span⟩) else .ok () s

/-- The next number, for an expression at the given place. -/
def node (span : Span) : Parse Node := fun s =>
  .ok ⟨s.nextId, span⟩ { s with nextId := s.nextId + 1 }

/-- The next number, for an expression that uses the given name. -/
def reference (name : Ident) : Parse Reference := fun s =>
  .ok ⟨s.nextId, name⟩ { s with nextId := s.nextId + 1 }

/-- Takes a step if a token of the given kind can be passed before it. -/
def behind {α : Type} (kind : Kind) (step : Parse α) : Parse (Option α) := do
  if ← accept kind then some <$> step else return none

/-- Takes a step unless the token at hand is of the given kind. -/
def unlessAt {α : Type} (kind : Kind) (step : Parse α) : Parse (Option α) := do
  if ← check kind then return none else some <$> step

/-- Runs a step. If it stops, its mistake is recorded, reading goes on at the next statement and
there is no result. -/
def recover {α : Type} (step : Parse α) : Parse (Option α) := fun s =>
  match step s with
  | .ok a s' => .ok (some a) s'
  | .error e s' => .ok none (s'.record e).synchronize

/-- Runs a step with fuel that it does not use up. -/
def fuelled {α : Type} (step : Nat → Parse α) : Parse α := fun s =>
  step s.fuel s

end Parse

end Lox
