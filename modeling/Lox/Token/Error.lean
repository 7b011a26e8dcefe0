import Lox.Text.Span

/-!
# Mistakes in the characters of a program

A text can fail to divide into tokens in two ways: a character that can begin nothing, and a string
that is never closed.
-/

namespace Lox

/-- Why some characters are no token. -/
inductive LexicalCause
  | unrecognized (c : Char)
  | unclosedString
  deriving DecidableEq, Repr

/-- A mistake in the characters of a program and where it stands. -/
structure LexicalError where
  cause : LexicalCause
  span : Span
  deriving DecidableEq, Repr

namespace LexicalError

/-- The code by which the mistake is known. -/
def code (e : LexicalError) : String :=
  match e.cause with
  | .unrecognized _ => "LX001"
  | .unclosedString => "LX002"

/-- What the mistake is. -/
def message (e : LexicalError) : String :=
  match e.cause with
  | .unrecognized _ => "Unexpected character."
  | .unclosedString => "Unterminated string."

/-- Where the mistake is noticed: an unclosed string only when the input runs out. -/
def noticedAt (e : LexicalError) : Nat :=
  match e.cause with
  | .unrecognized _ => e.span.start
  | .unclosedString => e.span.stop

end LexicalError

end Lox
