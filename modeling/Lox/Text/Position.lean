/-!
# Places in a text, for the reader

A place is a line and a column, both counted from one, the column in characters. Unlike the line
table, which knows the newline only, a place counts every line terminator of Unicode, and a carriage
return with the newline after it as one terminator.
-/

namespace Lox

/-- A line and a column, both counted from one. -/
structure Position where
  line : Nat
  column : Nat
  deriving DecidableEq, Repr

namespace Position

/-- The characters that can end a line. -/
def isTerminator (c : Char) : Bool :=
  c == '\n' || c == '\r' || c == '\x0b' || c == '\x0c' || c == '\u0085' || c == '\u2028' ||
    c == '\u2029'

/-- A line ends between `c` and the characters that follow it. The end of the text starts no line,
and neither does a carriage return whose newline is still to come. -/
def breaksLine (c : Char) (next : List Char) : Bool :=
  match next with
  | [] => false
  | d :: _ => isTerminator c && !(c == '\r' && d == '\n')

/-- The place `n` characters after the place `p`, at which the text begins. -/
def advance? : Nat → Position → List Char → Option Position
  | 0, p, _ => some p
  | _ + 1, _, [] => none
  | n + 1, p, c :: cs =>
      advance? n (if breaksLine c cs then ⟨p.line + 1, 1⟩ else ⟨p.line, p.column + 1⟩) cs

/-- The place of the character with index `n`. The end of the text is a place too; beyond it there
is none. -/
def ofIndex? (text : List Char) (n : Nat) : Option Position :=
  advance? n ⟨1, 1⟩ text

end Position

end Lox
