import Lox.Text.LineTable
import Lox.Text.Position

/-!
# Notices and snippets

A notice is what one mistake has to say: its code, its message, the span it is found at and remarks
on places in the text. In plain style a mistake is one short text. In rich style the notice becomes a
snippet: a head, the place in the file, and the remarks that can be shown.

In a snippet the ends of a span, which count bytes, are taken as indices of characters. In a text
with longer characters a remark can thus fall behind the end of the text, and then it is not shown.
-/

namespace Lox

/-- A remark on a place in the text. -/
structure Remark where
  span : Span
  text : String
  deriving DecidableEq, Repr

/-- What one mistake has to say. -/
structure Notice where
  code : String
  message : String
  span : Span
  remarks : List Remark
  deriving DecidableEq, Repr

/-- A notice as it is shown with the text: the head, the place, if anything can be shown there, and
the remarks. -/
structure Snippet where
  head : String
  place : Option String
  remarks : List String
  deriving DecidableEq, Repr

namespace Span

/-- The span that is drawn for `s`. The end of the input has no width, so it borrows the character
before it. -/
def drawn (s : Span) : Span :=
  if s.isEmpty && 0 < s.start then ⟨s.start - 1, 1⟩ else s

/-- A span can be drawn in a text of `size` characters if it begins, and its last character stands,
at most at the end of the text. -/
def drawable (size : Nat) (s : Span) : Bool :=
  s.start ≤ size && (s.isEmpty || s.stop ≤ size + 1)

end Span

namespace Notice

/-- The remarks that can be drawn in a text of `size` characters. -/
def shown (n : Notice) (size : Nat) : List Remark :=
  n.remarks.filter fun r => r.span.drawn.drawable size

/-- The place of a notice in the file at `path`. -/
def place (n : Notice) (path : String) (text : List Char) : String :=
  match Position.ofIndex? text n.span.drawn.start with
  | some p => path ++ ":" ++ toString p.line ++ ":" ++ toString p.column
  | none => path ++ ":?:?"

/-- The notice as it is shown with the text of the file at `path`. -/
def snippet (n : Notice) (path : String) (text : List Char) : Snippet :=
  let shown := n.shown text.length
  { head := "[" ++ n.code ++ "] Error: " ++ n.message
    place := if shown.isEmpty then none else some (n.place path text)
    remarks := shown.map Remark.text }

end Notice

/-- The characters of a span, or nothing where the span does not lie between characters. -/
def excerpt (text : List Char) (s : Span) : String :=
  String.ofList ((slice? text s).getD [])

/-- A message with its line and the characters it is about. -/
def plainAt (lines : LineTable) (text : List Char) (s : Span) (message : String) : String :=
  "[line " ++ toString (lines.lineOf s) ++ "] Error at '" ++ excerpt text s ++ "': " ++ message

end Lox
