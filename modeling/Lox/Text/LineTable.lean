import Lox.Text.Bytes

/-!
# Line numbers of byte positions

A line table lists, in order, the byte ranges of the lines of a text, each with the newline that
ends it. The line of a position is found by bisection. Only the newline character ends a line here.

A text that does not end in a newline has a last range that reaches one byte past its end, so the
end of such a text still lies on its last line. A position outside every range is on the line that
follows all of them.
-/

namespace Lox

/-- The byte ranges of the lines of a text, in order. -/
structure LineTable where
  ranges : Array Span
  deriving DecidableEq, Repr

namespace LineTable

/-- The ranges of the lines of what is left of a text. The line at hand began at byte `first` and
the rest begins at byte `offset`; `closed` says that a newline has just been passed. -/
def rangesFrom (first offset : Nat) (closed : Bool) : List Char → List Span
  | [] => if closed then [] else [⟨first, offset + 1 - first⟩]
  | c :: cs =>
      let next := offset + c.utf8Size
      if c = '\n' then ⟨first, next - first⟩ :: rangesFrom next next true cs
      else rangesFrom first next false cs

/-- The line table of a text. -/
def ofText (text : List Char) : LineTable :=
  ⟨(rangesFrom 0 0 false text).toArray⟩

/-- The index in `[low, high)` of the range that holds `offset`, found by halving the interval. -/
def bisect? (ranges : Array Span) (offset low high : Nat) : Option Nat :=
  if low < high then
    let middle := (low + high) / 2
    match ranges[middle]? with
    | none => none
    | some range =>
        if offset < range.start then bisect? ranges offset low middle
        else if range.stop ≤ offset then bisect? ranges offset (middle + 1) high
        else some middle
  else none
termination_by high - low
decreasing_by all_goals omega

/-- The line that follows every line of the table. -/
def lastLine (t : LineTable) : Nat :=
  t.ranges.size + 1

/-- The line, counted from one, of a byte position. -/
def lineAt (t : LineTable) (offset : Nat) : Nat :=
  match bisect? t.ranges offset 0 t.ranges.size with
  | some i => i + 1
  | none => t.lastLine

/-- The line on which a span begins. -/
def lineOf (t : LineTable) (s : Span) : Nat :=
  t.lineAt s.start

end LineTable

end Lox
