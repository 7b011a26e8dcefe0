/-!
# Spans

A span is a stretch of source text, measured in bytes from the start of the text. Every token,
node and error carries one, so that it can be shown to the reader of the program.

Main statements: `Span.stop_merge` and `Span.start_merge` say that the merge of two spans begins
where the earlier one begins and ends where the later one ends.
-/

namespace Lox

/-- A stretch of source text: where it begins and how long it is, in bytes. -/
structure Span where
  start : Nat
  length : Nat
  deriving DecidableEq, Repr, Inhabited

namespace Span

/-- The first byte after the span. -/
def stop (s : Span) : Nat :=
  s.start + s.length

/-- Only the end of the input has an empty span. -/
def isEmpty (s : Span) : Bool :=
  s.length == 0

/-- The least span that covers both. -/
def merge (s t : Span) : Span :=
  let start := min s.start t.start
  ⟨start, max s.stop t.stop - start⟩

/-- The span moved `offset` bytes further into the text. -/
def shift (offset : Nat) (s : Span) : Span :=
  ⟨s.start + offset, s.length⟩

theorem start_merge (s t : Span) : (s.merge t).start = min s.start t.start :=
  rfl

theorem stop_merge (s t : Span) : (s.merge t).stop = max s.stop t.stop := by
  simp only [merge, stop]
  omega

end Span

end Lox
