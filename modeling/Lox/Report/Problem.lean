import Lox.Report.Fault
import Lox.Report.Scope
import Lox.Report.Syntax

/-!
# Problems and their reports

A problem is anything a run of a text can report: a mistake in the characters or the grammar, a
violation of a scope rule, or a fault. It is reported in one of two styles.
-/

namespace Lox

/-- How problems are reported: by a short text, or by a snippet. -/
inductive Style
  | plain
  | rich
  deriving DecidableEq, Repr

/-- What a run of a text can report. -/
inductive Problem
  | grammar (e : SyntaxError)
  | scope (e : ScopeError)
  | fault (f : Fault)

/-- One problem as it is reported. -/
inductive Report
  | plain (text : String)
  | rich (snippet : Snippet)
  deriving DecidableEq, Repr

namespace Problem

/-- What a problem has to say. -/
def notice : Problem → Notice
  | .grammar e => e.notice
  | .scope e => e.notice
  | .fault f => f.notice

/-- A problem in plain style. -/
def plain (lines : LineTable) (text : List Char) : Problem → String
  | .grammar e => e.plain lines text
  | .scope e => e.plain lines text
  | .fault f => f.plain lines

end Problem

/-- The reports of problems that were found in the text of the file at `path`, in order. -/
def Style.reports (style : Style) (path : String) (text : List Char) (problems : List Problem) :
    List Report :=
  match style with
  | .plain =>
      let lines := LineTable.ofText text
      problems.map fun p => .plain (p.plain lines text)
  | .rich => problems.map fun p => .rich (p.notice.snippet path text)

end Lox
