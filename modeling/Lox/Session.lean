import Lox.Eval.Basic
import Lox.Report.Problem
import Lox.Scope.Resolve
import Lox.Syntax.Program

/-!
# Sessions

A session runs one text after another. The texts count as one, so places in a later text count from
the beginning of the first, and what earlier texts declared stays. A text runs only if it has no
mistake and violates no scope rule; otherwise nothing of it is kept but its characters and the
numbers of its expressions.

Running takes fuel, and without enough of it there is no answer.
-/

namespace Lox

/-- How the run of a text ends. -/
inductive Status
  | completed
  | staticError
  | runtimeError
  deriving DecidableEq, Repr

/-- The exit code a status stands for. -/
def Status.exitCode : Status → Nat
  | .completed => 0
  | .staticError => 65
  | .runtimeError => 70

namespace Eval

/-- Executes the statements of a program in order. Whether one returns makes no difference. -/
def interpret (frame : FrameId) : List Stmt → Eval Unit
  | [] => return ()
  | s :: ss => do
      let _ ← execute frame s
      interpret frame ss

end Eval

/-- What stays from one text to the next. -/
structure Session where
  /-- All texts so far. -/
  text : List Char
  /-- The first number that no expression has. -/
  nextId : Nat
  locals : Locals
  globals : FrameId
  machine : Machine
  hadError : Bool
  hadFault : Bool

/-- What the run of one text shows. -/
structure Answer where
  status : Status
  /-- The printed lines in order. -/
  printed : List String
  problems : List Problem

/-- The printed lines as one text. -/
def Answer.output (a : Answer) : String :=
  String.join (a.printed.map fun line => line ++ "\n")

/-- A text that has been read and resolved: its statements and the distances of their references, or
what keeps it from running. Either way there is a first number that is free afterwards. -/
structure Chunk where
  nextId : Nat
  outcome : Except (List Problem) (List Stmt × Locals)

/-- Reads and resolves a text that begins at byte `offset` and whose expressions are numbered from
`nextId` on. -/
def Chunk.ofText (offset nextId : Nat) (text : List Char) : Chunk :=
  let reading := Reading.ofText offset nextId text
  ⟨reading.nextId,
    match reading.outcome with
    | .error errors => .error (errors.map .grammar)
    | .ok statements =>
        match resolveProgram statements with
        | .error errors => .error (errors.map .scope)
        | .ok locals => .ok (statements, locals)⟩

namespace Session

/-- A session that has run nothing. -/
def empty : Session :=
  let globals := Store.empty.newGlobals
  { text := []
    nextId := 0
    locals := []
    globals := globals.1
    machine := ⟨globals.2, 0, 0, []⟩
    hadError := false
    hadFault := false }

/-- Forgets that a text had mistakes. -/
def resetError (s : Session) : Session :=
  { s with hadError := false }

/-- The session with one more text, whether it runs or not. -/
def append (s : Session) (text : List Char) (nextId : Nat) : Session :=
  { s with text := s.text ++ text, nextId }

/-- The session after a text that does not run. -/
def reject (s : Session) (problems : List Problem) : Session × Answer :=
  ({ s with hadError := true }, ⟨.staticError, [], problems⟩)

/-- What programs can read in a session, with a clock. -/
def setting (s : Session) (clock : Nat → Except String Float) : Setting :=
  ⟨s.locals, s.globals, clock⟩

/-- Runs statements. The printed lines are given and not kept. -/
def interpret? (fuel : Nat) (clock : Nat → Except String Float) (statements : List Stmt)
    (s : Session) : Option (Session × Answer) :=
  let setting := s.setting clock
  match (Eval.interpret s.globals statements setting s.machine).run (perform setting fuel) with
  | .ended (.ok ()) m => some ({ s with machine := m.flush }, ⟨.completed, m.printed.reverse, []⟩)
  | .ended (.error fault) m =>
      some ({ s with machine := m.flush, hadFault := true },
        ⟨.runtimeError, m.printed.reverse, [.fault fault]⟩)
  | .timeout => none

/-- A text as it is read and resolved in a session. -/
def chunk (s : Session) (text : List Char) : Chunk :=
  .ofText (byteLength s.text) s.nextId text

/-- Reads, resolves and runs a text. -/
def run? (fuel : Nat) (clock : Nat → Except String Float) (text : List Char) (s : Session) :
    Option (Session × Answer) :=
  let chunk := s.chunk text
  let s := s.append text chunk.nextId
  match chunk.outcome with
  | .error problems => some (s.reject problems)
  | .ok (statements, locals) =>
      interpret? fuel clock statements { s with locals := s.locals ++ locals }

end Session

end Lox
