import Lox.Scope.Basic
import Lox.Store.Basic

/-!
# What evaluation works on

Evaluation reads the distances of the local references, the frame of the globals and the clock; it
changes the machine, which holds the store, the depth of the calls, the count of the clock readings
and the printed lines.

A step of evaluation either ends, in a result or in a fault, and leaves a machine, or it asks for the
result of a task first: the value of an expression or the execution of a statement. What a step does
is thus a tree of questions, its course, in which no evaluation is hidden. `Course.run` follows a
course with given answers.
-/

namespace Lox

/-- What evaluation reads and cannot change. The clock gives its `n`-th reading in seconds, or the
reason why it has none. -/
structure Setting where
  locals : Locals
  globals : FrameId
  clock : Nat → Except String Float

/-- What evaluation changes. -/
structure Machine where
  store : Store
  depth : Nat
  /-- How often the clock has been read. -/
  readings : Nat
  /-- The printed lines, the latest first. -/
  printed : List String

/-- The machine without the printed lines. -/
def Machine.flush (m : Machine) : Machine :=
  { m with printed := [] }

/-- How a statement ends: it lets the next one follow, or it returns from the function. -/
inductive Flow
  | normal
  | returned (value : Value)

/-- What a step of evaluation can ask for: the value of an expression, or the execution of a
statement, in a frame. -/
inductive Task
  | evaluate (frame : FrameId) (e : Expr)
  | execute (frame : FrameId) (s : Stmt)

/-- What a task gives. -/
abbrev Task.Result : Task → Type
  | .evaluate _ _ => Value
  | .execute _ _ => Flow

/-- How a step of evaluation goes on from a machine. It has ended, or it asks for a task to be done
on a machine and goes on with how that ends. -/
inductive Course (α : Type)
  | ended (result : Except Fault α) (machine : Machine)
  | ask (task : Task) (machine : Machine)
      (next : Except Fault task.Result → Machine → Course α)

/-- How evaluation ends. A run that is out of fuel leaves nothing: that is no outcome of the
program. -/
inductive Outcome (α : Type)
  | ended (result : Except Fault α) (machine : Machine)
  | timeout

/-- Steps of evaluation. -/
def Eval (α : Type) : Type :=
  Setting → Machine → Course α

namespace Course

variable {α β : Type}

/-- Goes on with the result. After a fault there is nothing to go on with. -/
def bind : Course α → (α → Machine → Course β) → Course β
  | .ended (.ok a) m, next => next a m
  | .ended (.error fault) m, _ => .ended (.error fault) m
  | .ask task m answered, next => .ask task m fun result m => (answered result m).bind next

/-- Changes the machine at the end, however the course ends. -/
def atEnd (change : Machine → Machine) : Course α → Course α
  | .ended result m => .ended result (change m)
  | .ask task m next => .ask task m fun result m => (next result m).atEnd change

/-- Follows a course to its end with the given outcomes of the tasks it asks for. -/
def run (answer : (task : Task) → Machine → Outcome task.Result) : Course α → Outcome α
  | .ended result m => .ended result m
  | .ask task m next =>
      match answer task m with
      | .ended result m => (next result m).run answer
      | .timeout => .timeout

end Course

namespace Eval

variable {α β : Type}

/-- The step that does nothing and gives `a`. -/
@[inline] def done (a : α) : Eval α := fun _ m =>
  .ended (.ok a) m

/-- A step and then the step its result asks for. After a fault there is no second step. -/
@[inline] def andThen (first : Eval α) (second : α → Eval β) : Eval β := fun setting m =>
  (first setting m).bind fun a m => second a setting m

instance : Monad Eval where
  pure := done
  bind := andThen

/-- The step that asks for a task. -/
def request (task : Task) : Eval task.Result := fun _ m =>
  .ask task m .ended

/-- The step that fails at the given place. -/
def fail (cause : FaultCause) (place : Span) : Eval α := fun _ m =>
  .ended (.error ⟨cause, place⟩) m

/-- A result that does not depend on the machine, or a fault at the given place. -/
def check (place : Span) : Except FaultCause α → Eval α
  | .ok a => done a
  | .error cause => fail cause place

/-- Reads the store, which may be a fault at the given place. -/
def read (place : Span) (look : Store → Except FaultCause α) : Eval α := fun _ m =>
  match look m.store with
  | .ok a => .ended (.ok a) m
  | .error cause => .ended (.error ⟨cause, place⟩) m

/-- Changes the store. -/
def change (step : Store → Store) : Eval Unit := fun _ m =>
  .ended (.ok ()) { m with store := step m.store }

/-- Changes the store, which may be a fault at the given place. -/
def tryChange (place : Span) (step : Store → Except FaultCause Store) : Eval Unit := fun _ m =>
  match step m.store with
  | .ok store => .ended (.ok ()) { m with store }
  | .error cause => .ended (.error ⟨cause, place⟩) m

/-- Adds something to the store and gives it. -/
def create (step : Store → α × Store) : Eval α := fun _ m =>
  let made := step m.store
  .ended (.ok made.1) { m with store := made.2 }

/-- Prints a line. -/
def print (line : String) : Eval Unit := fun _ m =>
  .ended (.ok ()) { m with printed := line :: m.printed }

/-- The recorded distance of a reference. -/
def distance? (id : Nat) : Eval (Option Nat) := fun setting m =>
  .ended (.ok (setting.locals.distance? id)) m

/-- The frame of the globals. -/
def globals : Eval FrameId := fun setting m =>
  .ended (.ok setting.globals) m

/-- Reads the clock. -/
def readClock (place : Span) : Eval Value := fun setting m =>
  let m' := { m with readings := m.readings + 1 }
  match setting.clock m.readings with
  | .ok seconds => .ended (.ok (.number seconds)) m'
  | .error reason => .ended (.error ⟨.nativeFailure Store.clockName reason, place⟩) m'

/-- A machine one call less deep. -/
def leave (m : Machine) : Machine :=
  { m with depth := m.depth - 1 }

/-- Takes a step one call deeper, unless the calls are too deep already. However the step ends, the
depth is restored. -/
def nested (place : Span) (step : Eval α) : Eval α := fun setting m =>
  if maxDepth ≤ m.depth then .ended (.error ⟨.stackOverflow, place⟩) m
  else (step setting { m with depth := m.depth + 1 }).atEnd leave

end Eval

end Lox
