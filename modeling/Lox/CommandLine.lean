import Lox.Session

/-!
# The command line

`run PATH` runs a file, and `repl` runs the lines it is given, one after another, in one session.
Both take `--format basic` or `--format pretty`, at most once, and `-v` or `--verbose` may stand
anywhere. After `--` nothing is an option.

This module says what the arguments mean and what a command shows; reading files and printing is left
to the program.
-/

namespace Lox

/-- What can be asked for. -/
inductive Command
  | run (path : String) (style : Style)
  | repl (style : Style)
  deriving DecidableEq, Repr

namespace Command

/-- The style a command reports in. -/
def style : Command → Style
  | .run _ style => style
  | .repl style => style

/-- The style a format stands for. -/
def styleOf? : String → Option Style
  | "basic" => some .plain
  | "pretty" => some .rich
  | _ => none

/-- The arguments of a command: the format, if one is given, and what is no option. -/
structure Arguments where
  style : Option Style
  operands : List String
  deriving DecidableEq, Repr

/-- Adds a format in front of other arguments, which may not give one as well. -/
def withFormat? (value : String) (others : Option Arguments) : Option Arguments := do
  let style ← styleOf? value
  let others ← others
  if others.style.isNone then some { others with style } else none

/-- A group of flags of one letter, each of which raises the verbosity. -/
def isVerbose (argument : List Char) : Bool :=
  match argument with
  | '-' :: 'v' :: flags => flags.all (· == 'v')
  | _ => false

/-- Takes options and operands apart. -/
def arguments? : List String → Option Arguments
  | [] => some ⟨none, []⟩
  | "--" :: operands => some ⟨none, operands⟩
  | "--verbose" :: rest => arguments? rest
  | "--format" :: value :: rest => withFormat? value (arguments? rest)
  | argument :: rest =>
      if isVerbose argument.toList then arguments? rest
      else if "--format=".toList.isPrefixOf argument.toList then
        withFormat? (String.ofList (argument.toList.drop "--format=".length)) (arguments? rest)
      else if argument.toList.head? == some '-' && argument.length != 1 then none
      else (arguments? rest).map fun a => { a with operands := argument :: a.operands }

/-- The command that the arguments ask for, if they ask for one. A path is not empty. -/
def ofArguments? : List String → Option Command
  | [] => none
  | "run" :: rest =>
      match arguments? rest with
      | some ⟨style, [path]⟩ => if path.isEmpty then none else some (.run path (style.getD .plain))
      | _ => none
  | "repl" :: rest =>
      match arguments? rest with
      | some ⟨style, []⟩ => some (.repl (style.getD .plain))
      | _ => none
  | argument :: rest =>
      if argument == "--verbose" || isVerbose argument.toList then ofArguments? rest else none

end Command

/-- The path under which lines are reported that are given one after another. -/
def linesPath : String :=
  "<repl>"

/-- What is written before each line is read. -/
def prompt : String :=
  "> "

/-- The exit code when the arguments ask for nothing. -/
def usageExitCode : Nat :=
  2

/-- The exit code when a file cannot be read. -/
def unreadableExitCode : Nat :=
  1

/-- What a command shows: its exit code, what it prints and what it reports. -/
structure Transcript where
  exitCode : Nat
  output : String
  reports : List Report
  deriving DecidableEq, Repr

namespace Session

/-- Runs a text and shows what it printed and reported. -/
def transcribe? (fuel : Nat) (clock : Nat → Except String Float) (style : Style) (path : String)
    (text : List Char) (s : Session) : Option (Session × Transcript) := do
  let (s, answer) ← s.run? fuel clock text
  let reports := style.reports path s.text answer.problems
  return (s, ⟨answer.status.exitCode, answer.output, reports⟩)

/-- Runs lines in order. Before each one, and at their end, the prompt is written. -/
def transcribeLines? (fuel : Nat) (clock : Nat → Except String Float) (style : Style) :
    List (List Char) → Session → Option Transcript
  | [], _ => some ⟨0, prompt, []⟩
  | line :: lines, s => do
      let (s, first) ← s.transcribe? fuel clock style linesPath line
      let others ← transcribeLines? fuel clock style lines s.resetError
      return ⟨0, prompt ++ first.output ++ others.output, first.reports ++ others.reports⟩

end Session

/-- Divides a text into lines. A line keeps the newline that ends it. -/
def splitLines : List Char → List (List Char)
  | [] => []
  | c :: cs =>
      if c = '\n' then [c] :: splitLines cs
      else
        match splitLines cs with
        | [] => [[c]]
        | line :: lines => (c :: line) :: lines

/-- Carries out a command. `file?` gives the text of a file, and `input` is what is typed. -/
def Command.transcribe? (fuel : Nat) (clock : Nat → Except String Float)
    (file? : String → Option (List Char)) (input : List Char) : Command → Option Transcript
  | .run path style =>
      match file? path with
      | none => some ⟨unreadableExitCode, "", []⟩
      | some text =>
          (Session.empty.transcribe? fuel clock style path text).map Prod.snd
  | .repl style => Session.empty.transcribeLines? fuel clock style (splitLines input)

end Lox
