import Lox.Text.Bytes

/-!
# Tokens

The words and signs of the language. A token knows its kind, where it stands and how it is written.

Main statements: `Keyword.ofText?_text` and `Keyword.text_of_ofText?` say that the reserved words and
their spellings determine each other.
-/

namespace Lox

/-- The reserved words. -/
inductive Keyword
  | and
  | «class»
  | else
  | false
  | for
  | fun
  | if
  | nil
  | or
  | print
  | return
  | super
  | this
  | true
  | var
  | while
  deriving DecidableEq, Repr

namespace Keyword

/-- How a reserved word is written. -/
def text : Keyword → String
  | .and => "and"
  | .class => "class"
  | .else => "else"
  | .false => "false"
  | .for => "for"
  | .fun => "fun"
  | .if => "if"
  | .nil => "nil"
  | .or => "or"
  | .print => "print"
  | .return => "return"
  | .super => "super"
  | .this => "this"
  | .true => "true"
  | .var => "var"
  | .while => "while"

/-- All sixteen reserved words. -/
def all : List Keyword :=
  [.and, .class, .else, .false, .for, .fun, .if, .nil, .or, .print, .return, .super, .this, .true,
    .var, .while]

/-- The reserved word with the given spelling. -/
def ofText? (s : String) : Option Keyword :=
  all.find? fun k => k.text == s

/-- The reserved words that begin a statement. -/
def startsStatement : Keyword → Bool
  | .class | .fun | .var | .for | .if | .while | .print | .return => Bool.true
  | _ => Bool.false

theorem mem_all (k : Keyword) : k ∈ all := by
  cases k <;> decide

theorem ofText?_text (k : Keyword) : ofText? k.text = some k := by
  cases k <;> decide

theorem text_of_ofText? {s : String} {k : Keyword} (h : ofText? s = some k) : k.text = s := by
  simpa using List.find?_some h

end Keyword

/-- The kinds of token. -/
inductive Kind
  | leftParen
  | rightParen
  | leftBrace
  | rightBrace
  | comma
  | dot
  | minus
  | plus
  | semicolon
  | star
  | slash
  | bang
  | bangEqual
  | equal
  | equalEqual
  | less
  | lessEqual
  | greater
  | greaterEqual
  | number
  | string
  | identifier
  | keyword (word : Keyword)
  /-- The end of the input. -/
  | eof
  deriving DecidableEq, Repr

namespace Kind

/-- The kind of a sign of one character. -/
def ofChar? : Char → Option Kind
  | '(' => some .leftParen
  | ')' => some .rightParen
  | '\x7b' => some .leftBrace
  | '\x7d' => some .rightBrace
  | ',' => some .comma
  | '.' => some .dot
  | '-' => some .minus
  | '+' => some .plus
  | ';' => some .semicolon
  | '*' => some .star
  | '/' => some .slash
  | '!' => some .bang
  | '=' => some .equal
  | '<' => some .less
  | '>' => some .greater
  | _ => none

/-- The kind of the sign that an equals sign makes of another sign. -/
def withEqual? : Kind → Option Kind
  | .bang => some .bangEqual
  | .equal => some .equalEqual
  | .less => some .lessEqual
  | .greater => some .greaterEqual
  | _ => none

/-- The kinds that begin a statement. After a mistake, parsing starts again at one of them. -/
def startsStatement : Kind → Bool
  | .keyword word => word.startsStatement
  | _ => false

/-- The kind of a word: a reserved word or an identifier. -/
def ofWord (s : String) : Kind :=
  match Keyword.ofText? s with
  | some word => .keyword word
  | none => .identifier

end Kind

/-- A token: its kind, where it stands and how it is written. -/
structure Token where
  kind : Kind
  span : Span
  lexeme : String
  deriving DecidableEq, Repr

namespace Token

/-- The token that stands at the end of the input, at byte `offset`. -/
def endAt (offset : Nat) : Token :=
  ⟨.eof, ⟨offset, 0⟩, ""⟩

end Token

end Lox
