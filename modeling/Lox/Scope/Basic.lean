import Lox.Bindings
import Lox.Scope.Error

/-!
# Scopes

The scopes that enclose a place in a program form a list, the innermost first. The globals are not
among them. A name is declared before it is defined: between the two its initializer is read, which
may not use it.
-/

namespace Lox

/-- A name of a scope: where it is declared, and whether its initializer has been passed. -/
structure Declared where
  span : Span
  defined : Bool
  deriving DecidableEq, Repr

/-- The names of one scope. -/
abbrev Scope := Bindings Declared

/-- The scopes around a place, the innermost first. -/
abbrev Scopes := List Scope

/-- The distance of each reference that leads to a scope, by the number of its expression: how many
scopes lie between the reference and the scope that binds its name. A reference without an entry is
one to a global. -/
abbrev Locals := List (Nat × Nat)

namespace Locals

/-- The distance that is recorded for an expression. -/
def distance? : Locals → Nat → Option Nat
  | [], _ => none
  | (other, distance) :: rest, id => if other = id then some distance else distance? rest id

end Locals

/-- What the innermost function around a place is. -/
inductive RoutineContext
  | none
  | function
  | initializer
  | method
  deriving DecidableEq, Repr

/-- What the innermost class around a place is. -/
inductive ClassContext
  | none
  | root
  | derived
  deriving DecidableEq, Repr

/-- What is around a place, its scopes apart. -/
structure Context where
  routine : RoutineContext
  cls : ClassContext
  deriving DecidableEq, Repr

/-- What resolution finds: the distances of local references, and the violations of the rules, both
in the order of the program. -/
structure Findings where
  locals : Locals
  errors : List ScopeError

namespace Findings

/-- Nothing is found. -/
def none : Findings :=
  ⟨[], []⟩

/-- What is found in one part of a program and then in another. -/
def append (f g : Findings) : Findings :=
  ⟨f.locals ++ g.locals, f.errors ++ g.errors⟩

instance : Append Findings :=
  ⟨append⟩

/-- One violation. -/
def error (cause : ScopeCause) (span : Span) : Findings :=
  ⟨[], [⟨cause, span⟩]⟩

@[simp] theorem locals_append (f g : Findings) : (f ++ g).locals = f.locals ++ g.locals :=
  rfl

@[simp] theorem errors_append (f g : Findings) : (f ++ g).errors = f.errors ++ g.errors :=
  rfl

end Findings

namespace Scopes

/-- How many scopes lie inside the nearest one that binds a name. -/
def distance? : Scopes → String → Option Nat
  | [], _ => none
  | scope :: outer, name =>
      if (scope.value? name).isSome then some 0 else (distance? outer name).map (· + 1)

/-- Declares a name in the innermost scope. Until it is defined, it may not be used. The globals are
no scope, so nothing is declared there. -/
def declare (scopes : Scopes) (name : Ident) : Scopes :=
  match scopes with
  | [] => []
  | scope :: outer => scope.put name.name ⟨name.span, false⟩ :: outer

/-- Defines a name in the innermost scope, whether it has been declared before or not. -/
def define (scopes : Scopes) (name : Ident) : Scopes :=
  match scopes with
  | [] => []
  | scope :: outer => scope.put name.name ⟨name.span, true⟩ :: outer

/-- A violation if the innermost scope binds the name of a new declaration already. -/
def redeclaration (scopes : Scopes) (name : Ident) : Findings :=
  match scopes with
  | [] => .none
  | scope :: _ =>
      match scope.value? name.name with
      | some old => .error (.redeclared ⟨name.name, old.span⟩ name) name.span
      | none => .none

/-- Defines names in order. -/
def defineAll (scopes : Scopes) (names : List Ident) : Scopes :=
  names.foldl define scopes

/-- The violations among new declarations that follow each other. -/
def redeclarations : Scopes → List Ident → Findings
  | _, [] => .none
  | scopes, name :: names => scopes.redeclaration name ++ redeclarations (scopes.define name) names

/-- A scope that binds nothing but a name of the language itself. -/
def single (name : String) (span : Span) : Scope :=
  Bindings.put [] name ⟨span, true⟩

/-- Records the distance of a reference, unless it leads to a global. -/
def locate (scopes : Scopes) (id : Nat) (name : String) : Findings :=
  match scopes.distance? name with
  | some distance => ⟨[(id, distance)], []⟩
  | none => .none

/-- The declaration of a name in the innermost scope, if its initializer has not been passed. -/
def pending? (scopes : Scopes) (name : String) : Option Declared :=
  match scopes with
  | [] => none
  | scope :: _ => (scope.value? name).filter fun d => !d.defined

end Scopes

end Lox
