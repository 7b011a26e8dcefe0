import Lox.Scope.Basic

/-!
# Scope resolution

Resolution walks through a program in the order of its text and finds, for every reference to a
local name, the distance of the scope that binds it. A name is visible from its own declaration on.
Parameters and the body of a function share one scope. The methods of a class stand in a scope that
binds `this`, and those of a subclass in one more around it that binds `super`.

Violations of the scope rules are collected and do not stop the walk. Expressions declare nothing.
What a statement declares is said by `Stmt.extend`, what is found in it by `Stmt.resolve`.
-/

namespace Lox

namespace Reference

/-- Resolves the use of a variable as a value. -/
def resolve (scopes : Scopes) (r : Reference) : Findings :=
  let premature :=
    match scopes.pending? r.name.name with
    | some declared =>
        .error (.ownInitializer ⟨r.name.name, declared.span⟩ r.name) r.name.span
    | none => .none
  premature ++ scopes.locate r.id r.name.name

end Reference

namespace Expr

mutual

/-- Resolves an expression inside a class, or outside every class. -/
def resolve (cls : ClassContext) (scopes : Scopes) : Expr → Findings
  | .literal _ _ => .none
  | .group _ inner => resolve cls scopes inner
  | .unary _ _ operand => resolve cls scopes operand
  | .binary _ _ left right => resolve cls scopes left ++ resolve cls scopes right
  | .logical _ _ left right => resolve cls scopes left ++ resolve cls scopes right
  | .var target => target.resolve scopes
  | .assign target value =>
      resolve cls scopes value ++ scopes.locate target.id target.name.name
  | .call _ callee arguments => resolve cls scopes callee ++ resolveAll cls scopes arguments
  | .get _ object _ => resolve cls scopes object
  | .set _ object _ value => resolve cls scopes value ++ resolve cls scopes object
  | .this node =>
      match cls with
      | .none => .error .thisOutsideClass node.span
      | _ => scopes.locate node.id thisName
  | .super node _ =>
      let misplaced : Findings :=
        match cls with
        | .none => .error .superOutsideClass node.span
        | .root => .error .superWithoutSuperclass node.span
        | .derived => .none
      misplaced ++ scopes.locate node.id superName

/-- Resolves expressions in order. -/
def resolveAll (cls : ClassContext) (scopes : Scopes) : List Expr → Findings
  | [] => .none
  | e :: es => resolve cls scopes e ++ resolveAll cls scopes es

end

/-- Resolves an expression that may be missing. -/
def resolveOption (cls : ClassContext) (scopes : Scopes) : Option Expr → Findings
  | none => .none
  | some e => resolve cls scopes e

end Expr

/-- A violation if a `return` may not stand here, or may not have a value. -/
def Context.checkReturn (context : Context) (keyword : Span) (value : Option Expr) : Findings :=
  match context.routine, value with
  | .none, _ => .error .returnOutsideFunction keyword
  | .initializer, some _ => .error .returnFromInitializer keyword
  | _, _ => .none

/-- What a method is, by its name. -/
def RoutineContext.ofMethod (name : String) : RoutineContext :=
  if name = initializerName then .initializer else .method

/-- A violation if a class names itself as the class it inherits from. -/
def checkInheritance (name : Ident) (parent : Reference) : Findings :=
  if parent.name.name = name.name then .error (.inheritsItself parent.name) parent.name.span
  else .none

/-- Resolves the superclass a class names, in the scopes in which the class is declared. -/
def resolveParent (scopes : Scopes) (name : Ident) : Option Reference → Findings
  | none => .none
  | some parent => checkInheritance name parent ++ parent.resolve scopes

/-- The scopes around the methods of a class. -/
def Scopes.enterClass (scopes : Scopes) (name : Ident) (parent : Option Reference) : Scopes :=
  let outer :=
    match parent with
    | some parent => Scopes.single superName parent.name.span :: scopes
    | none => scopes
  Scopes.single thisName name.span :: outer

/-- What a class is, by the superclass it names. -/
def ClassContext.ofParent : Option Reference → ClassContext
  | .some _ => .derived
  | .none => .root

namespace Stmt

mutual

/-- The scopes for what follows a statement. Only a declaration changes them, and only the innermost
one. -/
def extend (scopes : Scopes) : Stmt → Scopes
  | .var name _ => scopes.define name
  | .function decl => scopes.define decl.name
  | .class name _ _ => scopes.define name
  | .ifElse _ consequent alternative => extendOption (extend scopes consequent) alternative
  | .while _ body => extend scopes body
  | _ => scopes

/-- The scopes for what follows a statement that may be missing. -/
def extendOption (scopes : Scopes) : Option Stmt → Scopes
  | none => scopes
  | some s => extend scopes s

end

mutual

/-- Resolves a statement. -/
def resolve (context : Context) (scopes : Scopes) : Stmt → Findings
  | .expression value => value.resolve context.cls scopes
  | .print value => value.resolve context.cls scopes
  | .var name initial =>
      scopes.redeclaration name ++ Expr.resolveOption context.cls (scopes.declare name) initial
  | .block body => resolveAll context ([] :: scopes) body
  | .ifElse condition consequent alternative =>
      condition.resolve context.cls scopes ++ resolve context scopes consequent ++
        resolveOption context (extend scopes consequent) alternative
  | .while condition body =>
      condition.resolve context.cls scopes ++ resolve context scopes body
  | .function decl =>
      scopes.redeclaration decl.name ++
        resolveRoutine { context with routine := .function } (scopes.define decl.name) decl
  | .return keyword value =>
      context.checkReturn keyword value ++ Expr.resolveOption context.cls scopes value
  | .class name parent methods =>
      scopes.redeclaration name ++ resolveParent (scopes.define name) name parent ++
        resolveMethods { context with cls := .ofParent parent }
          ((scopes.define name).enterClass name parent) methods

/-- Resolves statements in order. -/
def resolveAll (context : Context) (scopes : Scopes) : List Stmt → Findings
  | [] => .none
  | s :: ss => resolve context scopes s ++ resolveAll context (extend scopes s) ss

/-- Resolves a statement that may be missing. -/
def resolveOption (context : Context) (scopes : Scopes) : Option Stmt → Findings
  | none => .none
  | some s => resolve context scopes s

/-- Resolves the parameters and the body of a function, which share a scope of their own. -/
def resolveRoutine (context : Context) (scopes : Scopes) : Routine Stmt → Findings
  | ⟨_, parameters, body⟩ =>
      Scopes.redeclarations ([] :: scopes) parameters ++
        resolveAll context (Scopes.defineAll ([] :: scopes) parameters) body

/-- Resolves the methods of a class in order. -/
def resolveMethods (context : Context) (scopes : Scopes) : List (Routine Stmt) → Findings
  | [] => .none
  | method :: methods =>
      resolveRoutine { context with routine := .ofMethod method.name.name } scopes method ++
        resolveMethods context scopes methods

end

end Stmt

/-- Resolves the statements of a program. Gives the distances, or the violations if there are any. -/
def resolveProgram (statements : List Stmt) : Except (List ScopeError) Locals :=
  let findings := Stmt.resolveAll ⟨.none, .none⟩ [] statements
  if findings.errors.isEmpty then .ok findings.locals else .error findings.errors

end Lox
