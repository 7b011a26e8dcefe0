import Lox.Proofs.Scope.Lexical
import Lox.Proofs.Syntax.Reading

/-!
# Resolution in place

`Stmt.resolve` is told what is around a statement, and forgets it. A resolver that walks once through
a program keeps this in a state: it opens and closes scopes, sets what the innermost function and class
are, and sets it back by hand. `Pass` is that state, and `Pass.statement` the walk.

* `Pass.expression_eq` and `Pass.statement_eq` say what the walk does to the state: it adds the findings
  of `Expr.resolve` and `Stmt.resolve`, and leaves the scopes of `Stmt.extend`.
* `Pass.Restores` says what the state still is when some names have been declared.

Main statement: `Pass.restores_state`.
-/

namespace Lox

theorem Bindings.put_put {β : Type} (b : Bindings β) (name : String) (old new : β) :
    (b.put name old).put name new = b.put name new := by
  induction b with
  | nil =>
      simp [put]
  | cons entry rest ih =>
      rcases entry with ⟨key, value⟩
      by_cases hkey : key = name <;> simp [put, hkey, ih]

/-- A definition replaces the declaration. -/
theorem Scopes.define_declare (scopes : Scopes) (name : Ident) :
    (scopes.declare name).define name = scopes.define name := by
  cases scopes with
  | nil =>
      rfl
  | cons scope outer =>
      exact congrArg (· :: outer) (scope.put_put name.name _ _)

/-! ## The pass -/

/-- The state of a resolver: what is around the place that it has reached, and what it has found. -/
structure Pass extends Context where
  scopes : Scopes
  findings : Findings

namespace Pass

/-- The state at the beginning of a program. -/
def start : Pass :=
  ⟨⟨.none, .none⟩, [], .none⟩

def enterScope (p : Pass) : Pass :=
  { p with scopes := [] :: p.scopes }

def exitScope (p : Pass) : Pass :=
  { p with scopes := p.scopes.tail }

def report (p : Pass) (cause : ScopeCause) (span : Span) : Pass :=
  { p with findings := p.findings ++ .error cause span }

/-- Declares a name in the innermost scope. A name that is there already is reported and replaced. -/
def declare (p : Pass) (name : Ident) : Pass :=
  match p.scopes with
  | [] => p
  | scope :: outer =>
      let entered := { p with scopes := scope.put name.name ⟨name.span, false⟩ :: outer }
      match scope.value? name.name with
      | some old => entered.report (.redeclared ⟨name.name, old.span⟩ name) name.span
      | none => entered

/-- Defines a name in the innermost scope. -/
def define (p : Pass) (name : Ident) : Pass :=
  match p.scopes with
  | [] => p
  | scope :: outer => { p with scopes := scope.put name.name ⟨name.span, true⟩ :: outer }

/-- Records the distance of a reference, if a scope binds its name. -/
def locate (p : Pass) (id : Nat) (name : String) : Pass :=
  match p.scopes.distance? name with
  | some distance => { p with findings := p.findings ++ ⟨[(id, distance)], []⟩ }
  | none => p

/-- Resolves the use of a variable as a value. -/
def read (p : Pass) (r : Reference) : Pass :=
  let checked :=
    match p.scopes.pending? r.name.name with
    | some declared =>
        p.report (.ownInitializer ⟨r.name.name, declared.span⟩ r.name) r.name.span
    | none => p
  checked.locate r.id r.name.name

mutual

/-- Resolves an expression. -/
def expression (p : Pass) : Expr → Pass
  | .literal _ _ => p
  | .group _ inner => p.expression inner
  | .unary _ _ operand => p.expression operand
  | .binary _ _ left right => (p.expression left).expression right
  | .logical _ _ left right => (p.expression left).expression right
  | .var target => p.read target
  | .assign target value => (p.expression value).locate target.id target.name.name
  | .call _ callee arguments => (p.expression callee).expressions arguments
  | .get _ object _ => p.expression object
  | .set _ object _ value => (p.expression value).expression object
  | .this node =>
      match p.cls with
      | .none => p.report .thisOutsideClass node.span
      | _ => p.locate node.id thisName
  | .super node _ =>
      let checked :=
        match p.cls with
        | .none => p.report .superOutsideClass node.span
        | .root => p.report .superWithoutSuperclass node.span
        | .derived => p
      checked.locate node.id superName

/-- Resolves expressions in order. -/
def expressions (p : Pass) : List Expr → Pass
  | [] => p
  | e :: es => (p.expression e).expressions es

end

/-- Resolves an expression that may be missing. -/
def expression? (p : Pass) : Option Expr → Pass
  | none => p
  | some e => p.expression e

/-- Declares and defines names in order. -/
def bindAll (p : Pass) (names : List Ident) : Pass :=
  names.foldl (fun p name => (p.declare name).define name) p

/-- Reports a `return` that may not stand here, or may not have a value. -/
def checkReturn (p : Pass) (keyword : Span) (value : Option Expr) : Pass :=
  match p.routine, value with
  | .none, _ => p.report .returnOutsideFunction keyword
  | .initializer, some _ => p.report .returnFromInitializer keyword
  | _, _ => p

/-- Resolves the superclass that a class names, and opens the scope that binds `super`. -/
def inherit (p : Pass) (name : Ident) : Option Reference → Pass
  | none => p
  | some parent =>
      let checked :=
        if parent.name.name = name.name then p.report (.inheritsItself parent.name) parent.name.span
        else p
      let resolved := { checked with cls := .derived }.read parent
      resolved.enterScope.define ⟨superName, parent.name.span⟩

mutual

/-- Resolves a statement. -/
def statement (p : Pass) : Stmt → Pass
  | .expression value => p.expression value
  | .print value => p.expression value
  | .var name initial => ((p.declare name).expression? initial).define name
  | .block body => (p.enterScope.statements body).exitScope
  | .ifElse condition consequent alternative =>
      ((p.expression condition).statement consequent).statement? alternative
  | .while condition body => (p.expression condition).statement body
  | .function decl => ((p.declare decl.name).define decl.name).function .function decl
  | .return keyword value => (p.checkReturn keyword value).expression? value
  | .class name parent methods =>
      let declared := ({ p with cls := .root }.declare name).define name
      let entered := (declared.inherit name parent).enterScope.define ⟨thisName, name.span⟩
      let left := (entered.methods methods).exitScope
      let restored := if parent.isSome then left.exitScope else left
      { restored with cls := p.cls }

/-- Resolves statements in order. -/
def statements (p : Pass) : List Stmt → Pass
  | [] => p
  | s :: ss => (p.statement s).statements ss

/-- Resolves a statement that may be missing. -/
def statement? (p : Pass) : Option Stmt → Pass
  | none => p
  | some s => p.statement s

/-- Resolves the parameters and the body of a function of some kind. -/
def function (p : Pass) (kind : RoutineContext) : Routine Stmt → Pass
  | ⟨_, parameters, body⟩ =>
      let entered := { p with routine := kind }.enterScope
      let left := ((entered.bindAll parameters).statements body).exitScope
      { left with routine := p.routine }

/-- Resolves the methods of a class in order. -/
def methods (p : Pass) : List (Routine Stmt) → Pass
  | [] => p
  | method :: methods => (p.function (.ofMethod method.name.name) method).methods methods

end

/-- Resolves a program: gives the distances, or the violations if there are any. -/
def resolve (statements : List Stmt) : Except (List ScopeError) Locals :=
  let findings := (start.statements statements).findings
  if findings.errors.isEmpty then .ok findings.locals else .error findings.errors

/-! ## What a step does to the state -/

/-- The state with other scopes, and more that is found. -/
def after (p : Pass) (scopes : Scopes) (f : Findings) : Pass :=
  { p with scopes, findings := p.findings ++ f }

section Steps

variable (p : Pass)

theorem after_after (scopes scopes' : Scopes) (f g : Findings) :
    (p.after scopes f).after scopes' g = p.after scopes' (f ++ g) :=
  congrArg (fun findings => { p with scopes := scopes', findings })
    (Findings.append_assoc p.findings f g)

theorem after_none (scopes : Scopes) : p.after scopes .none = { p with scopes } :=
  congrArg (fun findings => { p with scopes, findings }) (Findings.append_none p.findings)

theorem declare_eq (name : Ident) :
    p.declare name = p.after (p.scopes.declare name) (p.scopes.redeclaration name) := by
  rcases p with ⟨context, scopes, findings⟩
  -- Globals are not declared, so nothing is found outside all scopes.
  cases scopes with
  | nil =>
      exact (after_none ⟨context, [], findings⟩ []).symm
  | cons scope outer =>
      simp only [declare, Scopes.redeclaration]
      cases scope.value? name.name with
      | some old => rfl
      | none => exact (after_none ⟨context, scope :: outer, findings⟩ _).symm

theorem define_eq (name : Ident) : p.define name = p.after (p.scopes.define name) .none := by
  rw [after_none]
  rcases p with ⟨context, scopes, findings⟩
  cases scopes <;> rfl

theorem locate_eq (id : Nat) (name : String) :
    p.locate id name = p.after p.scopes (p.scopes.locate id name) := by
  unfold locate Scopes.locate
  cases p.scopes.distance? name with
  | some distance => rfl
  | none => exact (after_none p p.scopes).symm

theorem read_eq (r : Reference) : p.read r = p.after p.scopes (r.resolve p.scopes) := by
  rw [read, Reference.resolve, locate_eq]
  cases p.scopes.pending? r.name.name with
  | some declared => exact after_after p _ _ _ _
  | none => rfl

theorem checkReturn_eq (keyword : Span) (value : Option Expr) :
    p.checkReturn keyword value = p.after p.scopes (p.toContext.checkReturn keyword value) := by
  unfold checkReturn Context.checkReturn
  cases p.routine <;> cases value <;> first | rfl | exact (after_none p p.scopes).symm

theorem bind_eq (name : Ident) :
    (p.declare name).define name = p.after (p.scopes.define name) (p.scopes.redeclaration name) := by
  rw [declare_eq, define_eq, after_after, Findings.append_none]
  exact congrArg (p.after · _) (Scopes.define_declare p.scopes name)

theorem bindAll_eq (names : List Ident) :
    p.bindAll names = p.after (p.scopes.defineAll names) (p.scopes.redeclarations names) := by
  induction names generalizing p with
  | nil =>
      exact (after_none p p.scopes).symm
  | cons name names ih =>
      show ((p.declare name).define name).bindAll names = _
      rw [bind_eq, ih]
      exact after_after p _ _ _ _

/-- The state in which the methods of a class are resolved. -/
theorem inherit_eq (hcls : p.cls = .root) (name : Ident) (parent : Option Reference) :
    (p.inherit name parent).enterScope.define ⟨thisName, name.span⟩ =
      { p with cls := .ofParent parent }.after (p.scopes.enterClass name parent)
        (resolveParent p.scopes name parent) := by
  rcases p with ⟨⟨routine, cls⟩, scopes, findings⟩
  cases hcls
  cases parent with
  | none =>
      exact (after_none ⟨⟨routine, .root⟩, scopes, findings⟩ _).symm
  | some parent =>
      -- The one check that is made before the scopes change.
      have hinherits : (if parent.name.name = name.name then
            report ⟨⟨routine, .root⟩, scopes, findings⟩ (.inheritsItself parent.name) parent.name.span
          else ⟨⟨routine, .root⟩, scopes, findings⟩) =
          after ⟨⟨routine, .root⟩, scopes, findings⟩ scopes (checkInheritance name parent) := by
        unfold checkInheritance
        split
        · rfl
        · exact (after_none ⟨⟨routine, .root⟩, scopes, findings⟩ scopes).symm
      simp only [inherit, hinherits, read_eq]
      exact after_after ⟨⟨routine, .derived⟩, scopes, findings⟩ _ _ _ _

end Steps

/-! ## Expressions and statements -/

mutual

/-- An expression adds what is found in it, and nothing else changes. -/
theorem expression_eq (p : Pass) :
    (e : Expr) → p.expression e = p.after p.scopes (e.resolve p.cls p.scopes)
  | .literal _ _ => (after_none p p.scopes).symm
  | .group _ inner => expression_eq p inner
  | .unary _ _ operand => expression_eq p operand
  | .binary _ _ left right => by
      rw [expression, expression_eq p left, expression_eq _ right]
      exact after_after p _ _ _ _
  | .logical _ _ left right => by
      rw [expression, expression_eq p left, expression_eq _ right]
      exact after_after p _ _ _ _
  | .var target => read_eq p target
  | .assign target value => by
      rw [expression, expression_eq p value, locate_eq]
      exact after_after p _ _ _ _
  | .call _ callee arguments => by
      rw [expression, expression_eq p callee, expressions_eq _ arguments]
      exact after_after p _ _ _ _
  | .get _ object _ => expression_eq p object
  | .set _ object _ value => by
      rw [expression, expression_eq p value, expression_eq _ object]
      exact after_after p _ _ _ _
  | .this node => by
      simp only [expression, Expr.resolve, locate_eq]
      cases p.cls <;> rfl
  | .super node _ => by
      simp only [expression, Expr.resolve, locate_eq]
      cases p.cls with
      | none => exact after_after p _ _ _ _
      | root => exact after_after p _ _ _ _
      | derived => rfl

theorem expressions_eq (p : Pass) :
    (es : List Expr) → p.expressions es = p.after p.scopes (Expr.resolveAll p.cls p.scopes es)
  | [] => (after_none p p.scopes).symm
  | e :: es => by
      rw [expressions, expression_eq p e, expressions_eq _ es]
      exact after_after p _ _ _ _

end

theorem expression?_eq (p : Pass) (e? : Option Expr) :
    p.expression? e? = p.after p.scopes (Expr.resolveOption p.cls p.scopes e?) := by
  cases e? with
  | none => exact (after_none p p.scopes).symm
  | some e => exact expression_eq p e

theorem exitScope_after (p : Pass) {inner scopes : Scopes} (f : Findings) (h : inner.tail = scopes) :
    (p.after inner f).exitScope = p.after scopes f :=
  congrArg (p.after · f) h

mutual

/-- A statement adds what is found in it, and leaves the scopes for what follows it. -/
theorem statement_eq (p : Pass) : (s : Stmt) →
    p.statement s = p.after (s.extend p.scopes) (s.resolve p.toContext p.scopes)
  | .expression value => expression_eq p value
  | .print value => expression_eq p value
  | .var name initial => by
      rw [statement, declare_eq, expression?_eq, define_eq, after_after, after_after,
        Findings.append_none]
      exact congrArg (p.after · _) (Scopes.define_declare p.scopes name)
  | .block body => by
      rw [statement, statements_eq _ body]
      exact exitScope_after p _ (Stmt.tail_extendAll ([] :: p.scopes) body)
  | .ifElse condition consequent alternative => by
      rw [statement, expression_eq p condition, statement_eq _ consequent,
        statement?_eq _ alternative, after_after, after_after, Stmt.resolve, Findings.append_assoc]
      rfl
  | .while condition body => by
      rw [statement, expression_eq p condition, statement_eq _ body]
      exact after_after p _ _ _ _
  | .function decl => by
      rw [statement, bind_eq, function_eq _ .function decl]
      exact after_after p _ _ _ _
  | .return keyword value => by
      rw [statement, checkReturn_eq, expression?_eq]
      exact after_after p _ _ _ _
  | .class name parent methods => by
      -- One scope is left, or two, and they are those that were opened.
      rw [statement, bind_eq, inherit_eq _ rfl, methods_eq _ methods, after_after, Stmt.resolve,
        Findings.append_assoc]
      cases parent with
      | none => exact after_after p (p.scopes.define name) _ _ _
      | some parent => exact after_after p (p.scopes.define name) _ _ _

theorem statements_eq (p : Pass) : (ss : List Stmt) →
    p.statements ss = p.after (Stmt.extendAll p.scopes ss) (Stmt.resolveAll p.toContext p.scopes ss)
  | [] => (after_none p p.scopes).symm
  | s :: ss => by
      rw [statements, statement_eq p s, statements_eq _ ss]
      exact after_after p _ _ _ _

theorem statement?_eq (p : Pass) : (s? : Option Stmt) →
    p.statement? s? =
      p.after (Stmt.extendOption p.scopes s?) (Stmt.resolveOption p.toContext p.scopes s?)
  | none => (after_none p p.scopes).symm
  | some s => statement_eq p s

/-- A function leaves nothing behind but what is found in it. -/
theorem function_eq (p : Pass) (kind : RoutineContext) : (r : Routine Stmt) →
    p.function kind r =
      p.after p.scopes (Stmt.resolveRoutine { p.toContext with routine := kind } p.scopes r)
  | ⟨name, parameters, body⟩ => by
      -- The parameters and the declarations of the body all stand in the scope that is closed.
      have hleft : (Stmt.extendAll (Scopes.defineAll ([] :: p.scopes) parameters) body).tail =
          p.scopes :=
        (Stmt.tail_extendAll _ body).trans (Scopes.tail_defineAll _ parameters)
      rw [function, bindAll_eq, statements_eq _ body, after_after]
      exact congrArg (p.after · _) hleft

theorem methods_eq (p : Pass) : (methods : List (Routine Stmt)) →
    p.methods methods = p.after p.scopes (Stmt.resolveMethods p.toContext p.scopes methods)
  | [] => (after_none p p.scopes).symm
  | method :: methods => by
      rw [Pass.methods, function_eq p _ method, methods_eq _ methods]
      exact after_after p _ _ _ _

end

/-! ## What is restored -/

/-- What the innermost scope says of a name. -/
def innermost? (p : Pass) (name : String) : Option Declared :=
  p.scopes.head?.bind fun scope => scope.value? name

/-- Between two states names were declared in the innermost scope, and everything else is as it was,
apart from what was found. -/
structure Restores (p q : Pass) (declared : List Ident) : Prop where
  routine : q.routine = p.routine
  cls : q.cls = p.cls
  depth : q.scopes.length = p.scopes.length
  outer : q.scopes.tail = p.scopes.tail
  innermost : ∀ name ∉ declared.map Ident.name, q.innermost? name = p.innermost? name

theorem innermost?_define (p : Pass) (f : Findings) {name : Ident} {other : String}
    (h : other ≠ name.name) :
    (p.after (p.scopes.define name) f).innermost? other = p.innermost? other := by
  rcases p with ⟨context, scopes, findings⟩
  cases scopes with
  | nil => rfl
  | cons scope outer => exact Bindings.value?_put_of_ne scope _ h.symm

theorem length_define (scopes : Scopes) (name : Ident) :
    (scopes.define name).length = scopes.length := by
  cases scopes <;> rfl

theorem Restores.refl (p : Pass) (f : Findings) : p.Restores (p.after p.scopes f) [] :=
  ⟨rfl, rfl, rfl, rfl, fun _ _ => rfl⟩

theorem Restores.trans {p q r : Pass} {names others : List Ident} (hpq : p.Restores q names)
    (hqr : q.Restores r others) : p.Restores r (names ++ others) := by
  refine ⟨hqr.routine.trans hpq.routine, hqr.cls.trans hpq.cls, hqr.depth.trans hpq.depth,
    hqr.outer.trans hpq.outer, ?_⟩
  intro name hname
  rw [List.map_append, List.mem_append, not_or] at hname
  exact (hqr.innermost name hname.2).trans (hpq.innermost name hname.1)

/-- Definitions change the innermost scope at their names only. -/
theorem Restores.defineAll (p : Pass) (names : List Ident) (f : Findings) :
    p.Restores (p.after (p.scopes.defineAll names) f) names := by
  induction names generalizing p f with
  | nil =>
      exact .refl p f
  | cons name names ih =>
      -- The state varies in the induction: the rest is defined after the first name.
      have hfirst : p.Restores (p.after (p.scopes.define name) .none) [name] := by
        refine ⟨rfl, rfl, length_define p.scopes name, Scopes.tail_define p.scopes name, ?_⟩
        intro other hother
        exact innermost?_define p .none fun heq => hother (by simp [heq])
      have hrest := hfirst.trans (ih (p.after (p.scopes.define name) .none) f)
      rw [after_after] at hrest
      exact hrest

end Pass

/-! ## Declarations -/

mutual

/-- The scopes for what follows a statement are those around it, with its declarations. -/
theorem Stmt.extend_eq_defineAll (scopes : Scopes) :
    (s : Stmt) → s.extend scopes = scopes.defineAll s.declarations
  | .expression _ => rfl
  | .print _ => rfl
  | .var _ _ => rfl
  | .block _ => rfl
  | .ifElse _ consequent alternative => by
      rw [extend, extend_eq_defineAll scopes consequent, extendOption_eq_defineAll _ alternative]
      exact List.foldl_append.symm
  | .while _ body => extend_eq_defineAll scopes body
  | .function _ => rfl
  | .return _ _ => rfl
  | .class _ _ _ => rfl

theorem Stmt.extendOption_eq_defineAll (scopes : Scopes) :
    (s? : Option Stmt) → extendOption scopes s? = scopes.defineAll (declarationsOption s?)
  | none => rfl
  | some s => extend_eq_defineAll scopes s

end

/-! ## Programs -/

namespace Pass

/-- The violations that are reported for a program. -/
def violations (ss : List Stmt) : List ScopeError :=
  match resolve ss with
  | .ok _ => []
  | .error errors => errors

theorem resolve_eq (ss : List Stmt) : resolve ss = resolveProgram ss := by
  unfold resolve resolveProgram
  rw [statements_eq]
  rfl

theorem violations_eq (ss : List Stmt) : violations ss = (Stmt.programFindings ss).errors := by
  unfold violations
  cases hresolve : resolve ss with
  | ok locals =>
      rw [resolve_eq] at hresolve
      exact (resolveProgram_ok hresolve).1.symm
  | error errors =>
      rw [resolve_eq] at hresolve
      exact (resolveProgram_error hresolve).1

theorem resolve_of_errors_nil {ss : List Stmt} (h : (Stmt.programFindings ss).errors = []) :
    resolve ss = .ok (Stmt.programFindings ss).locals := by
  rw [resolve_eq]
  exact if_pos (List.isEmpty_iff.mpr h)

/-- What is found in statements is what is found in each of them alone. -/
theorem errors_flatMap (ss : List Stmt) : (Stmt.programFindings ss).errors =
    ss.flatMap fun s => (Stmt.programFindings [s]).errors := by
  induction ss with
  | nil =>
      rfl
  | cons s ss ih =>
      rw [List.flatMap_cons, ← ih, ← Findings.errors_append, ← Stmt.programFindings_append]
      rfl

theorem locals_flatMap (ss : List Stmt) : (Stmt.programFindings ss).locals =
    ss.flatMap fun s => (Stmt.programFindings [s]).locals := by
  induction ss with
  | nil =>
      rfl
  | cons s ss ih =>
      rw [List.flatMap_cons, ← ih, ← Findings.locals_append, ← Stmt.programFindings_append]
      rfl

/-- The pass restores its state around every construct. After an expression or a function everything
but the findings is as before. After a statement the kinds of the innermost function and class, the
number of scopes and all scopes but the innermost are as before, and so is the innermost scope but for
the names that the statement declares in it. So the statements of a program are resolved each as if it
were alone: their violations follow each other, and if there are none, so do the distances, of which
each is recorded once where the uses have numbers of their own, as they have in every text. -/
theorem restores_state (p : Pass) (e : Expr) (s : Stmt) (kind : RoutineContext) (r : FunctionDecl)
    (ss : List Stmt) :
    p.Restores (p.expression e) [] ∧ p.Restores (p.statement s) s.declarations ∧
      p.Restores (p.function kind r) [] ∧ resolve ss = resolveProgram ss ∧
      violations ss = ss.flatMap (fun s => violations [s]) ∧
      (∀ locals, resolve ss = .ok locals →
        ∃ maps, List.Forall₂ (fun s map => resolve [s] = .ok map) ss maps ∧ locals = maps.flatten ∧
          (((Stmt.usesAll ss).map fun u => u.node.id).Nodup → (locals.map Prod.fst).Nodup)) ∧
      ∀ offset low text, (Reading.ofText offset low text).outcome = .ok ss →
        ((Stmt.usesAll ss).map fun u => u.node.id).Nodup := by
  refine ⟨?_, ?_, ?_, resolve_eq ss, ?_, ?_, ?_⟩
  · rw [expression_eq]
    exact .refl p _
  · rw [statement_eq, Stmt.extend_eq_defineAll]
    exact .defineAll p _ _
  · rw [function_eq]
    exact .refl p _
  · simp only [violations_eq]
    exact errors_flatMap ss
  · -- Each statement is resolved alone. Its findings are a part of those of the program, so there
    -- are no violations in it either.
    intro locals hlocals
    rw [resolve_eq] at hlocals
    rcases resolveProgram_ok hlocals with ⟨herrors, rfl⟩
    refine ⟨ss.map fun s => (Stmt.programFindings [s]).locals, ?_, ?_, ?_⟩
    · rw [List.forall₂_map_right_iff, List.forall₂_same]
      intro s hs
      rw [errors_flatMap, List.flatMap_eq_nil_iff] at herrors
      exact resolve_of_errors_nil (herrors s hs)
    · rw [locals_flatMap, List.flatMap_def]
    · intro hnodup
      -- The recorded numbers are among those of the uses, in the order of the walk.
      have hused : ((Walk.used (Stmt.walkAll ss)).map fun u => u.node.id).Nodup :=
        ((Stmt.perm_usesAll ss).map _).nodup_iff.mpr hnodup
      rw [Stmt.programFindings_eq] at herrors ⊢
      exact (Trail.sublist_numbers herrors).nodup hused
  · intro offset low text hread
    exact Stmt.nodup_numbers_of_readAll (Reading.readAll_of_ofText hread)

/-- A block that declares a variable and reads it, after one with a class. -/
def readingBlock : List Stmt :=
  inheritingBlock ++
    [.block [.var ⟨"a", ⟨43, 1⟩⟩ none, .print (.var ⟨3, ⟨"a", ⟨52, 1⟩⟩⟩)]]

theorem restores_state_readingBlock :
    resolve readingBlock = .ok [(1, 2), (2, 1), (3, 0)] ∧
      violations readingBlock = [] ∧
        ∃ maps, List.Forall₂ (fun s map => resolve [s] = .ok map) readingBlock maps ∧
          maps.flatten = [(1, 2), (2, 1), (3, 0)] ∧ (maps.flatten.map Prod.fst).Nodup := by
  have hresolve : resolve readingBlock = .ok [(1, 2), (2, 1), (3, 0)] := rfl
  have h := restores_state start (.literal ⟨0, ⟨0, 3⟩⟩ .nil) (.block []) .function
    ⟨⟨"f", ⟨4, 1⟩⟩, [], []⟩ readingBlock
  rcases h.2.2.2.2.2.1 _ hresolve with ⟨maps, hmaps, hflatten, hnodup⟩
  refine ⟨hresolve, rfl, maps, hmaps, hflatten.symm, ?_⟩
  rw [← hflatten]
  exact hnodup (by decide)

end Pass

end Lox
