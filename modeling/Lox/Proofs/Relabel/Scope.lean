import Lox.Proofs.Relabel.Tree
import Lox.Scope.Resolve

/-!
# Scope resolution with other numbers and places

Resolution finds the same in a program after a change of its numbers and places: the same distances
under the new numbers, and the same violations at the new places.

Main statements: `Stmt.resolveAll_relabel`, and `Locals.distance?_relabel`, by which the distances are
found again if different numbers stay different.
-/

namespace Lox

variable {f : Relabel}

/-! ## Distances -/

/-- The same distances under other numbers. -/
def Locals.relabel (f : Relabel) (locals : Locals) : Locals :=
  locals.map fun entry => (f.number entry.1, entry.2)

namespace Locals

theorem relabel_append (xs ys : Locals) :
    relabel f (xs ++ ys) = relabel f xs ++ relabel f ys :=
  List.map_append

theorem distance?_relabel (hf : Function.Injective f.number) (locals : Locals) (id : Nat) :
    distance? (relabel f locals) (f.number id) = distance? locals id := by
  induction locals with
  | nil =>
      rfl
  | cons entry locals ih =>
      rcases entry with ⟨other, distance⟩
      simp only [relabel, List.map_cons, distance?, hf.eq_iff] at ih ⊢
      split
      · rfl
      · exact ih

end Locals

/-! ## Violations and findings -/

def ScopeCause.relabel (f : Relabel) : ScopeCause → ScopeCause
  | .ownInitializer destination reference =>
      .ownInitializer (destination.relabel f) (reference.relabel f)
  | .redeclared old new => .redeclared (old.relabel f) (new.relabel f)
  | .inheritsItself name => .inheritsItself (name.relabel f)
  | other => other

def ScopeError.relabel (f : Relabel) (e : ScopeError) : ScopeError :=
  ⟨e.cause.relabel f, f.place e.span⟩

@[simp] theorem ScopeError.relabel_code (e : ScopeError) : (e.relabel f).code = e.code := by
  rcases e with ⟨cause, span⟩
  cases cause <;> rfl

@[simp] theorem ScopeError.relabel_message (e : ScopeError) : (e.relabel f).message = e.message := by
  rcases e with ⟨cause, span⟩
  cases cause <;> rfl

namespace Findings

/-- What is found, with other numbers and places. -/
def relabel (f : Relabel) (x : Findings) : Findings :=
  ⟨x.locals.relabel f, x.errors.map (ScopeError.relabel f)⟩

theorem relabel_append (x y : Findings) : (x ++ y).relabel f = x.relabel f ++ y.relabel f :=
  congrArg₂ Findings.mk (Locals.relabel_append x.locals y.locals) List.map_append

end Findings

/-! ## Scopes -/

def Declared.relabel (f : Relabel) (d : Declared) : Declared :=
  ⟨f.place d.span, d.defined⟩

namespace Scopes

/-- Scopes whose names are declared at other places. -/
def relabel (f : Relabel) (scopes : Scopes) : Scopes :=
  scopes.map (Bindings.mapValues (Declared.relabel f))

@[simp] theorem relabel_distance? (scopes : Scopes) (name : String) :
    distance? (relabel f scopes) name = distance? scopes name := by
  induction scopes with
  | nil =>
      rfl
  | cons scope outer ih =>
      simp only [relabel, List.map_cons, distance?, Bindings.value?_mapValues,
        Option.isSome_map] at ih ⊢
      rw [ih]

theorem declare_relabel (scopes : Scopes) (name : Ident) :
    declare (relabel f scopes) (name.relabel f) = relabel f (declare scopes name) := by
  cases scopes with
  | nil =>
      rfl
  | cons scope outer =>
      simp only [relabel, List.map_cons, declare, Bindings.mapValues_put]
      rfl

theorem define_relabel (scopes : Scopes) (name : Ident) :
    define (relabel f scopes) (name.relabel f) = relabel f (define scopes name) := by
  cases scopes with
  | nil =>
      rfl
  | cons scope outer =>
      simp only [relabel, List.map_cons, define, Bindings.mapValues_put]
      rfl

theorem defineAll_relabel (scopes : Scopes) (names : List Ident) :
    defineAll (relabel f scopes) (names.map (Ident.relabel f)) =
      relabel f (defineAll scopes names) := by
  induction names generalizing scopes with
  | nil =>
      rfl
  | cons name names ih =>
      simp only [defineAll, List.map_cons, List.foldl_cons, define_relabel] at ih ⊢
      exact ih (define scopes name)

theorem redeclaration_relabel (scopes : Scopes) (name : Ident) :
    redeclaration (relabel f scopes) (name.relabel f) =
      (redeclaration scopes name).relabel f := by
  cases scopes with
  | nil =>
      rfl
  | cons scope outer =>
      simp only [relabel, List.map_cons, redeclaration, Ident.relabel_name,
        Bindings.value?_mapValues]
      cases scope.value? name.name <;> rfl

theorem redeclarations_relabel (scopes : Scopes) (names : List Ident) :
    redeclarations (relabel f scopes) (names.map (Ident.relabel f)) =
      (redeclarations scopes names).relabel f := by
  induction names generalizing scopes with
  | nil =>
      rfl
  | cons name names ih =>
      simp only [redeclarations, List.map_cons, define_relabel, ih, redeclaration_relabel,
        Findings.relabel_append]

theorem locate_relabel (scopes : Scopes) (id : Nat) (name : String) :
    locate (relabel f scopes) (f.number id) name = (locate scopes id name).relabel f := by
  unfold locate
  rw [relabel_distance?]
  cases scopes.distance? name <;> rfl

theorem pending?_relabel (scopes : Scopes) (name : String) :
    pending? (relabel f scopes) name = (pending? scopes name).map (Declared.relabel f) := by
  cases scopes with
  | nil =>
      rfl
  | cons scope outer =>
      simp only [relabel, List.map_cons, pending?, Bindings.value?_mapValues]
      cases scope.value? name with
      | none =>
          rfl
      | some d =>
          simp only [Option.map_some, Option.filter_some, Declared.relabel]
          split <;> rfl

theorem enterClass_relabel (scopes : Scopes) (name : Ident) (parent : Option Reference) :
    enterClass (relabel f scopes) (name.relabel f) (parent.map (Reference.relabel f)) =
      relabel f (enterClass scopes name parent) := by
  cases parent <;> rfl

end Scopes

/-! ## Resolution -/

theorem Reference.resolve_relabel (scopes : Scopes) (r : Reference) :
    (r.relabel f).resolve (scopes.relabel f) = (r.resolve scopes).relabel f := by
  unfold resolve
  rw [Findings.relabel_append, ← Scopes.locate_relabel]
  refine congrArg (· ++ _) ?_
  rw [show (r.relabel f).name.name = r.name.name from rfl, Scopes.pending?_relabel]
  cases scopes.pending? r.name.name <;> rfl

namespace Expr

mutual

theorem resolve_relabel (cls : ClassContext) (scopes : Scopes) : (e : Expr) →
    (e.relabel f).resolve cls (scopes.relabel f) = (e.resolve cls scopes).relabel f
  | .literal _ _ => rfl
  | .group _ inner => resolve_relabel cls scopes inner
  | .unary _ _ operand => resolve_relabel cls scopes operand
  | .binary _ _ left right | .logical _ _ left right => by
      simp only [relabel, resolve, Findings.relabel_append, resolve_relabel cls scopes left,
        resolve_relabel cls scopes right]
  | .var target => target.resolve_relabel scopes
  | .assign target value => by
      simp only [relabel, resolve, Findings.relabel_append, resolve_relabel cls scopes value]
      exact congrArg (_ ++ ·) (scopes.locate_relabel target.id target.name.name)
  | .call _ callee arguments => by
      simp only [relabel, resolve, Findings.relabel_append, resolve_relabel cls scopes callee,
        resolveAll_relabel cls scopes arguments]
  | .get _ object _ => resolve_relabel cls scopes object
  | .set _ object _ value => by
      simp only [relabel, resolve, Findings.relabel_append, resolve_relabel cls scopes value,
        resolve_relabel cls scopes object]
  | .this node => by
      simp only [relabel, resolve]
      cases cls with
      | none => rfl
      | _ => exact scopes.locate_relabel node.id thisName
  | .super node _ => by
      simp only [relabel, resolve, Findings.relabel_append]
      refine congrArg₂ (· ++ ·) ?_ (scopes.locate_relabel node.id superName)
      cases cls <;> rfl

theorem resolveAll_relabel (cls : ClassContext) (scopes : Scopes) : (es : List Expr) →
    resolveAll cls (scopes.relabel f) (relabelAll f es) = (resolveAll cls scopes es).relabel f
  | [] => rfl
  | e :: es => by
      simp only [relabelAll, resolveAll, Findings.relabel_append, resolve_relabel cls scopes e,
        resolveAll_relabel cls scopes es]

end

theorem resolveOption_relabel (cls : ClassContext) (scopes : Scopes) (e? : Option Expr) :
    resolveOption cls (scopes.relabel f) (e?.map (relabel f)) =
      (resolveOption cls scopes e?).relabel f := by
  cases e? with
  | none =>
      rfl
  | some e =>
      exact e.resolve_relabel cls scopes

end Expr

theorem Context.checkReturn_relabel (context : Context) (keyword : Span) (value : Option Expr) :
    context.checkReturn (f.place keyword) (value.map (Expr.relabel f)) =
      (context.checkReturn keyword value).relabel f := by
  rcases context with ⟨routine, cls⟩
  cases routine <;> cases value <;> rfl

theorem resolveParent_relabel (scopes : Scopes) (name : Ident) (parent : Option Reference) :
    resolveParent (scopes.relabel f) (name.relabel f) (parent.map (Reference.relabel f)) =
      (resolveParent scopes name parent).relabel f := by
  cases parent with
  | none =>
      rfl
  | some parent =>
      simp only [resolveParent, Option.map_some, Findings.relabel_append, parent.resolve_relabel]
      refine congrArg (· ++ _) ?_
      unfold checkInheritance
      rw [show (parent.relabel f).name.name = parent.name.name from rfl, Ident.relabel_name]
      split <;> rfl

theorem ClassContext.ofParent_relabel (parent : Option Reference) :
    ofParent (parent.map (Reference.relabel f)) = ofParent parent := by
  cases parent <;> rfl

namespace Stmt

mutual

theorem extend_relabel (scopes : Scopes) : (s : Stmt) →
    extend (scopes.relabel f) (s.relabel f) = (extend scopes s).relabel f
  | .var name _ => scopes.define_relabel name
  | .function decl => by
      simp only [relabel, extend, relabelRoutine_name, scopes.define_relabel]
  | .class name _ _ => scopes.define_relabel name
  | .ifElse _ consequent alternative => by
      simp only [relabel, extend, extend_relabel scopes consequent,
        extendOption_relabel (extend scopes consequent) alternative]
  | .while _ body => extend_relabel scopes body
  | .expression _ | .print _ | .block _ | .return _ _ => rfl

theorem extendOption_relabel (scopes : Scopes) : (s? : Option Stmt) →
    extendOption (scopes.relabel f) (relabelOption f s?) = (extendOption scopes s?).relabel f
  | none => rfl
  | some s => extend_relabel scopes s

end

mutual

theorem resolve_relabel (context : Context) (scopes : Scopes) : (s : Stmt) →
    (s.relabel f).resolve context (scopes.relabel f) = (s.resolve context scopes).relabel f
  | .expression value | .print value => value.resolve_relabel context.cls scopes
  | .var name initial => by
      simp only [relabel, resolve, Findings.relabel_append, scopes.redeclaration_relabel,
        scopes.declare_relabel, Expr.resolveOption_relabel]
  | .block body => resolveAll_relabel context ([] :: scopes) body
  | .ifElse condition consequent alternative => by
      simp only [relabel, resolve, Findings.relabel_append,
        condition.resolve_relabel context.cls scopes, resolve_relabel context scopes consequent,
        extend_relabel scopes consequent,
        resolveOption_relabel context (extend scopes consequent) alternative]
  | .while condition body => by
      simp only [relabel, resolve, Findings.relabel_append,
        condition.resolve_relabel context.cls scopes, resolve_relabel context scopes body]
  | .function decl => by
      simp only [relabel, resolve, Findings.relabel_append, relabelRoutine_name,
        scopes.redeclaration_relabel, scopes.define_relabel,
        resolveRoutine_relabel _ (scopes.define decl.name) decl]
  | .return keyword value => by
      simp only [relabel, resolve, Findings.relabel_append, context.checkReturn_relabel,
        Expr.resolveOption_relabel]
  | .class name parent methods => by
      simp only [relabel, resolve, Findings.relabel_append, scopes.redeclaration_relabel,
        scopes.define_relabel, resolveParent_relabel, Scopes.enterClass_relabel,
        ClassContext.ofParent_relabel,
        resolveMethods_relabel _ ((scopes.define name).enterClass name parent) methods]

theorem resolveAll_relabel (context : Context) (scopes : Scopes) : (ss : List Stmt) →
    resolveAll context (scopes.relabel f) (relabelAll f ss) =
      (resolveAll context scopes ss).relabel f
  | [] => rfl
  | s :: ss => by
      simp only [relabelAll, resolveAll, Findings.relabel_append, resolve_relabel context scopes s,
        extend_relabel scopes s, resolveAll_relabel context (extend scopes s) ss]

theorem resolveOption_relabel (context : Context) (scopes : Scopes) : (s? : Option Stmt) →
    resolveOption context (scopes.relabel f) (relabelOption f s?) =
      (resolveOption context scopes s?).relabel f
  | none => rfl
  | some s => resolve_relabel context scopes s

theorem resolveRoutine_relabel (context : Context) (scopes : Scopes) : (r : Routine Stmt) →
    resolveRoutine context (scopes.relabel f) (relabelRoutine f r) =
      (resolveRoutine context scopes r).relabel f
  | ⟨_, parameters, body⟩ => by
      simp only [relabelRoutine, resolveRoutine, Findings.relabel_append]
      refine congrArg₂ (· ++ ·) (Scopes.redeclarations_relabel ([] :: scopes) parameters) ?_
      rw [← resolveAll_relabel context _ body, ← Scopes.defineAll_relabel]
      rfl

theorem resolveMethods_relabel (context : Context) (scopes : Scopes) :
    (methods : List (Routine Stmt)) →
      resolveMethods context (scopes.relabel f) (relabelMethods f methods) =
        (resolveMethods context scopes methods).relabel f
  | [] => rfl
  | method :: methods => by
      simp only [relabelMethods, resolveMethods, Findings.relabel_append, relabelRoutine_name,
        Ident.relabel_name, resolveRoutine_relabel _ scopes method,
        resolveMethods_relabel context scopes methods]

end

end Stmt

end Lox
