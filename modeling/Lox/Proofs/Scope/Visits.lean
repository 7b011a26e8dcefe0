import Lox.Proofs.Scope.Settled

/-!
# The visits of scope resolution

Resolution comes to every expression of a program once, with the scopes that are around it then. Its
visits are listed here apart from what it finds: the expression, the scopes, and the innermost class
declaration around.

* `Covers` says that findings are those of a list of visits; `Stmt.covers_resolveAll` proves it of
  the findings of a program.
* `Stmt.map_expr_visitsAll` says that the visits are those of all expressions of the program.
* `Stmt.settled_extend` says that names stay defined behind a statement.
-/

namespace Lox

/-- A class declaration. -/
structure ClassDecl where
  name : Ident
  parent : Option Reference
  methods : List FunctionDecl

/-- The statement that declares a class. -/
def ClassDecl.statement (d : ClassDecl) : Stmt :=
  .class d.name d.parent d.methods

/-- What the innermost class around a place is, by its declaration. -/
def ClassContext.ofOwner : Option ClassDecl → ClassContext
  | .some d => .ofParent d.parent
  | .none => .none

/-- A visit of resolution to an expression. The owner is the innermost class declaration whose
methods the expression stands in. -/
structure Visit where
  expr : Expr
  owner : Option ClassDecl
  scopes : Scopes

namespace Visit

/-- What is found at a visit itself. -/
def findings (v : Visit) : Findings :=
  match v.expr with
  | .var target => target.resolve v.scopes
  | .assign target _ => v.scopes.locate target.id target.name.name
  | .this node =>
      match ClassContext.ofOwner v.owner with
      | .none => .error .thisOutsideClass node.span
      | _ => v.scopes.locate node.id thisName
  | .super node _ =>
      let misplaced : Findings :=
        match ClassContext.ofOwner v.owner with
        | .none => .error .superOutsideClass node.span
        | .root => .error .superWithoutSuperclass node.span
        | .derived => .none
      misplaced ++ v.scopes.locate node.id superName
  | _ => .none

/-- The name that is looked for at a visit. -/
def name? (v : Visit) : Option String :=
  match v.expr with
  | .var target | .assign target _ => some target.name.name
  | .this _ => some thisName
  | .super _ _ => some superName
  | _ => none

/-- The distance of the scope that binds the name. -/
def distance? (v : Visit) : Option Nat :=
  v.name?.bind v.scopes.distance?

end Visit

/-- The distances are those found at the visits, and every violation found at a visit is among the
violations. -/
structure Covers (f : Findings) (vs : List Visit) : Prop where
  locals : f.locals = vs.flatMap fun v => v.findings.locals
  errors : ∀ v ∈ vs, v.findings.errors ⊆ f.errors

namespace Covers

variable {f g : Findings} {vs ws : List Visit}

theorem none : Covers .none [] :=
  ⟨rfl, fun _ hv => nomatch hv⟩

theorem single (v : Visit) : Covers v.findings [v] := by
  refine ⟨by simp, ?_⟩
  intro w hw
  rw [List.mem_singleton] at hw
  rw [hw]
  exact List.Subset.refl _

theorem append (hf : Covers f vs) (hg : Covers g ws) : Covers (f ++ g) (vs ++ ws) := by
  refine ⟨by simp [hf.locals, hg.locals], ?_⟩
  intro v hv e he
  rw [Findings.errors_append]
  rcases List.mem_append.mp hv with hv | hv
  · exact List.mem_append_left _ (hf.errors v hv he)
  · exact List.mem_append_right _ (hg.errors v hv he)

/-- A visit that finds nothing may follow. -/
theorem silent (hf : Covers f vs) (v : Visit) (hv : v.findings = .none) : Covers f (vs ++ [v]) := by
  have h := hf.append (single v)
  -- Nothing is added to what was found, but the visit is listed.
  rw [hv] at h
  refine ⟨by simpa [Findings.none] using h.locals, ?_⟩
  simpa [Findings.none] using h.errors

/-- Violations that are found at no expression may come before. -/
theorem after_errors (hf : f.locals = []) (hg : Covers g ws) : Covers (f ++ g) ws := by
  refine ⟨by simp [hf, hg.locals], ?_⟩
  intro v hv e he
  rw [Findings.errors_append]
  exact List.mem_append_right _ (hg.errors v hv he)

end Covers

/-! ## Expressions -/

namespace Expr

/-- The visits to an expression. -/
def visits (owner : Option ClassDecl) (scopes : Scopes) (e : Expr) : List Visit :=
  e.parts.map fun part => ⟨part, owner, scopes⟩

/-- The visits to expressions. -/
def visitsAll (owner : Option ClassDecl) (scopes : Scopes) (es : List Expr) : List Visit :=
  (partsAll es).map fun part => ⟨part, owner, scopes⟩

/-- The visits to an expression that may be missing. -/
def visitsOption (owner : Option ClassDecl) (scopes : Scopes) : Option Expr → List Visit
  | none => []
  | some e => e.visits owner scopes

variable {owner : Option ClassDecl} {scopes : Scopes}

mutual

theorem covers_resolve :
    (e : Expr) → Covers (e.resolve (.ofOwner owner) scopes) (e.visits owner scopes)
  | .literal node value => .single ⟨.literal node value, owner, scopes⟩
  | .group node inner => by
      have h := covers_resolve inner
      simpa [visits, parts, resolve] using h.silent ⟨.group node inner, owner, scopes⟩ rfl
  | .unary node op operand => by
      have h := covers_resolve operand
      simpa [visits, parts, resolve] using h.silent ⟨.unary node op operand, owner, scopes⟩ rfl
  | .binary node op left right => by
      have h := (covers_resolve left).append (covers_resolve right)
      simpa [visits, parts, resolve] using h.silent ⟨.binary node op left right, owner, scopes⟩ rfl
  | .logical node op left right => by
      have h := (covers_resolve left).append (covers_resolve right)
      simpa [visits, parts, resolve] using h.silent ⟨.logical node op left right, owner, scopes⟩ rfl
  | .var target => .single ⟨.var target, owner, scopes⟩
  | .assign target value => by
      have h := covers_resolve value
      simpa [visits, parts, resolve, Visit.findings] using
        h.append (.single ⟨.assign target value, owner, scopes⟩)
  | .call node callee arguments => by
      have h := (covers_resolve callee).append (covers_resolveAll arguments)
      simpa [visits, visitsAll, parts, resolve] using
        h.silent ⟨.call node callee arguments, owner, scopes⟩ rfl
  | .get id object name => by
      have h := covers_resolve object
      simpa [visits, parts, resolve] using h.silent ⟨.get id object name, owner, scopes⟩ rfl
  | .set id object name value => by
      have h := (covers_resolve value).append (covers_resolve object)
      simpa [visits, parts, resolve] using h.silent ⟨.set id object name value, owner, scopes⟩ rfl
  | .this node => .single ⟨.this node, owner, scopes⟩
  | .super node method => .single ⟨.super node method, owner, scopes⟩

theorem covers_resolveAll :
    (es : List Expr) → Covers (resolveAll (.ofOwner owner) scopes es) (visitsAll owner scopes es)
  | [] => .none
  | e :: es => by
      have h := (covers_resolve e).append (covers_resolveAll es)
      simpa [visits, visitsAll, partsAll, resolveAll] using h

end

theorem covers_resolveOption (e? : Option Expr) :
    Covers (resolveOption (.ofOwner owner) scopes e?) (visitsOption owner scopes e?) := by
  cases e? with
  | none => exact .none
  | some e => exact covers_resolve e

theorem map_expr_visits (owner : Option ClassDecl) (scopes : Scopes) (e : Expr) :
    (e.visits owner scopes).map Visit.expr = e.parts := by
  simp [visits, Function.comp_def]

theorem map_expr_visitsOption (owner : Option ClassDecl) (scopes : Scopes) (e? : Option Expr) :
    (visitsOption owner scopes e?).map Visit.expr = e?.toList.flatMap parts := by
  cases e? with
  | none => rfl
  | some e => simpa [visitsOption] using map_expr_visits owner scopes e

end Expr

/-! ## Statements -/

namespace Stmt

mutual

/-- The visits to the expressions of a statement. -/
def visits (owner : Option ClassDecl) (scopes : Scopes) : Stmt → List Visit
  | .expression value => value.visits owner scopes
  | .print value => value.visits owner scopes
  | .var name initial => Expr.visitsOption owner (scopes.declare name) initial
  | .block body => visitsAll owner ([] :: scopes) body
  | .ifElse condition consequent alternative =>
      condition.visits owner scopes ++ visits owner scopes consequent ++
        visitsOption owner (extend scopes consequent) alternative
  | .while condition body => condition.visits owner scopes ++ visits owner scopes body
  | .function decl => visitsRoutine owner (scopes.define decl.name) decl
  | .return _ value => Expr.visitsOption owner scopes value
  | .class name parent methods =>
      Expr.visitsOption owner (scopes.define name) (parent.map .var) ++
        visitsMethods (some ⟨name, parent, methods⟩) ((scopes.define name).enterClass name parent)
          methods

/-- The visits to the expressions of statements that follow each other. -/
def visitsAll (owner : Option ClassDecl) (scopes : Scopes) : List Stmt → List Visit
  | [] => []
  | s :: ss => visits owner scopes s ++ visitsAll owner (extend scopes s) ss

/-- The visits to the expressions of a statement that may be missing. -/
def visitsOption (owner : Option ClassDecl) (scopes : Scopes) : Option Stmt → List Visit
  | none => []
  | some s => visits owner scopes s

/-- The visits to the expressions of the body of a function. -/
def visitsRoutine (owner : Option ClassDecl) (scopes : Scopes) : Routine Stmt → List Visit
  | ⟨_, parameters, body⟩ => visitsAll owner (Scopes.defineAll ([] :: scopes) parameters) body

/-- The visits to the expressions of the bodies of methods. -/
def visitsMethods (owner : Option ClassDecl) (scopes : Scopes) : List (Routine Stmt) → List Visit
  | [] => []
  | method :: methods => visitsRoutine owner scopes method ++ visitsMethods owner scopes methods

end

theorem visitsRoutine_eq (owner : Option ClassDecl) (scopes : Scopes) (r : FunctionDecl) :
    visitsRoutine owner scopes r =
      visitsAll owner (Scopes.defineAll ([] :: scopes) r.parameters) r.body := by
  cases r
  rfl

theorem mem_visitsMethods {owner : Option ClassDecl} {scopes : Scopes} {r : FunctionDecl}
    {methods : List FunctionDecl} {v : Visit} (hr : r ∈ methods)
    (hv : v ∈ visitsRoutine owner scopes r) : v ∈ visitsMethods owner scopes methods := by
  induction methods with
  | nil =>
      cases hr
  | cons method methods ih =>
      -- The owner and the scopes are the same for all methods of a class.
      rw [visitsMethods, List.mem_append]
      rcases List.mem_cons.mp hr with rfl | hr
      · exact .inl hv
      · exact .inr (ih hr)

theorem locals_redeclaration (scopes : Scopes) (name : Ident) :
    (scopes.redeclaration name).locals = [] := by
  unfold Scopes.redeclaration
  split
  · rfl
  · split <;> rfl

theorem locals_redeclarations (names : List Ident) :
    ∀ scopes : Scopes, (scopes.redeclarations names).locals = [] := by
  induction names with
  | nil =>
      intro scopes
      rfl
  | cons name names ih =>
      intro scopes
      rw [Scopes.redeclarations, Findings.locals_append, locals_redeclaration, ih]
      rfl

theorem locals_checkReturn (context : Context) (keyword : Span) (value : Option Expr) :
    (context.checkReturn keyword value).locals = [] := by
  unfold Context.checkReturn
  split <;> rfl

theorem locals_checkInheritance (name : Ident) (parent : Reference) :
    (checkInheritance name parent).locals = [] := by
  unfold checkInheritance
  split <;> rfl

theorem covers_resolveParent (owner : Option ClassDecl) (scopes : Scopes) (name : Ident)
    (parent : Option Reference) :
    Covers (resolveParent scopes name parent)
      (Expr.visitsOption owner scopes (parent.map .var)) := by
  cases parent with
  | none =>
      exact .none
  | some parent =>
      exact .after_errors (locals_checkInheritance name parent) (.single ⟨.var parent, owner, scopes⟩)

mutual

theorem covers_resolve {context : Context} {owner : Option ClassDecl}
    (hcontext : context.cls = .ofOwner owner) (scopes : Scopes) :
    (s : Stmt) → Covers (s.resolve context scopes) (s.visits owner scopes)
  | .expression value => by
      rw [resolve, visits, hcontext]
      exact value.covers_resolve
  | .print value => by
      rw [resolve, visits, hcontext]
      exact value.covers_resolve
  | .var name initial => by
      rw [resolve, visits, hcontext]
      exact .after_errors (locals_redeclaration _ _) (Expr.covers_resolveOption initial)
  | .block body => covers_resolveAll hcontext ([] :: scopes) body
  | .ifElse condition consequent alternative => by
      rw [resolve, visits, hcontext]
      exact (condition.covers_resolve.append (covers_resolve hcontext scopes consequent)).append
        (covers_resolveOption hcontext _ alternative)
  | .while condition body => by
      rw [resolve, visits, hcontext]
      exact condition.covers_resolve.append (covers_resolve hcontext scopes body)
  | .function decl => by
      have hinner : Context.cls { context with routine := .function } = .ofOwner owner := hcontext
      rw [resolve, visits]
      exact .after_errors (locals_redeclaration _ _) (covers_resolveRoutine hinner _ decl)
  | .return keyword value => by
      rw [resolve, visits, hcontext]
      exact .after_errors (locals_checkReturn _ _ _) (Expr.covers_resolveOption value)
  | .class name parent methods => by
      have hparent : Covers (scopes.redeclaration name ++ resolveParent (scopes.define name) name parent)
          (Expr.visitsOption owner (scopes.define name) (parent.map .var)) :=
        .after_errors (locals_redeclaration _ _) (covers_resolveParent owner _ name parent)
      exact hparent.append (covers_resolveMethods rfl _ methods)

theorem covers_resolveAll {context : Context} {owner : Option ClassDecl}
    (hcontext : context.cls = .ofOwner owner) (scopes : Scopes) :
    (ss : List Stmt) → Covers (resolveAll context scopes ss) (visitsAll owner scopes ss)
  | [] => .none
  | s :: ss => (covers_resolve hcontext scopes s).append (covers_resolveAll hcontext _ ss)

theorem covers_resolveOption {context : Context} {owner : Option ClassDecl}
    (hcontext : context.cls = .ofOwner owner) (scopes : Scopes) :
    (s? : Option Stmt) → Covers (resolveOption context scopes s?) (visitsOption owner scopes s?)
  | none => .none
  | some s => covers_resolve hcontext scopes s

theorem covers_resolveRoutine {context : Context} {owner : Option ClassDecl}
    (hcontext : context.cls = .ofOwner owner) (scopes : Scopes) :
    (r : Routine Stmt) → Covers (resolveRoutine context scopes r) (visitsRoutine owner scopes r)
  | ⟨_, parameters, body⟩ =>
      .after_errors (locals_redeclarations parameters _) (covers_resolveAll hcontext _ body)

theorem covers_resolveMethods {context : Context} {owner : Option ClassDecl}
    (hcontext : context.cls = .ofOwner owner) (scopes : Scopes) :
    (methods : List (Routine Stmt)) →
      Covers (resolveMethods context scopes methods) (visitsMethods owner scopes methods)
  | [] => .none
  | method :: methods => by
      have hinner : Context.cls { context with routine := .ofMethod method.name.name } =
          .ofOwner owner := hcontext
      exact (covers_resolveRoutine hinner scopes method).append
        (covers_resolveMethods hcontext scopes methods)

end

/-! ## Every expression is visited once -/

mutual

theorem map_expr_visits (owner : Option ClassDecl) (scopes : Scopes) :
    (s : Stmt) → (s.visits owner scopes).map Visit.expr = expressions s.parts
  | .expression value => by
      simp [visits, parts, operands, Expr.map_expr_visits]
  | .print value => by
      simp [visits, parts, operands, Expr.map_expr_visits]
  | .var name initial => by
      simp [visits, parts, operands, Expr.map_expr_visitsOption]
  | .block body => by
      simp [visits, parts, operands, map_expr_visitsAll owner _ body]
  | .ifElse condition consequent alternative => by
      simp [visits, parts, operands, Expr.map_expr_visits, map_expr_visits owner scopes consequent,
        map_expr_visitsOption owner _ alternative]
  | .while condition body => by
      simp [visits, parts, operands, Expr.map_expr_visits, map_expr_visits owner scopes body]
  | .function decl => by
      simp [visits, parts, operands, map_expr_visitsRoutine owner _ decl]
  | .return _ value => by
      simp [visits, parts, operands, Expr.map_expr_visitsOption]
  | .class name parent methods => by
      simp [visits, parts, operands, Expr.map_expr_visitsOption, map_expr_visitsMethods _ _ methods]

theorem map_expr_visitsAll (owner : Option ClassDecl) (scopes : Scopes) :
    (ss : List Stmt) → (visitsAll owner scopes ss).map Visit.expr = expressions (partsAll ss)
  | [] => rfl
  | s :: ss => by
      simp [visitsAll, partsAll, map_expr_visits owner scopes s, map_expr_visitsAll owner _ ss]

theorem map_expr_visitsOption (owner : Option ClassDecl) (scopes : Scopes) :
    (s? : Option Stmt) → (visitsOption owner scopes s?).map Visit.expr = expressions (partsOption s?)
  | none => rfl
  | some s => map_expr_visits owner scopes s

theorem map_expr_visitsRoutine (owner : Option ClassDecl) (scopes : Scopes) :
    (r : Routine Stmt) → (visitsRoutine owner scopes r).map Visit.expr = expressions (partsRoutine r)
  | ⟨_, _, body⟩ => map_expr_visitsAll owner _ body

theorem map_expr_visitsMethods (owner : Option ClassDecl) (scopes : Scopes) :
    (methods : List (Routine Stmt)) →
      (visitsMethods owner scopes methods).map Visit.expr = expressions (partsMethods methods)
  | [] => rfl
  | method :: methods => by
      simp [visitsMethods, partsMethods, map_expr_visitsRoutine owner scopes method,
        map_expr_visitsMethods owner scopes methods]

end

/-! ## What statements do to the scopes -/

mutual

theorem extend_nil : (s : Stmt) → extend [] s = []
  | .expression _ => rfl
  | .print _ => rfl
  | .var _ _ => rfl
  | .block _ => rfl
  | .ifElse _ consequent alternative => by
      -- Outside all scopes a declaration is a global, which no scope lists.
      rw [extend, extend_nil consequent, extendOption_nil alternative]
  | .while _ body => by
      rw [extend, extend_nil body]
  | .function _ => rfl
  | .return _ _ => rfl
  | .class _ _ _ => rfl

theorem extendOption_nil : (s? : Option Stmt) → extendOption [] s? = []
  | none => rfl
  | some s => extend_nil s

end

theorem visitsAll_append (owner : Option ClassDecl) (ss ts : List Stmt) :
    visitsAll owner [] (ss ++ ts) = visitsAll owner [] ss ++ visitsAll owner [] ts := by
  induction ss with
  | nil =>
      rfl
  | cons s ss ih =>
      simp [visitsAll, extend_nil, ih]

mutual

theorem settled_extend {scopes : Scopes} (h : scopes.Settled) :
    (s : Stmt) → (extend scopes s).Settled
  | .expression _ => h
  | .print _ => h
  | .var name _ => h.define name
  | .block _ => h
  | .ifElse _ consequent alternative => by
      rw [extend]
      exact settled_extendOption (settled_extend h consequent) alternative
  | .while _ body => by
      rw [extend]
      exact settled_extend h body
  | .function decl => h.define decl.name
  | .return _ _ => h
  | .class name _ _ => h.define name

theorem settled_extendOption {scopes : Scopes} (h : scopes.Settled) :
    (s? : Option Stmt) → (extendOption scopes s?).Settled
  | none => h
  | some s => settled_extend h s

end

/-- A statement whose branches declare nothing changes the scopes by its own declaration only. -/
theorem extend_of_plain (scopes : Scopes) :
    (s : Stmt) → (∀ t ∈ s.parts, t.BranchesPlain) →
      extend scopes s = (s.declares?.map scopes.define).getD scopes
  | .expression _, _ => rfl
  | .print _, _ => rfl
  | .var _ _, _ => rfl
  | .block _, _ => rfl
  | .ifElse condition consequent none, h => by
      have hplain : (ifElse condition consequent none).BranchesPlain := h _ (by simp [parts])
      have hconsequent := extend_of_plain scopes consequent fun t ht => h t (by simp [parts, ht])
      rw [hplain.1] at hconsequent
      exact hconsequent
  | .ifElse condition consequent (some alternative), h => by
      have hplain : (ifElse condition consequent (some alternative)).BranchesPlain :=
        h _ (by simp [parts])
      have hconsequent := extend_of_plain scopes consequent fun t ht => h t (by simp [parts, ht])
      have halternative := extend_of_plain scopes alternative fun t ht =>
        h t (by simp [parts, partsOption, ht])
      rw [hplain.1] at hconsequent
      rw [hplain.2 alternative rfl] at halternative
      rw [extend, hconsequent]
      exact halternative
  | .while condition body, h => by
      have hplain : (Stmt.while condition body).BranchesPlain := h _ (by simp [parts])
      have hbody := extend_of_plain scopes body fun t ht => h t (by simp [parts, ht])
      rw [hplain] at hbody
      exact hbody
  | .function _, _ => rfl
  | .return _ _, _ => rfl
  | .class _ _ _, _ => rfl

end Stmt

end Lox
