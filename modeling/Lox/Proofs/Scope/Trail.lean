import Lox.Proofs.Scope.Place
import Lox.Proofs.Scope.Program

/-!
# Resolution along the walk

A trail holds what resolution knows at a place: the regions around it and their scopes, the innermost
first. Each step of the walk changes the trail, and what is found at a step depends on the trail
alone.

Main statements: `Stmt.follows_walkAll`, and from it `Stmt.programFindings_eq`. Resolution finds in
statements what is found at the steps of their walk, one after the other.
-/

namespace Lox

open Walk

/-! ## Trails -/

/-- The regions around a place and their scopes. -/
structure Trail where
  regions : List Region
  scopes : Scopes

/-- The scope of a region at its beginning. -/
def Walk.Region.scope (region : Region) : Scope :=
  match region.bound? with
  | some name => Scopes.single name.name name.span
  | none => []

/-- The innermost function and the innermost class among regions. -/
def Context.within (regions : List Region) : Context :=
  ⟨(regions.findSome? Region.routine?).getD .none, (regions.findSome? Region.class?).getD .none⟩

/-- A violation if a name is read whose initializer the reading belongs to. Among the globals it may
be read. -/
def Scopes.premature (scopes : Scopes) (initialized : Option Ident) (reference : Ident) : Findings :=
  match scopes, initialized with
  | _ :: _, some name =>
      if name.name = reference.name then .error (.ownInitializer name reference) reference.span
      else .none
  | _, _ => .none

namespace Trail

/-- The trail after a step. -/
def advance (t : Trail) : Step → Trail
  | .enter region => ⟨region :: t.regions, region.scope :: t.scopes⟩
  | .leave => ⟨t.regions.tail, t.scopes.tail⟩
  | .declare name => ⟨t.regions, t.scopes.define name⟩
  | _ => t

/-- The trail after steps. -/
def run (t : Trail) (steps : List Step) : Trail :=
  steps.foldl advance t

theorem run_append (t : Trail) (xs ys : List Step) : t.run (xs ++ ys) = (t.run xs).run ys :=
  List.foldl_append

/-- What is found at a step. -/
def found (t : Trail) : Step → Findings
  | .declare name => t.scopes.redeclaration name
  | .use ⟨node, .read name⟩ initialized =>
      t.scopes.premature initialized ⟨name, node.span⟩ ++ t.scopes.locate node.id name
  | .use ⟨node, .assign name⟩ _ => t.scopes.locate node.id name
  | .use ⟨node, .this⟩ _ =>
      match (Context.within t.regions).cls with
      | .none => .error .thisOutsideClass node.span
      | _ => t.scopes.locate node.id thisName
  | .use ⟨node, .super _⟩ _ =>
      let misplaced : Findings :=
        match (Context.within t.regions).cls with
        | .none => .error .superOutsideClass node.span
        | .root => .error .superWithoutSuperclass node.span
        | .derived => .none
      misplaced ++ t.scopes.locate node.id superName
  | .return keyword hasValue =>
      match (Context.within t.regions).routine, hasValue with
      | .none, _ => .error .returnOutsideFunction keyword
      | .initializer, true => .error .returnFromInitializer keyword
      | _, _ => .none
  | .inherit name parent =>
      if parent.name = name.name then .error (.inheritsItself parent) parent.span else .none
  | .enter _ => .none
  | .leave => .none

/-- What is found at steps, one after the other. -/
def findings : Trail → List Step → Findings
  | _, [] => .none
  | t, step :: steps => t.found step ++ findings (t.advance step) steps

end Trail

theorem Scopes.tail_define (scopes : Scopes) (name : Ident) :
    (scopes.define name).tail = scopes.tail := by
  cases scopes <;> rfl

theorem Scopes.tail_defineAll (scopes : Scopes) (names : List Ident) :
    (scopes.defineAll names).tail = scopes.tail := by
  induction names generalizing scopes with
  | nil =>
      rfl
  | cons name names ih =>
      exact (ih (scopes.define name)).trans (tail_define scopes name)

/-! ## Following the walk -/

theorem Findings.none_append (f : Findings) : Findings.none ++ f = f :=
  rfl

theorem Findings.append_none (f : Findings) : f ++ Findings.none = f :=
  congrArg₂ Findings.mk (List.append_nil _) (List.append_nil _)

/-- From one trail to another, the steps find what the findings say. -/
structure Follows (t : Trail) (steps : List Step) (f : Findings) (after : Trail) : Prop where
  findings : t.findings steps = f
  run : t.run steps = after

namespace Follows

variable {t u v : Trail} {xs ys : List Step} {step : Step} {f g : Findings}

theorem nil : Follows t [] .none t :=
  ⟨rfl, rfl⟩

theorem cons (h : Follows (t.advance step) xs f u) : Follows t (step :: xs) (t.found step ++ f) u :=
  ⟨congrArg (t.found step ++ ·) h.findings, h.run⟩

/-- A step at which nothing is found. -/
theorem silent (hstep : t.found step = .none) (h : Follows (t.advance step) xs f u) :
    Follows t (step :: xs) f u := by
  have hcons := h.cons
  rw [hstep, Findings.none_append] at hcons
  exact hcons

theorem single (step : Step) : Follows t [step] (t.found step) (t.advance step) := by
  have h : Follows t [step] (t.found step ++ .none) (t.advance step) := nil.cons
  rw [Findings.append_none] at h
  exact h

theorem append (hx : Follows t xs f u) (hy : Follows u ys g v) : Follows t (xs ++ ys) (f ++ g) v := by
  induction xs generalizing t f with
  | nil =>
      cases hx.findings
      cases hx.run
      exact hy
  | cons step xs ih =>
      have htail := ih ⟨rfl, hx.run⟩
      rw [← hx.findings, Trail.findings, Findings.append_assoc]
      exact htail.cons

/-- What is found in a region is found around it, and the region is left with its scope. -/
theorem region {region : Region} {regions : List Region} {scopes inner : Scopes}
    (h : Follows ⟨region :: regions, region.scope :: scopes⟩ xs f ⟨region :: regions, inner⟩)
    (hinner : inner.tail = scopes) :
    Follows ⟨regions, scopes⟩ (region.around xs) f ⟨regions, scopes⟩ := by
  have hleave : Follows ⟨region :: regions, inner⟩ [.leave] .none ⟨regions, scopes⟩ := by
    rw [← hinner]
    exact .single .leave
  have hbody := h.append hleave
  rw [Findings.append_none] at hbody
  exact .silent rfl hbody

end Follows

/-! ## Expressions -/

/-- Resolution sees the current scopes, with the variable whose initializer it reads not yet
defined. -/
structure Sees (current : Scopes) (initialized : Option Ident) (scopes : Scopes) : Prop where
  locate : ∀ id name, scopes.locate id name = current.locate id name
  resolve : ∀ r : Reference, r.resolve scopes =
    current.premature initialized r.name ++ current.locate r.id r.name.name

namespace Sees

variable {scopes : Scopes}

theorem pending?_of_settled (h : scopes.Settled) (name : String) : scopes.pending? name = none := by
  cases scopes with
  | nil =>
      rfl
  | cons scope outer =>
      rw [Scopes.pending?, Option.filter_eq_none_iff]
      intro declared hvalue
      simp [h scope List.mem_cons_self name declared hvalue]

theorem premature_none (scopes : Scopes) (reference : Ident) :
    scopes.premature none reference = .none := by
  cases scopes <;> rfl

theorem settled (h : scopes.Settled) : Sees scopes none scopes := by
  refine ⟨fun _ _ => rfl, ?_⟩
  intro r
  rw [premature_none, Reference.resolve, pending?_of_settled h]

theorem distance?_declare (scopes : Scopes) (name : Ident) (other : String) :
    (scopes.declare name).distance? other = (scopes.define name).distance? other := by
  cases scopes with
  | nil =>
      rfl
  | cons scope outer =>
      simp only [Scopes.declare, Scopes.define, Scopes.distance?, Bindings.value?_put]
      by_cases hname : name.name = other <;> simp [hname]

/-- In an initializer only the variable itself is not defined. -/
theorem initializer (h : scopes.Settled) (name : Ident) :
    Sees (scopes.define name) (some name) (scopes.declare name) := by
  have hlocate : ∀ id other,
      (scopes.declare name).locate id other = (scopes.define name).locate id other := by
    intro id other
    rw [Scopes.locate, distance?_declare]
    rfl
  refine ⟨hlocate, ?_⟩
  intro r
  rw [Reference.resolve, hlocate]
  cases scopes with
  | nil =>
      rfl
  | cons scope outer =>
      simp only [Scopes.declare, Scopes.define, Scopes.pending?, Scopes.premature,
        Bindings.value?_put]
      by_cases hname : name.name = r.name.name
      · rw [if_pos hname, if_pos hname, ← hname]
        rfl
      · -- Every other name was settled before, and the declaration left it alone.
        have hsettled := pending?_of_settled h r.name.name
        rw [Scopes.pending?] at hsettled
        rw [if_neg hname, if_neg hname, hsettled]

end Sees

namespace Expr

variable {regions : List Region} {current scopes : Scopes} {initialized : Option Ident}

mutual

theorem follows_walk (h : Sees current initialized scopes) : (e : Expr) →
    Follows ⟨regions, current⟩ (e.walk initialized)
      (e.resolve (Context.within regions).cls scopes) ⟨regions, current⟩
  | .literal _ _ => .nil
  | .group _ inner => follows_walk h inner
  | .unary _ _ operand => follows_walk h operand
  | .binary _ _ left right => (follows_walk h left).append (follows_walk h right)
  | .logical _ _ left right => (follows_walk h left).append (follows_walk h right)
  | .var target => by
      rw [resolve, h.resolve]
      exact .single (.use target.use initialized)
  | .assign target value => by
      rw [resolve, h.locate]
      exact (follows_walk h value).append (.single _)
  | .call _ callee arguments => (follows_walk h callee).append (follows_walkAll h arguments)
  | .get _ object _ => follows_walk h object
  | .set _ object _ value => (follows_walk h value).append (follows_walk h object)
  | .this node => by
      simp only [resolve, h.locate]
      exact .single (.use ⟨node, .this⟩ initialized)
  | .super node method => by
      simp only [resolve, h.locate]
      exact .single (.use ⟨node, .super method.name⟩ initialized)

theorem follows_walkAll (h : Sees current initialized scopes) : (es : List Expr) →
    Follows ⟨regions, current⟩ (walkAll initialized es)
      (resolveAll (Context.within regions).cls scopes es) ⟨regions, current⟩
  | [] => .nil
  | e :: es => (follows_walk h e).append (follows_walkAll h es)

end

theorem follows_walkOption (h : Sees current initialized scopes) (e? : Option Expr) :
    Follows ⟨regions, current⟩ (walkOption initialized e?)
      (resolveOption (Context.within regions).cls scopes e?) ⟨regions, current⟩ := by
  cases e? with
  | none => exact .nil
  | some e => exact follows_walk h e

end Expr

/-! ## Statements -/

namespace Stmt

mutual

/-- Statements declare nothing outside the innermost scope. -/
theorem tail_extend (scopes : Scopes) : (s : Stmt) → (s.extend scopes).tail = scopes.tail
  | .expression _ => rfl
  | .print _ => rfl
  | .var name _ => Scopes.tail_define scopes name
  | .block _ => rfl
  | .ifElse _ consequent alternative => by
      rw [extend, tail_extendOption _ alternative, tail_extend scopes consequent]
  | .while _ body => tail_extend scopes body
  | .function decl => Scopes.tail_define scopes decl.name
  | .return _ _ => rfl
  | .class name _ _ => Scopes.tail_define scopes name

theorem tail_extendOption (scopes : Scopes) :
    (s? : Option Stmt) → (extendOption scopes s?).tail = scopes.tail
  | none => rfl
  | some s => tail_extend scopes s

end

/-- The scopes for what follows statements. -/
def extendAll (scopes : Scopes) (ss : List Stmt) : Scopes :=
  ss.foldl extend scopes

theorem tail_extendAll (scopes : Scopes) (ss : List Stmt) :
    (extendAll scopes ss).tail = scopes.tail := by
  induction ss generalizing scopes with
  | nil =>
      rfl
  | cons s ss ih =>
      exact (ih (s.extend scopes)).trans (tail_extend scopes s)

theorem follows_declare (regions : List Region) (scopes : Scopes) (names : List Ident) :
    Follows ⟨regions, scopes⟩ (names.map .declare) (scopes.redeclarations names)
      ⟨regions, scopes.defineAll names⟩ := by
  induction names generalizing scopes with
  | nil => exact .nil
  | cons name names ih => exact .cons (ih (scopes.define name))

theorem found_return (t : Trail) (keyword : Span) (value : Option Expr) :
    t.found (.return keyword value.isSome) =
      (Context.within t.regions).checkReturn keyword value := by
  simp only [Trail.found, Context.checkReturn]
  cases (Context.within t.regions).routine <;> cases value <;> rfl

theorem within_ofMethod (regions : List Region) (name : String) :
    Context.within (.ofMethod name :: regions) =
      { Context.within regions with routine := .ofMethod name } := by
  unfold Region.ofMethod RoutineContext.ofMethod
  split <;> rfl

theorem scope_ofMethod (name : String) : (Region.ofMethod name).scope = [] := by
  unfold Region.ofMethod
  split <;> rfl

mutual

theorem follows_walk {regions : List Region} {scopes : Scopes} (h : scopes.Settled) :
    (s : Stmt) → Follows ⟨regions, scopes⟩ s.walk (s.resolve (.within regions) scopes)
      ⟨regions, s.extend scopes⟩
  | .expression value => value.follows_walk (.settled h)
  | .print value => value.follows_walk (.settled h)
  | .var name initial => .cons (Expr.follows_walkOption (.initializer h name) initial)
  -- What a block declares is gone with its scope, so the scopes behind it are those before it.
  | .block body => .region (follows_walkAll h.enter body) (tail_extendAll ([] :: scopes) body)
  | .ifElse condition consequent alternative =>
      ((condition.follows_walk (.settled h)).append (follows_walk h consequent)).append
        (follows_walkOption (settled_extend h consequent) alternative)
  | .while condition body =>
      (condition.follows_walk (.settled h)).append (follows_walk h body)
  | .function decl => .cons (follows_walkRoutine (h.define decl.name) .function rfl decl)
  | .return keyword value => by
      rw [resolve, ← found_return ⟨regions, scopes⟩]
      exact .cons (Expr.follows_walkOption (.settled h) value)
  | .class name none methods => by
      rw [resolve, resolveParent, Findings.append_none]
      exact .cons (.region (follows_walkMethods ((h.define name).enterClass name none) methods) rfl)
  | .class name (some parent) methods => by
      have houter : (scopes.define name).Settled := h.define name
      rw [resolve, resolveParent, (Sees.settled houter).resolve, Findings.append_assoc,
        Findings.append_assoc]
      -- The class is declared, it names its superclass, and the superclass is looked up.
      refine .cons (.cons (.cons ?_))
      exact .region (.region (follows_walkMethods (houter.enterClass name (some parent)) methods)
        rfl) rfl

theorem follows_walkAll {regions : List Region} {scopes : Scopes} (h : scopes.Settled) :
    (ss : List Stmt) →
      Follows ⟨regions, scopes⟩ (walkAll ss) (resolveAll (.within regions) scopes ss)
        ⟨regions, extendAll scopes ss⟩
  | [] => .nil
  | s :: ss => (follows_walk h s).append (follows_walkAll (settled_extend h s) ss)

theorem follows_walkOption {regions : List Region} {scopes : Scopes} (h : scopes.Settled) :
    (s? : Option Stmt) →
      Follows ⟨regions, scopes⟩ (walkOption s?) (resolveOption (.within regions) scopes s?)
        ⟨regions, extendOption scopes s?⟩
  | none => .nil
  | some s => follows_walk h s

theorem follows_walkRoutine {regions : List Region} {scopes : Scopes} (h : scopes.Settled)
    (region : Region) (hregion : region.scope = []) : (r : Routine Stmt) →
      Follows ⟨regions, scopes⟩ (walkRoutine region r)
        (resolveRoutine (.within (region :: regions)) scopes r) ⟨regions, scopes⟩
  | ⟨_, parameters, body⟩ => by
      -- Parameters and body share the scope, so their steps follow each other inside one region.
      have hbody := (follows_declare (region :: regions) ([] :: scopes) parameters).append
        (follows_walkAll (h.enter.defineAll parameters) body)
      have htail : (extendAll (Scopes.defineAll ([] :: scopes) parameters) body).tail = scopes :=
        (tail_extendAll _ body).trans (Scopes.tail_defineAll ([] :: scopes) parameters)
      refine .region ?_ htail
      rw [hregion]
      exact hbody

theorem follows_walkMethods {regions : List Region} {scopes : Scopes} (h : scopes.Settled) :
    (methods : List (Routine Stmt)) →
      Follows ⟨regions, scopes⟩ (walkMethods methods)
        (resolveMethods (.within regions) scopes methods) ⟨regions, scopes⟩
  | [] => .nil
  | method :: methods => by
      rw [resolveMethods, ← within_ofMethod]
      exact (follows_walkRoutine h _ (scope_ofMethod _) method).append
        (follows_walkMethods h methods)

end

theorem programFindings_eq (ss : List Stmt) :
    programFindings ss = Trail.findings ⟨[], []⟩ (walkAll ss) := by
  have h : Follows ⟨[], []⟩ (walkAll ss) (programFindings ss) _ :=
    follows_walkAll Scopes.settled_nil ss
  exact h.findings.symm

end Stmt

end Lox
