import Lox.Proofs.Session.Agreement
import Lox.Proofs.Session.Identity
import Lox.Proofs.Syntax.Places

/-!
# Where faults are found

A fault is found at a place that a program of the session keeps: that of the expression that fails, of
a name in it, or of the name of an initializer. The function that fails may have been declared by an
earlier text.

* `Eval.FailsIn` says that the faults of a step are found at places with a property.
* `Eval.failsIn_valueOf` and `Eval.failsIn_executeRound` say so of what is done for an expression and
  for a statement.

Main statement: `Session.History.fault_place`.
-/

namespace Lox

/-! ## The contract -/

/-- The functions that a value holds have their names at places with the property. -/
def Value.NamedIn (P : Span → Prop) (v : Value) : Prop :=
  ∀ c ∈ v.closures, P c.declaration.name.span

/-- The functions that the value of an expression holds have their names at places with the property. -/
def Task.NamesIn (P : Span → Prop) : (task : Task) → task.Result → Prop
  | .evaluate _ _, value => value.NamedIn P
  | .execute _ _, _ => True

/-- A fault is at a place with the property, and a result is as `Q` says. -/
def EndsIn {α : Type} (P : Span → Prop) (Q : α → Prop) : Except Fault α → Prop
  | .error fault => P fault.span
  | .ok a => Q a

/-- The contract by which faults are at places with the property. -/
def blaming (P : Span → Prop) : Contract where
  before _ _ := True
  after task _ r _ := EndsIn P (task.NamesIn P) r

/-- A fault of a step is at a place with the property, and its result is as `Q` says. -/
def Eval.FailsIn {α : Type} (setting : Setting) (P : Span → Prop) (x : Eval α) (Q : α → Prop) :
    Prop :=
  ∀ m, (x setting m).Meets setting (blaming P) fun r _ => EndsIn P Q r

/-- The method that is found in a class is one of its functions. -/
theorem Class.mem_closures {cls : Class} {name : String} {c : Closure}
    (h : cls.method? name = some c) : c ∈ cls.closures := by
  induction cls with
  | root id own methods =>
      rw [method?_root] at h
      exact List.mem_map_of_mem (Bindings.mem_of_value? h)
  | derived id own methods superclass ih =>
      rw [method?_derived, Option.or_eq_some_iff] at h
      rcases h with h | ⟨-, h⟩
      · exact List.mem_append_left _ (List.mem_map_of_mem (Bindings.mem_of_value? h))
      · exact List.mem_append_right _ (ih h)

namespace Eval

variable {α β : Type} {setting : Setting} {P : Span → Prop} {Q : α → Prop} {x : Eval α}
  {place : Span} {frame : FrameId}

/-! ## Rules -/

namespace FailsIn

theorem pure {a : α} (hq : Q a) : FailsIn setting P (Pure.pure a) Q :=
  fun _ => hq

theorem fail {cause : FaultCause} (hplace : P place) :
    FailsIn setting P (Eval.fail cause place) Q :=
  fun _ => hplace

theorem bind {f : α → Eval β} {T : β → Prop} (hx : FailsIn setting P x Q)
    (hf : ∀ a, Q a → FailsIn setting P (f a) T) : FailsIn setting P (x >>= f) T := by
  intro m
  refine Course.Meets.bind ((hx m).mono ?_)
  intro r m' hends
  cases r with
  | error fault => exact hends
  | ok a => exact hf a hends m'

theorem mono {T : α → Prop} (hx : FailsIn setting P x Q) (h : ∀ a, Q a → T a) :
    FailsIn setting P x T := by
  intro m
  refine (hx m).mono ?_
  intro r m' hends
  cases r with
  | error fault => exact hends
  | ok a => exact h a hends

/-- A step of which only the faults are of interest. -/
theorem drop (hx : FailsIn setting P x Q) : FailsIn setting P x fun _ => True :=
  hx.mono fun _ _ => trivial

theorem map {f : α → β} (hx : FailsIn setting P x Q) :
    FailsIn setting P (f <$> x) fun _ => True :=
  hx.bind fun _ _ => .pure trivial

theorem check {result : Except FaultCause α} (hplace : P place) :
    FailsIn setting P (Eval.check place result) fun _ => True := by
  cases result with
  | error cause => exact .fail hplace
  | ok a => exact .pure trivial

theorem read {look : Store → Except FaultCause α} (hplace : P place) :
    FailsIn setting P (Eval.read place look) fun _ => True := by
  intro m
  unfold Eval.read
  cases look m.store with
  | error cause => exact hplace
  | ok a => exact trivial

theorem change (step : Store → Store) : FailsIn setting P (Eval.change step) fun _ => True :=
  fun _ => trivial

theorem tryChange {step : Store → Except FaultCause Store} (hplace : P place) :
    FailsIn setting P (Eval.tryChange place step) fun _ => True := by
  intro m
  unfold Eval.tryChange
  cases step m.store with
  | error cause => exact hplace
  | ok t => exact trivial

theorem create (step : Store → α × Store) : FailsIn setting P (Eval.create step) fun _ => True :=
  fun _ => trivial

theorem print (line : String) : FailsIn setting P (Eval.print line) fun _ => True :=
  fun _ => trivial

theorem distance? (id : Nat) : FailsIn setting P (Eval.distance? id) fun _ => True :=
  fun _ => trivial

theorem globals : FailsIn setting P Eval.globals fun _ => True :=
  fun _ => trivial

theorem readClock (hplace : P place) : FailsIn setting P (Eval.readClock place) fun _ => True := by
  intro m
  unfold Eval.readClock
  cases setting.clock m.readings with
  | error reason => exact hplace
  | ok seconds => exact trivial

theorem nested (hplace : P place) (hx : FailsIn setting P x Q) :
    FailsIn setting P (Eval.nested place x) Q := by
  intro m
  unfold Eval.nested
  split
  · exact hplace
  · exact Course.Meets.atEnd (hx _)

end FailsIn

/-! ## Tasks -/

theorem failsIn_evaluate (e : Expr) : FailsIn setting P (evaluate frame e) (Value.NamedIn P) :=
  fun _ => ⟨trivial, fun _ _ _ hafter => hafter⟩

theorem failsIn_execute (s : Stmt) : FailsIn setting P (execute frame s) fun _ => True :=
  fun _ => ⟨trivial, fun _ _ _ hafter => hafter⟩

theorem failsIn_evaluateAll (es : List Expr) :
    FailsIn setting P (evaluateAll frame es) fun _ => True := by
  induction es with
  | nil => exact .pure trivial
  | cons e es ih => exact (failsIn_evaluate e).bind fun _ _ => ih.bind fun _ _ => .pure trivial

theorem failsIn_evaluateOption (e? : Option Expr) :
    FailsIn setting P (evaluateOption frame e?) fun _ => True := by
  cases e? with
  | none => exact .pure trivial
  | some e => exact (failsIn_evaluate e).drop

theorem failsIn_executeAll (ss : List Stmt) :
    FailsIn setting P (executeAll frame ss) fun _ => True := by
  induction ss with
  | nil =>
      exact .pure trivial
  | cons s ss ih =>
      refine (failsIn_execute s).bind ?_
      intro flow _
      cases flow with
      | returned value => exact .pure trivial
      | normal => exact ih

/-! ## Variables, functions and instances -/

theorem failsIn_lookUp {node : Node} {name : String} (hplace : P node.span) :
    FailsIn setting P (lookUp frame node name) fun _ => True := by
  refine (FailsIn.distance? _).bind ?_
  intro distance _
  cases distance with
  | some distance => exact .read hplace
  | none => exact FailsIn.globals.bind fun _ _ => .read hplace

theorem failsIn_assign {target : Reference} {value : Value} (hplace : P target.name.span) :
    FailsIn setting P (assign frame target value) fun _ => True := by
  refine (FailsIn.distance? _).bind ?_
  intro distance _
  cases distance with
  | some distance => exact .tryChange hplace
  | none => exact FailsIn.globals.bind fun _ _ => .tryChange hplace

theorem failsIn_makeFunction (closure : Closure) :
    FailsIn setting P (makeFunction closure) fun _ => True :=
  (FailsIn.create _).bind fun _ _ => .pure trivial

theorem failsIn_bindMethod (method : Closure) (object : Instance) :
    FailsIn setting P (bindMethod method object) fun c => c.declaration = method.declaration :=
  (FailsIn.create _).bind fun _ _ => (FailsIn.change _).bind fun _ _ => .pure rfl

theorem failsIn_asInstance {cause : Value → FaultCause} (value : Value) (hplace : P place) :
    FailsIn setting P (asInstance place cause value) fun _ => True := by
  cases value with
  | «instance» object => exact .pure trivial
  | _ => exact .fail hplace

theorem failsIn_asClass (value : Value) (hplace : P place) :
    FailsIn setting P (asClass place value) fun _ => True := by
  cases value with
  | «class» cls => exact .pure trivial
  | _ => exact .fail hplace

theorem failsIn_method {cls : Class} {object : Instance} {name : Ident} (hplace : P name.span) :
    FailsIn setting P (method cls object name) fun _ => True := by
  unfold method
  cases cls.method? name.name with
  | none => exact .fail hplace
  | some method => exact (failsIn_bindMethod _ _).bind fun _ _ => failsIn_makeFunction _

theorem failsIn_property {object : Instance} {name : Ident} (hplace : P name.span) :
    FailsIn setting P (property object name) fun _ => True := by
  intro m
  unfold property
  cases m.store.field? object name.name with
  | none => exact failsIn_method hplace m
  | some value => exact trivial

theorem failsIn_superMethod {node : Node} {name : Ident} (hplace : P name.span) :
    FailsIn setting P (superMethod frame node name) fun _ => True := by
  refine (FailsIn.distance? _).bind ?_
  intro distance _
  cases distance with
  | none =>
      exact .fail hplace
  | some distance =>
      refine (FailsIn.read hplace).bind ?_
      intro value _
      refine (failsIn_asClass value hplace).bind ?_
      intro cls _
      cases distance with
      | zero =>
          exact .fail hplace
      | succ nearer =>
          refine (FailsIn.read hplace).bind ?_
          intro receiver _
          exact (failsIn_asInstance receiver hplace).bind fun _ _ => failsIn_method hplace

/-! ## Calls -/

/-- An initializer whose frame does not bind `this` fails at its name. -/
theorem failsIn_callResult {closure : Closure} {flow : Flow}
    (hname : P closure.declaration.name.span) :
    FailsIn setting P (callResult closure flow) fun _ => True := by
  unfold callResult
  split
  · exact .read hname
  · cases flow with
    | returned value => exact .pure trivial
    | normal => exact .pure trivial

theorem failsIn_run {closure : Closure} {arguments : List Value}
    (hname : P closure.declaration.name.span) :
    FailsIn setting P (run closure arguments) fun _ => True := by
  refine (FailsIn.create _).bind fun inner _ => (FailsIn.change _).bind fun _ _ => ?_
  exact (failsIn_executeAll _).bind fun _ _ => failsIn_callResult hname

theorem failsIn_invoke {callee : Value} {arguments : List Value} (hplace : P place)
    (hcallee : callee.NamedIn P) :
    FailsIn setting P (invoke place callee arguments) fun _ => True := by
  cases callee with
  | native id =>
      exact .readClock hplace
  | function id closure =>
      exact failsIn_run (hcallee closure List.mem_cons_self)
  | «class» cls =>
      refine (FailsIn.create _).bind ?_
      intro object _
      cases hmethod : cls.method? initializerName with
      | none =>
          exact .pure trivial
      | some method =>
          have hname : P method.declaration.name.span := hcallee method (Class.mem_closures hmethod)
          refine (failsIn_bindMethod method object).bind ?_
          intro initializer heq
          rw [← heq] at hname
          exact (failsIn_run hname).bind fun _ _ => .pure trivial
  | _ =>
      exact .fail hplace

theorem failsIn_call {callee : Value} {arguments : List Value} (hplace : P place)
    (hcallee : callee.NamedIn P) :
    FailsIn setting P (call place callee arguments) fun _ => True := by
  unfold call
  split
  · exact .fail hplace
  · split
    · exact .nested hplace (failsIn_invoke hplace hcallee)
    · exact .fail hplace

/-! ## Expressions and statements -/

/-- What is done for the value of an expression fails at a place of the expression. -/
theorem failsIn_valueOf {e : Expr} (hplaces : ∀ place ∈ e.places, P place) :
    FailsIn setting P (valueOf frame e) fun _ => True := by
  rcases List.forall_mem_cons.mp hplaces with ⟨hnode, hnames⟩
  cases e with
  | literal node value =>
      exact .pure trivial
  | group node inner =>
      exact (failsIn_evaluate inner).drop
  | unary node op operand =>
      exact (failsIn_evaluate operand).bind fun _ _ => .check hnode
  | binary node op left right =>
      refine (failsIn_evaluate left).bind fun _ _ => ?_
      exact (failsIn_evaluate right).bind fun _ _ => .check hnode
  | logical node op left right =>
      refine (failsIn_evaluate left).bind fun first _ => ?_
      split
      · exact .pure trivial
      · exact (failsIn_evaluate right).drop
  | var target =>
      exact failsIn_lookUp hnode
  | assign target value =>
      refine (failsIn_evaluate value).bind fun _ _ => ?_
      exact (failsIn_assign hnode).bind fun _ _ => .pure trivial
  | call node callee arguments =>
      refine (failsIn_evaluate callee).bind fun value hvalue => ?_
      exact (failsIn_evaluateAll arguments).bind fun _ _ => failsIn_call hnode hvalue
  | get id object name =>
      refine (failsIn_evaluate object).bind fun value _ => ?_
      exact (failsIn_asInstance value hnode).bind fun _ _ => failsIn_property hnode
  | set id object name value =>
      refine (failsIn_evaluate object).bind fun target _ => ?_
      refine (failsIn_asInstance target hnode).bind fun _ _ => ?_
      refine (failsIn_evaluate value).bind fun _ _ => ?_
      exact (FailsIn.change _).bind fun _ _ => .pure trivial
  | this node =>
      exact failsIn_lookUp hnode
  | super node name =>
      -- The fault is shown at the method and not at the keyword, where the expression is placed.
      exact failsIn_superMethod (hnames _ List.mem_cons_self)

theorem failsIn_parentClass {parent : Option Reference}
    (hparent : ∀ reference ∈ parent, P reference.name.span) :
    FailsIn setting P (parentClass frame parent) fun _ => True := by
  cases parent with
  | none =>
      exact .pure trivial
  | some reference =>
      refine (failsIn_evaluate (.var reference)).bind fun value _ => ?_
      exact (failsIn_asClass value (hparent reference rfl)).map

theorem failsIn_methodFrame (superclass : Option Class) :
    FailsIn setting P (methodFrame frame superclass) fun _ => True := by
  cases superclass with
  | none =>
      exact .pure trivial
  | some cls =>
      exact (FailsIn.create _).bind fun _ _ => (FailsIn.change _).bind fun _ _ => .pure trivial

theorem failsIn_declareClass {name : Ident} {parent : Option Reference}
    {methods : List FunctionDecl} (hname : P name.span)
    (hparent : ∀ reference ∈ parent, P reference.name.span) :
    FailsIn setting P (declareClass frame name parent methods) fun _ => True := by
  have hmake : FailsIn setting P (makeClass frame name parent methods) fun _ => True := by
    refine (FailsIn.change _).bind fun _ _ => ?_
    refine (failsIn_parentClass hparent).bind fun superclass _ => ?_
    refine (failsIn_methodFrame superclass).bind fun _ _ => ?_
    exact (FailsIn.create _).bind fun _ _ => .pure trivial
  exact hmake.bind fun _ _ => .tryChange hname

theorem failsIn_loopRound (condition : Expr) (body : Stmt) :
    FailsIn setting P (loopRound frame condition body) fun _ => True := by
  refine (failsIn_evaluate condition).bind fun value _ => ?_
  split
  · refine (failsIn_execute body).bind fun flow _ => ?_
    cases flow with
    | returned value => exact .pure trivial
    | normal => exact .pure trivial
  · exact .pure trivial

/-- What is done in one round for a statement fails at a place of the statement, or where a task that it
asks for fails. -/
theorem failsIn_executeRound {s : Stmt} (hnames : ∀ name ∈ s.idents, P name.span)
    (hoperands : ∀ e ∈ s.operands, P e.node.span) :
    FailsIn setting P (executeRound frame s) fun _ => True := by
  cases s with
  | expression e =>
      exact (failsIn_evaluate e).bind fun _ _ => .pure trivial
  | print e =>
      refine (failsIn_evaluate e).bind fun value _ => ?_
      exact (FailsIn.print _).bind fun _ _ => .pure trivial
  | var name initial =>
      refine (failsIn_evaluateOption initial).bind fun _ _ => ?_
      exact (FailsIn.change _).bind fun _ _ => .pure trivial
  | block body =>
      exact (FailsIn.create _).bind fun _ _ => (failsIn_executeAll body).map
  | ifElse condition consequent alternative =>
      refine (failsIn_evaluate condition).bind fun value _ => ?_
      split
      · exact (failsIn_execute consequent).map
      · cases alternative with
        | none => exact .pure trivial
        | some s => exact (failsIn_execute s).map
  | «while» condition body =>
      exact failsIn_loopRound condition body
  | function decl =>
      refine (failsIn_makeFunction _).bind fun _ _ => ?_
      exact (FailsIn.change _).bind fun _ _ => .pure trivial
  | «return» keyword value =>
      exact (failsIn_evaluateOption value).bind fun _ _ => .pure trivial
  | «class» name parent methods =>
      have hparent : ∀ reference ∈ parent, P reference.name.span := by
        intro reference hreference
        exact hoperands (.var reference)
          (Option.mem_toList.mpr (Option.mem_map_of_mem Expr.var hreference))
      refine (failsIn_declareClass (hnames name List.mem_cons_self) hparent).bind fun _ _ => ?_
      exact .pure trivial

theorem failsIn_interpret (ss : List Stmt) :
    FailsIn setting P (interpret frame ss) fun _ => True := by
  induction ss with
  | nil => exact .pure trivial
  | cons s ss ih => exact (failsIn_execute s).bind fun _ _ => ih

end Eval

/-! ## Runs -/

namespace World

variable {W : World} {r : Run} {P : Span → Prop}

/-- The names of the functions of the programs have the property. -/
theorem Declares.placed {f : FunctionDecl} (h : W.Declares f)
    (hplaced : Stmt.PlacedIn P W.statements) : P f.name.span := by
  rcases h with h | ⟨d, hd, hf⟩
  · exact hplaced.names _ h f.name List.mem_cons_self
  · refine hplaced.names _ hd f.name (List.mem_cons_of_mem _ ?_)
    exact List.mem_flatMap.mpr ⟨f, hf, List.mem_cons_self⟩

/-- Every round of a run keeps the contract, if all places of the programs have the property. -/
theorem Explains.blaming_kept (h : W.Explains r) (hplaced : Stmt.PlacedIn P W.statements)
    (hvisits : ∀ v ∈ W.visits, ∀ place ∈ v.expr.places, P place) :
    (blaming P).Kept r.setting (r.course.Begins r.setting) := by
  intro task m hbegun _
  -- A task that is begun is about a part of the programs, whose places are known.
  have hround : task.round.FailsIn r.setting P fun _ => True := by
    cases task with
    | evaluate frame e =>
        rcases h.before hbegun with ⟨-, owner, scopes, hparts, -⟩
        exact (Eval.failsIn_valueOf (hvisits _ (hparts e e.mem_parts_self))).map
    | execute frame s =>
        rcases h.before hbegun with ⟨-, owner, scopes, -, hsound, -⟩
        have hs : s ∈ W.statements := hsound.known s s.mem_parts_self
        refine Eval.failsIn_executeRound (hplaced.names s hs) ?_
        intro e he
        exact hplaced.operand hs he e e.mem_parts_self _ List.mem_cons_self
  refine (hround m).and_ends.mono ?_
  rintro result m' ⟨hends, hfault⟩
  rcases result with fault | _ | value
  · exact hfault
  · exact ⟨trivial, fun _ _ hafter => hafter⟩
  · -- A value that a run comes to holds functions that the programs declare.
    cases task with
    | evaluate frame e =>
        intro c hc
        exact (h.declares (.result hbegun (.of_round hends)) c hc).placed hplaced
    | execute frame s =>
        exact trivial

end World

namespace Session

/-- A fault is at a place that the programs of the session keep, those that have run before included. -/
theorem History.fault_place {runs : List Run} {s : Session} {clock : Nat → Except String Float}
    {text : List Char} {r : Run} {fault : Fault} {m : Machine} {P : Span → Prop}
    (h : History runs s) (hr : s.running? clock text = some r)
    (hplaced : Stmt.PlacedIn P (Stmt.partsAll (Run.programOf (runs ++ [r]))))
    (hends : r.course.Ends r.setting (.error fault) m) : P fault.span := by
  have hvisits : ∀ v ∈ Stmt.programVisits (Run.programOf (runs ++ [r])), ∀ place ∈ v.expr.places,
      P place := by
    intro v hv
    refine hplaced.expressions v.expr ?_
    rw [← Stmt.map_expr_visitsAll none []]
    exact List.mem_map_of_mem hv
  have hkept := (h.explains_ofRuns hr).blaming_kept hplaced hvisits
  have hfails : (Eval.interpret r.setting.globals r.statements).FailsIn r.setting P fun _ => True :=
    Eval.failsIn_interpret r.statements
  exact hkept.course_ends (hfails r.machine) hends

end Session

end Lox
