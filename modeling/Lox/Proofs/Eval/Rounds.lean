import Lox.Proofs.Eval.Code
import Lox.Proofs.Eval.Course
import Lox.Proofs.Syntax.Nesting

/-!
# What evaluation asks for

What the rounds of tasks ask for, and at which depth of calls. An expression asks for its operands,
and, in a call, for statements one call deeper; a statement asks for expressions and for the
statements directly inside it. No other way leads from one task to another, so every induction along
evaluation follows these steps.

On the way, the depth is kept and all values hold code with a property `P` that passes from a
statement to those inside it.

Main statement: `Task.round_keeps`.
-/

namespace Lox

variable {α β : Type}

namespace Task

/-- A task that executes a statement with the property, if it executes one. -/
def In (P : Stmt → Prop) : Task → Prop
  | .evaluate _ _ => True
  | .execute _ s => P s

/-- The statements that the result of a task holds have the property. -/
def Gives (P : Stmt → Prop) : (task : Task) → task.Result → Prop
  | .evaluate _ _, value => value.CodeIn P
  | .execute _ _, flow => flow.CodeIn P

/-- What a task may ask for. -/
def MayAsk : Task → Task → Prop
  | .evaluate _ e, .evaluate _ part => part ∈ e.operands
  | .evaluate _ e, .execute _ _ => ∃ node callee arguments, e = .call node callee arguments
  | .execute _ _, .evaluate _ _ => True
  | .execute _ s, .execute _ t => t ∈ s.inner

/-- How many calls lie between a task and one it asks for. Only a call leads from an expression to a
statement. -/
def calls : Task → Task → Nat
  | .evaluate _ _, .execute _ _ => 1
  | _, _ => 0

/-- A task whose rounds may follow each other. -/
def IsLoop : Task → Prop
  | .execute _ (.while _ _) => True
  | _ => False

/-- How a round of a task ends: in a result, or without one if the task is a loop. -/
def RoundGives (P : Stmt → Prop) (task : Task) : Option task.Result → Prop
  | some result => task.Gives P result
  | none => task.IsLoop

/-- Tasks that evaluation comes to: at most `maxDepth` deep, and with the property. -/
def Within (P : Stmt → Prop) (task : Task) (depth : Nat) : Prop :=
  task.In P ∧ depth ≤ maxDepth

/-- The tasks, with their depths, that a task at the given depth asks for. -/
structure Asked (P : Stmt → Prop) (task : Task) (depth : Nat) (task' : Task) (depth' : Nat) :
    Prop where
  mayAsk : task.MayAsk task'
  depth : depth' = depth + task.calls task'
  within : task'.Within P depth'

end Task

/-- The contract by which only the tasks in `A` are asked for, at the depths given there. The depth is
kept, and values hold code in `P`. -/
def asking (P : Stmt → Prop) (A : Task → Nat → Prop) : Contract where
  before task m := A task m.depth ∧ m.store.CodeIn P
  after task m r m' := m'.depth = m.depth ∧ m'.store.CodeIn P ∧ ∀ a, r = .ok a → task.Gives P a

/-- A step that is taken at a depth asks only for tasks in `A` and keeps the depth and the code of
values. Its result is as `Q` says. -/
def Eval.Keeps (setting : Setting) (P : Stmt → Prop) (A : Task → Nat → Prop) (depth : Nat)
    (x : Eval α) (Q : α → Prop) : Prop :=
  ∀ m, m.depth = depth → m.store.CodeIn P → (x setting m).Meets setting (asking P A) fun r m' =>
    m'.depth = depth ∧ m'.store.CodeIn P ∧ ∀ a, r = .ok a → Q a

namespace Eval

variable {setting : Setting} {P : Stmt → Prop} {A : Task → Nat → Prop} {depth : Nat} {x : Eval α}
  {Q R : α → Prop}

/-! ## Rules -/

namespace Keeps

theorem pure {a : α} (hq : Q a) : Keeps setting P A depth (Pure.pure a) Q := by
  intro m hdepth hcode
  refine ⟨hdepth, hcode, ?_⟩
  intro b heq
  cases heq
  exact hq

theorem fail {cause : FaultCause} {place : Span} :
    Keeps setting P A depth (Eval.fail cause place) Q := by
  intro m hdepth hcode
  refine ⟨hdepth, hcode, ?_⟩
  intro a heq
  cases heq

theorem bind {f : α → Eval β} {T : β → Prop} (hx : Keeps setting P A depth x Q)
    (hf : ∀ a, Q a → Keeps setting P A depth (f a) T) : Keeps setting P A depth (x >>= f) T := by
  intro m hdepth hcode
  refine Course.Meets.bind ((hx m hdepth hcode).mono ?_)
  intro r m' hpost
  rcases hpost with ⟨hdepth', hcode', hq⟩
  cases r with
  | error fault =>
      exact ⟨hdepth', hcode', fun a heq => nomatch heq⟩
  | ok a =>
      exact hf a (hq a rfl) m' hdepth' hcode'

theorem map {f : α → β} {T : β → Prop} (hx : Keeps setting P A depth x Q)
    (h : ∀ a, Q a → T (f a)) : Keeps setting P A depth (f <$> x) T :=
  hx.bind fun a hq => .pure (h a hq)

theorem mono (hx : Keeps setting P A depth x Q) (h : ∀ a, Q a → R a) :
    Keeps setting P A depth x R := by
  intro m hdepth hcode
  refine (hx m hdepth hcode).mono ?_
  intro r m' hpost
  exact ⟨hpost.1, hpost.2.1, fun a heq => h a (hpost.2.2 a heq)⟩

theorem check {place : Span} {result : Except FaultCause α} (h : ∀ a, result = .ok a → Q a) :
    Keeps setting P A depth (Eval.check place result) Q := by
  cases result with
  | error cause => exact .fail
  | ok a => exact .pure (h a rfl)

theorem read {place : Span} {look : Store → Except FaultCause α}
    (h : ∀ s a, s.CodeIn P → look s = .ok a → Q a) :
    Keeps setting P A depth (Eval.read place look) Q := by
  intro m hdepth hcode
  unfold Eval.read
  cases hlook : look m.store with
  | error cause =>
      exact ⟨hdepth, hcode, fun a heq => nomatch heq⟩
  | ok a =>
      refine ⟨hdepth, hcode, ?_⟩
      intro b heq
      cases heq
      exact h m.store a hcode hlook

theorem change {step : Store → Store} (h : ∀ s, s.CodeIn P → (step s).CodeIn P) :
    Keeps setting P A depth (Eval.change step) fun _ => True :=
  fun m hdepth hcode => ⟨hdepth, h m.store hcode, fun _ _ => trivial⟩

theorem tryChange {place : Span} {step : Store → Except FaultCause Store}
    (h : ∀ s t, s.CodeIn P → step s = .ok t → t.CodeIn P) :
    Keeps setting P A depth (Eval.tryChange place step) fun _ => True := by
  intro m hdepth hcode
  unfold Eval.tryChange
  cases hstep : step m.store with
  | error cause =>
      exact ⟨hdepth, hcode, fun _ _ => trivial⟩
  | ok t =>
      exact ⟨hdepth, h m.store t hcode hstep, fun _ _ => trivial⟩

theorem create {step : Store → α × Store} (h : ∀ s, s.CodeIn P → (step s).2.CodeIn P)
    (hq : ∀ s, Q (step s).1) : Keeps setting P A depth (Eval.create step) Q := by
  intro m hdepth hcode
  refine ⟨hdepth, h m.store hcode, ?_⟩
  intro a heq
  cases heq
  exact hq m.store

theorem print {line : String} : Keeps setting P A depth (Eval.print line) fun _ => True :=
  fun _ hdepth hcode => ⟨hdepth, hcode, fun _ _ => trivial⟩

theorem distance? {id : Nat} : Keeps setting P A depth (Eval.distance? id) fun _ => True :=
  fun _ hdepth hcode => ⟨hdepth, hcode, fun _ _ => trivial⟩

theorem globals : Keeps setting P A depth Eval.globals fun _ => True :=
  fun _ hdepth hcode => ⟨hdepth, hcode, fun _ _ => trivial⟩

theorem readClock {place : Span} :
    Keeps setting P A depth (Eval.readClock place) (Value.CodeIn P) := by
  intro m hdepth hcode
  unfold Eval.readClock
  cases setting.clock m.readings with
  | error reason =>
      exact ⟨hdepth, hcode, fun a heq => nomatch heq⟩
  | ok seconds =>
      refine ⟨hdepth, hcode, ?_⟩
      intro a heq
      cases heq
      exact Value.codeIn_of_code_eq_nil rfl

/-- One call deeper there is still room, and the depth is restored however the step ends. -/
theorem nested {place : Span} (hx : depth < maxDepth → Keeps setting P A (depth + 1) x Q) :
    Keeps setting P A depth (Eval.nested place x) Q := by
  intro m hdepth hcode
  unfold Eval.nested
  split
  · -- There is no room, so the step is not taken.
    exact ⟨hdepth, hcode, fun a heq => nomatch heq⟩
  · rename_i hroom
    have hlt : depth < maxDepth := hdepth ▸ Nat.lt_of_not_le hroom
    have hinner := hx hlt { m with depth := m.depth + 1 } (congrArg (· + 1) hdepth) hcode
    refine Course.Meets.atEnd (hinner.mono ?_)
    intro r m' hpost
    rcases hpost with ⟨hdepth', hcode', hq⟩
    refine ⟨?_, hcode', hq⟩
    rw [leave, hdepth', Nat.add_sub_cancel]

end Keeps

/-! ## Tasks -/

variable {frame : FrameId}

theorem keeps_evaluate {e : Expr} (h : A (.evaluate frame e) depth) :
    Keeps setting P A depth (evaluate frame e) (Value.CodeIn P) := by
  intro m hdepth hcode
  subst hdepth
  exact ⟨⟨h, hcode⟩, fun _ _ _ hafter => hafter⟩

theorem keeps_execute {s : Stmt} (h : A (.execute frame s) depth) :
    Keeps setting P A depth (execute frame s) (Flow.CodeIn P) := by
  intro m hdepth hcode
  subst hdepth
  exact ⟨⟨h, hcode⟩, fun _ _ _ hafter => hafter⟩

theorem keeps_evaluateAll {es : List Expr} (h : ∀ e ∈ es, A (.evaluate frame e) depth) :
    Keeps setting P A depth (evaluateAll frame es) fun values => ∀ v ∈ values, v.CodeIn P := by
  induction es with
  | nil =>
      exact .pure fun _ hv => nomatch hv
  | cons e es ih =>
      rw [evaluateAll]
      refine (keeps_evaluate (h e List.mem_cons_self)).bind ?_
      intro value hvalue
      refine (ih fun e' he => h e' (List.mem_cons_of_mem _ he)).bind ?_
      intro values hvalues
      exact .pure (List.forall_mem_cons.mpr ⟨hvalue, hvalues⟩)

theorem keeps_evaluateOption {e? : Option Expr} (h : ∀ e ∈ e?, A (.evaluate frame e) depth) :
    Keeps setting P A depth (evaluateOption frame e?) (Value.CodeIn P) := by
  cases e? with
  | none => exact .pure (Value.codeIn_of_code_eq_nil rfl)
  | some e => exact keeps_evaluate (h e rfl)

theorem keeps_executeAll {ss : List Stmt} (h : ∀ s ∈ ss, A (.execute frame s) depth) :
    Keeps setting P A depth (executeAll frame ss) (Flow.CodeIn P) := by
  induction ss with
  | nil =>
      exact .pure fun _ ht => nomatch ht
  | cons s ss ih =>
      rw [executeAll]
      refine (keeps_execute (h s List.mem_cons_self)).bind ?_
      intro flow hflow
      cases flow with
      | returned value => exact .pure hflow
      | normal => exact ih fun s' hs => h s' (List.mem_cons_of_mem _ hs)

/-! ## Variables -/

theorem keeps_getAt {place : Span} {d : Nat} {name : String} :
    Keeps setting P A depth (read place fun store => store.getAt frame d name) (Value.CodeIn P) :=
  .read fun _ _ hcode hv => hcode.of_getAt hv

theorem keeps_lookUp {node : Node} {name : String} :
    Keeps setting P A depth (lookUp frame node name) (Value.CodeIn P) := by
  refine Keeps.distance?.bind ?_
  intro distance _
  cases distance with
  | some distance =>
      exact keeps_getAt
  | none =>
      refine Keeps.globals.bind ?_
      intro root _
      exact .read fun _ _ hcode hv => hcode.of_get hv

theorem keeps_assign {target : Reference} {value : Value} (hvalue : value.CodeIn P) :
    Keeps setting P A depth (assign frame target value) fun _ => True := by
  refine Keeps.distance?.bind ?_
  intro distance _
  cases distance with
  | some distance =>
      exact .tryChange fun _ _ hcode ht => hcode.assignAt hvalue ht
  | none =>
      refine Keeps.globals.bind ?_
      intro root _
      exact .tryChange fun _ _ hcode ht => hcode.assign hvalue ht

theorem keeps_define {name : String} {value : Value} (hvalue : value.CodeIn P) :
    Keeps setting P A depth (change fun store => store.define frame name value) fun _ => True :=
  .change fun _ hcode => hcode.define hvalue

theorem keeps_newScope :
    Keeps setting P A depth (create fun store => store.newScope frame) fun _ => True :=
  .create (fun _ hcode => hcode.addFrame) fun _ => trivial

/-! ## Functions and instances -/

theorem keeps_makeFunction {closure : Closure} (h : closure.CodeIn P) :
    Keeps setting P A depth (makeFunction closure) (Value.CodeIn P) := by
  have hid : Keeps setting P A depth (create Store.fresh) fun _ => True :=
    .create (fun _ hcode => hcode.fresh) fun _ => trivial
  exact hid.bind fun id _ => .pure h

theorem keeps_bindMethod {method : Closure} {object : Instance} (h : method.CodeIn P)
    (hobject : object.cls.CodeIn P) :
    Keeps setting P A depth (bindMethod method object) (Closure.CodeIn P) := by
  refine keeps_newScope.bind ?_
  intro frame _
  have hvalue : (Value.instance object).CodeIn P := hobject
  exact (keeps_define hvalue).bind fun _ _ => .pure h

theorem keeps_asInstance {place : Span} {cause : Value → FaultCause} {value : Value}
    (h : value.CodeIn P) :
    Keeps setting P A depth (asInstance place cause value) fun object => object.cls.CodeIn P := by
  cases value with
  | «instance» object => exact .pure h
  | _ => exact .fail

theorem keeps_asClass {place : Span} {value : Value} (h : value.CodeIn P) :
    Keeps setting P A depth (asClass place value) (Class.CodeIn P) := by
  cases value with
  | «class» cls => exact .pure h
  | _ => exact .fail

theorem keeps_method {cls : Class} {object : Instance} {name : Ident} (h : cls.CodeIn P)
    (hobject : object.cls.CodeIn P) :
    Keeps setting P A depth (method cls object name) (Value.CodeIn P) := by
  unfold method
  cases hmethod : cls.method? name.name with
  | none =>
      exact .fail
  | some method =>
      have hcode : method.CodeIn P := fun t ht => h t (Class.body_subset_code hmethod ht)
      exact (keeps_bindMethod hcode hobject).bind fun _ hbound => keeps_makeFunction hbound

theorem keeps_property {object : Instance} {name : Ident} (h : object.cls.CodeIn P) :
    Keeps setting P A depth (property object name) (Value.CodeIn P) := by
  intro m hdepth hcode
  unfold property
  cases hfield : m.store.field? object name.name with
  | none =>
      exact keeps_method h h m hdepth hcode
  | some value =>
      exact Keeps.pure (hcode.fields object name.name value hfield) m hdepth hcode

theorem keeps_superMethod {node : Node} {name : Ident} :
    Keeps setting P A depth (superMethod frame node name) (Value.CodeIn P) := by
  refine Keeps.distance?.bind ?_
  intro distance _
  cases distance with
  | none =>
      exact .fail
  | some distance =>
      refine keeps_getAt.bind ?_
      intro value hvalue
      refine (keeps_asClass hvalue).bind ?_
      intro cls hcls
      -- The instance is bound one step nearer than the class, so not at distance zero.
      cases distance with
      | zero =>
          exact .fail
      | succ nearer =>
          refine keeps_getAt.bind ?_
          intro receiver hreceiver
          refine (keeps_asInstance hreceiver).bind ?_
          intro object hobject
          exact keeps_method hcls hobject

/-! ## Calls -/

theorem keeps_bindArguments {parameters : List Ident} {arguments : List Value}
    (h : ∀ v ∈ arguments, v.CodeIn P) :
    Keeps setting P A depth (bindArguments frame parameters arguments) fun _ => True := by
  refine .change ?_
  -- The names are bound in order, up to the end of the shorter list.
  induction parameters generalizing arguments with
  | nil =>
      intro s hcode
      exact hcode
  | cons parameter parameters ih =>
      intro s hcode
      cases arguments with
      | nil =>
          exact hcode
      | cons value values =>
          rcases List.forall_mem_cons.mp h with ⟨hvalue, hvalues⟩
          exact ih hvalues _ (hcode.define hvalue)

theorem keeps_callResult {closure : Closure} {flow : Flow} (h : flow.CodeIn P) :
    Keeps setting P A depth (callResult closure flow) (Value.CodeIn P) := by
  unfold callResult
  split
  · exact keeps_getAt
  · cases flow with
    | returned value => exact .pure h
    | normal => exact .pure (Value.codeIn_of_code_eq_nil rfl)

theorem keeps_run {closure : Closure} {arguments : List Value} (hcode : closure.CodeIn P)
    (harguments : ∀ v ∈ arguments, v.CodeIn P)
    (h : ∀ frame s, P s → A (.execute frame s) depth) :
    Keeps setting P A depth (run closure arguments) (Value.CodeIn P) := by
  refine keeps_newScope.bind ?_
  intro frame _
  refine (keeps_bindArguments harguments).bind ?_
  intro _ _
  refine (keeps_executeAll fun s hs => h frame s (hcode s hs)).bind ?_
  intro flow hflow
  exact keeps_callResult hflow

theorem keeps_invoke {place : Span} {callee : Value} {arguments : List Value}
    (hcallee : callee.CodeIn P) (harguments : ∀ v ∈ arguments, v.CodeIn P)
    (h : ∀ frame s, P s → A (.execute frame s) depth) :
    Keeps setting P A depth (invoke place callee arguments) (Value.CodeIn P) := by
  cases callee with
  | native id =>
      exact .readClock
  | function id closure =>
      exact keeps_run hcallee harguments h
  | «class» cls =>
      have hcls : cls.CodeIn P := hcallee
      have hobject : Keeps setting P A depth (create fun store => store.newInstance cls)
          fun object => object.cls.CodeIn P :=
        .create (fun _ hcode => hcode.newInstance) fun _ => hcls
      refine hobject.bind ?_
      intro object hobject
      cases hmethod : cls.method? initializerName with
      | none =>
          exact .pure hobject
      | some method =>
          have hcode : method.CodeIn P := fun t ht => hcls t (Class.body_subset_code hmethod ht)
          refine (keeps_bindMethod hcode hobject).bind ?_
          -- What the initializer gives is dropped: the value of the call is the instance.
          intro initializer hinitializer
          refine (keeps_run hinitializer harguments h).bind ?_
          intro _ _
          exact .pure hobject
  | _ =>
      exact .fail

theorem keeps_call {place : Span} {callee : Value} {arguments : List Value}
    (hcallee : callee.CodeIn P) (harguments : ∀ v ∈ arguments, v.CodeIn P)
    (h : depth < maxDepth → ∀ frame s, P s → A (.execute frame s) (depth + 1)) :
    Keeps setting P A depth (call place callee arguments) (Value.CodeIn P) := by
  unfold call
  split
  · exact .fail
  · -- Only a call with the right number of arguments goes deeper.
    split
    · exact .nested fun hroom => keeps_invoke hcallee harguments (h hroom)
    · exact .fail

/-! ## Expressions -/

theorem keeps_valueOf {e : Expr} (h : ∀ part ∈ e.operands, A (.evaluate frame part) depth)
    (hcall : ∀ node callee arguments, e = .call node callee arguments → depth < maxDepth →
      ∀ frame s, P s → A (.execute frame s) (depth + 1)) :
    Keeps setting P A depth (valueOf frame e) (Value.CodeIn P) := by
  cases e with
  | literal node value =>
      exact .pure (Value.codeIn_of_code_eq_nil value.code_value)
  | group node inner =>
      exact keeps_evaluate (h inner List.mem_cons_self)
  | unary node op operand =>
      refine (keeps_evaluate (h operand List.mem_cons_self)).bind ?_
      intro value _
      exact .check fun _ heq => Value.codeIn_of_code_eq_nil (UnaryOp.code_apply heq)
  | binary node op left right =>
      refine (keeps_evaluate (h left (by simp [Expr.operands]))).bind ?_
      intro first _
      refine (keeps_evaluate (h right (by simp [Expr.operands]))).bind ?_
      intro second _
      exact .check fun _ heq => Value.codeIn_of_code_eq_nil (BinaryOp.code_apply heq)
  | logical node op left right =>
      refine (keeps_evaluate (h left (by simp [Expr.operands]))).bind ?_
      intro first hfirst
      split
      · exact .pure hfirst
      · exact keeps_evaluate (h right (by simp [Expr.operands]))
  | var target =>
      exact keeps_lookUp
  | assign target value =>
      refine (keeps_evaluate (h value List.mem_cons_self)).bind ?_
      intro v hv
      exact (keeps_assign hv).bind fun _ _ => .pure hv
  | call node callee arguments =>
      refine (keeps_evaluate (h callee List.mem_cons_self)).bind ?_
      intro value hvalue
      refine (keeps_evaluateAll fun e he => h e (List.mem_cons_of_mem _ he)).bind ?_
      intro values hvalues
      exact keeps_call hvalue hvalues (hcall node callee arguments rfl)
  | get id object name =>
      refine (keeps_evaluate (h object List.mem_cons_self)).bind ?_
      intro value hvalue
      exact (keeps_asInstance hvalue).bind fun _ hobject => keeps_property hobject
  | set id object name value =>
      refine (keeps_evaluate (h object (by simp [Expr.operands]))).bind ?_
      intro target htarget
      refine (keeps_asInstance htarget).bind ?_
      intro instance' _
      refine (keeps_evaluate (h value (by simp [Expr.operands]))).bind ?_
      intro v hv
      exact (Keeps.change fun _ hcode => hcode.setField hv).bind fun _ _ => .pure hv
  | this node =>
      exact keeps_lookUp
  | super node name =>
      exact keeps_superMethod

/-! ## Classes -/

theorem keeps_parentClass {parent : Option Reference}
    (h : ∀ e, A (.evaluate frame e) depth) :
    Keeps setting P A depth (parentClass frame parent) fun superclass =>
      ∀ cls ∈ superclass, cls.CodeIn P := by
  cases parent with
  | none =>
      exact .pure fun _ hcls => nomatch hcls
  | some parent =>
      refine (keeps_evaluate (h (.var parent))).bind ?_
      intro value hvalue
      refine (keeps_asClass hvalue).map ?_
      intro cls hcls cls' hmem
      cases hmem
      exact hcls

theorem keeps_methodFrame {superclass : Option Class} (h : ∀ cls ∈ superclass, cls.CodeIn P) :
    Keeps setting P A depth (methodFrame frame superclass) fun _ => True := by
  cases superclass with
  | none =>
      exact .pure trivial
  | some cls =>
      refine keeps_newScope.bind ?_
      intro inner _
      have hvalue : (Value.class cls).CodeIn P := h cls rfl
      exact (keeps_define hvalue).bind fun _ _ => .pure trivial

theorem keeps_declareClass {name : Ident} {parent : Option Reference} {methods : List FunctionDecl}
    (hmethods : ∀ t ∈ methods.flatMap Routine.body, P t) (h : ∀ e, A (.evaluate frame e) depth) :
    Keeps setting P A depth (declareClass frame name parent methods) fun _ => True := by
  have hmake : Keeps setting P A depth (makeClass frame name parent methods) fun made =>
      made.2.CodeIn P := by
    refine (keeps_define (Value.codeIn_of_code_eq_nil rfl)).bind ?_
    intro _ _
    refine (keeps_parentClass h).bind ?_
    intro superclass hsuperclass
    refine (keeps_methodFrame hsuperclass).bind ?_
    intro inner _
    have hid : Keeps setting P A depth (create Store.fresh) fun _ => True :=
      .create (fun _ hcode => hcode.fresh) fun _ => trivial
    refine hid.bind ?_
    intro id _
    refine .pure ?_
    -- A statement of the class comes from one of its methods or from the superclass.
    intro t ht
    rcases mem_code_make ht with ht | ⟨cls, hcls, ht⟩
    · exact hmethods t ht
    · exact hsuperclass cls hcls t ht
  refine hmake.bind ?_
  intro made hmade
  have hvalue : (Value.class made.2).CodeIn P := hmade
  exact .tryChange fun _ _ hcode ht => hcode.assign hvalue ht

/-! ## Statements -/

theorem keeps_loopRound {condition : Expr} {body : Stmt}
    (hcondition : A (.evaluate frame condition) depth) (hbody : A (.execute frame body) depth) :
    Keeps setting P A depth (loopRound frame condition body)
      ((Task.execute frame (.while condition body)).RoundGives P) := by
  refine (keeps_evaluate hcondition).bind ?_
  intro value _
  split
  · -- The body runs, and unless it returns another round follows.
    refine (keeps_execute hbody).bind ?_
    intro flow hflow
    cases flow with
    | returned value => exact .pure hflow
    | normal => exact .pure trivial
  · exact .pure fun _ ht => nomatch ht

/-- A statement that ends with the given step lets the next one follow. -/
theorem keeps_normal {s : Stmt} (hx : Keeps setting P A depth x fun _ => True) :
    Keeps setting P A depth (x >>= fun _ => Pure.pure (some Flow.normal))
      ((Task.execute frame s).RoundGives P) :=
  hx.bind fun _ _ => .pure fun _ ht => nomatch ht

theorem keeps_executeRound {s : Stmt} (hcode : ∀ t ∈ s.inner, P t)
    (hevaluate : ∀ e, A (.evaluate frame e) depth)
    (hexecute : ∀ frame, ∀ t ∈ s.inner, A (.execute frame t) depth) :
    Keeps setting P A depth (executeRound frame s) ((Task.execute frame s).RoundGives P) := by
  cases s with
  | expression e =>
      exact keeps_normal ((keeps_evaluate (hevaluate e)).mono fun _ _ => trivial)
  | print e =>
      exact (keeps_evaluate (hevaluate e)).bind fun _ _ => keeps_normal .print
  | var name initial =>
      refine (keeps_evaluateOption fun e _ => hevaluate e).bind ?_
      intro value hvalue
      exact keeps_normal (keeps_define hvalue)
  | block body =>
      refine keeps_newScope.bind ?_
      intro inner _
      exact (keeps_executeAll (hexecute inner)).map fun _ hflow => hflow
  | ifElse condition consequent alternative =>
      refine (keeps_evaluate (hevaluate condition)).bind ?_
      intro value _
      split
      · exact (keeps_execute (hexecute frame consequent List.mem_cons_self)).map fun _ hflow => hflow
      · cases alternative with
        | none =>
            exact .pure fun _ ht => nomatch ht
        | some s =>
            refine (keeps_execute (hexecute frame s ?_)).map fun _ hflow => hflow
            exact List.mem_cons_of_mem _ List.mem_cons_self
  | «while» condition body =>
      exact keeps_loopRound (hevaluate condition) (hexecute frame body List.mem_cons_self)
  | function decl =>
      have hclosure : (⟨decl, frame, false⟩ : Closure).CodeIn P := hcode
      refine (keeps_makeFunction hclosure).bind ?_
      intro value hvalue
      exact keeps_normal (keeps_define hvalue)
  | «return» keyword value =>
      exact (keeps_evaluateOption fun e _ => hevaluate e).bind fun _ hvalue => .pure hvalue
  | «class» name parent methods =>
      exact keeps_normal (keeps_declareClass hcode hevaluate)

end Eval

/-- What a round of a task asks for, and how it ends. -/
theorem Task.round_keeps {setting : Setting} {P : Stmt → Prop} (hP : Stmt.Hereditary P)
    {task : Task} {depth : Nat} (hwithin : task.Within P depth) :
    task.round.Keeps setting P (task.Asked P depth) depth (task.RoundGives P) := by
  rcases hwithin with ⟨hin, hdepth⟩
  cases task with
  | evaluate frame e =>
      refine (Eval.keeps_valueOf ?_ ?_).map fun _ hvalue => hvalue
      · intro part hpart
        exact ⟨hpart, rfl, trivial, hdepth⟩
      · intro node callee arguments heq hroom frame s hs
        exact ⟨⟨node, callee, arguments, heq⟩, rfl, hs, hroom⟩
  | execute frame s =>
      have hinner : ∀ t ∈ s.inner, P t := fun t ht => hP s t hin ht
      refine Eval.keeps_executeRound hinner ?_ ?_
      · intro e
        exact ⟨trivial, rfl, trivial, hdepth⟩
      · intro frame' t ht
        exact ⟨ht, rfl, hinner t ht, hdepth⟩

end Lox
