import Lox.Proofs.Eval.Depth
import Lox.Proofs.Eval.World
import Lox.Proofs.Eval.Binding

/-!
# Calls

A call runs the body of a function in a new frame: that of a function value, or that of the
initializer, if a class is called that has one. An expression comes to statements in no other way.

* `Task.Runs` says which function a round runs, with which arguments, and from which machine on.
* `Task.Runs.of_asks` says that an expression asks for statements only there.
* `Task.raises_wrongArgumentCount` says that a call with a wrong number of arguments fails before any
  function is run.
-/

namespace Lox

variable {α β : Type} {setting : Setting}

/-! ## Questions of both parts -/

/-- A course with a second part asks for a task in the first part, or in the second one when the first
one has ended well. -/
theorem Course.Asks.of_bind {c : Course α} {f : α → Machine → Course β} {task : Task} {m : Machine}
    (h : (c.bind f).Asks setting task m) :
    c.Asks setting task m ∨
      ∃ a m', c.Ends setting (.ok a) m' ∧ (f a m').Asks setting task m := by
  induction c with
  | ended result m' =>
      cases result with
      | error fault => cases h
      | ok a => exact .inr ⟨a, m', ⟨0, rfl⟩, h⟩
  | ask task' m' next ih =>
      cases h with
      | now => exact .inl .now
      | later hends hasks =>
          rcases ih _ _ hasks with hfirst | ⟨a, m'', hended, hsecond⟩
          · exact .inl (.later hends hfirst)
          · exact .inr ⟨a, m'', hends.ask hended, hsecond⟩

theorem Course.Asks.of_atEnd {c : Course α} {change : Machine → Machine} {task : Task} {m : Machine}
    (h : (c.atEnd change).Asks setting task m) : c.Asks setting task m := by
  induction c with
  | ended result m' => cases h
  | ask task' m' next ih =>
      cases h with
      | now => exact .now
      | later hends hasks => exact .later hends (ih _ _ hasks)

/-- A course whose end is changed ends there. -/
theorem Course.Ends.atEnd {c : Course α} {change : Machine → Machine} {r : Except Fault α}
    {m : Machine} (h : c.Ends setting r m) : (c.atEnd change).Ends setting r (change m) := by
  rcases h with ⟨fuel, hrun⟩
  refine ⟨fuel, ?_⟩
  induction c with
  | ended result m' =>
      cases hrun
      rfl
  | ask task m' next ih =>
      simp only [Course.atEnd, Course.run] at hrun ⊢
      cases hanswer : perform setting fuel task m' with
      | timeout =>
          rw [hanswer] at hrun
          cases hrun
      | ended result m'' =>
          rw [hanswer] at hrun
          exact ih result m'' hrun

namespace Eval

variable {m m' : Machine} {frame : FrameId} {place : Span} {task : Task}

/-- A step that asks for nothing. -/
def Silent (setting : Setting) (x : Eval α) : Prop :=
  ∀ m task m', ¬(x setting m).Asks setting task m'

namespace Silent

theorem of_ended {x : Eval α} (h : ∀ m, ∃ r m', x setting m = .ended r m') : Silent setting x := by
  intro m task m' hasks
  rcases h m with ⟨r, m'', heq⟩
  rw [heq] at hasks
  cases hasks

theorem bind {x : Eval α} {f : α → Eval β} (hx : Silent setting x)
    (hf : ∀ a, Silent setting (f a)) : Silent setting (x >>= f) := by
  intro m task m' hasks
  rcases hasks.of_bind with hfirst | ⟨a, m'', -, hsecond⟩
  · exact hx m task m' hfirst
  · exact hf a m'' task m' hsecond

theorem pure (a : α) : Silent setting (Pure.pure a) :=
  of_ended fun m => ⟨.ok a, m, rfl⟩

theorem fail (cause : FaultCause) (place : Span) : Silent setting (Eval.fail cause place : Eval α) :=
  of_ended fun m => ⟨_, m, rfl⟩

theorem check (place : Span) (r : Except FaultCause α) : Silent setting (Eval.check place r) := by
  cases r with
  | error cause => exact fail cause place
  | ok a => exact pure a

theorem read (place : Span) (look : Store → Except FaultCause α) :
    Silent setting (Eval.read place look) := by
  refine of_ended fun m => ?_
  unfold Eval.read
  split <;> exact ⟨_, m, rfl⟩

theorem change (step : Store → Store) : Silent setting (Eval.change step) :=
  of_ended fun _ => ⟨.ok (), _, rfl⟩

theorem tryChange (place : Span) (step : Store → Except FaultCause Store) :
    Silent setting (Eval.tryChange place step) := by
  refine of_ended fun m => ?_
  unfold Eval.tryChange
  split <;> exact ⟨_, _, rfl⟩

theorem create (step : Store → α × Store) : Silent setting (Eval.create step) :=
  of_ended fun _ => ⟨.ok _, _, rfl⟩

theorem distance? (id : Nat) : Silent setting (Eval.distance? id) :=
  of_ended fun m => ⟨.ok _, m, rfl⟩

theorem globals : Silent setting Eval.globals :=
  of_ended fun m => ⟨.ok _, m, rfl⟩

theorem readClock (place : Span) : Silent setting (Eval.readClock place) := by
  refine of_ended fun m => ?_
  unfold Eval.readClock
  dsimp only
  split <;> exact ⟨_, _, rfl⟩

theorem lookUp (frame : FrameId) (node : Node) (name : String) :
    Silent setting (Eval.lookUp frame node name) := by
  refine (distance? node.id).bind fun distance => ?_
  cases distance with
  | some distance => exact read _ _
  | none => exact globals.bind fun root => read _ _

theorem assign (frame : FrameId) (target : Reference) (value : Value) :
    Silent setting (Eval.assign frame target value) := by
  refine (distance? target.id).bind fun distance => ?_
  cases distance with
  | some distance => exact tryChange _ _
  | none => exact globals.bind fun root => tryChange _ _

theorem bindMethod (method : Closure) (object : Instance) :
    Silent setting (Eval.bindMethod method object) :=
  (create _).bind fun _ => (change _).bind fun _ => pure _

theorem asInstance (place : Span) (cause : Value → FaultCause) (value : Value) :
    Silent setting (Eval.asInstance place cause value) := by
  cases value with
  | «instance» object => exact pure object
  | _ => exact fail _ _

theorem asClass (place : Span) (value : Value) : Silent setting (Eval.asClass place value) := by
  cases value with
  | «class» cls => exact pure cls
  | _ => exact fail _ _

theorem method (cls : Class) (object : Instance) (name : Ident) :
    Silent setting (Eval.method cls object name) := by
  unfold Eval.method
  cases cls.method? name.name with
  | none => exact fail _ _
  | some method =>
      exact (bindMethod method object).bind fun closure => (create _).bind fun _ => pure _

theorem property (object : Instance) (name : Ident) :
    Silent setting (Eval.property object name) := by
  intro m task m' hasks
  unfold Eval.property at hasks
  split at hasks
  · cases hasks
  · exact method object.cls object name m task m' hasks

theorem superMethod (frame : FrameId) (node : Node) (name : Ident) :
    Silent setting (Eval.superMethod frame node name) := by
  refine (distance? node.id).bind fun distance => ?_
  cases distance with
  | none => exact fail _ _
  | some distance =>
      refine (read _ _).bind fun value => (asClass _ value).bind fun cls => ?_
      cases distance with
      | zero => exact fail _ _
      | succ nearer =>
          exact (read _ _).bind fun receiver => (asInstance _ _ receiver).bind fun object =>
            method cls object name

theorem callResult (closure : Closure) (flow : Flow) :
    Silent setting (Eval.callResult closure flow) := by
  unfold Eval.callResult
  split
  · exact read _ _
  · cases flow <;> exact pure _

end Silent

/-! ## What steps ask for -/

theorem asks_request {task' : Task} (h : (request task' setting m).Asks setting task m') :
    task = task' ∧ m' = m := by
  cases h with
  | now => exact ⟨rfl, rfl⟩
  | later _ hasks => cases hasks

theorem asks_evaluateAll {es : List Expr} : ∀ {m : Machine},
    (evaluateAll frame es setting m).Asks setting task m' → ∃ e ∈ es, task = .evaluate frame e := by
  induction es with
  | nil =>
      intro m h
      cases h
  | cons e es ih =>
      intro m h
      rcases h.of_bind with hfirst | ⟨value, m₁, -, hrest⟩
      · exact ⟨e, List.mem_cons_self, (asks_request hfirst).1⟩
      · rcases hrest.of_bind with hothers | ⟨values, m₂, -, hend⟩
        · rcases ih hothers with ⟨e', he', heq⟩
          exact ⟨e', List.mem_cons_of_mem _ he', heq⟩
        · cases hend

theorem asks_executeAll {ss : List Stmt} : ∀ {m : Machine},
    (executeAll frame ss setting m).Asks setting task m' → ∃ s ∈ ss, task = .execute frame s := by
  induction ss with
  | nil =>
      intro m h
      cases h
  | cons s ss ih =>
      intro m h
      rcases h.of_bind with hfirst | ⟨flow, m₁, -, hrest⟩
      · exact ⟨s, List.mem_cons_self, (asks_request hfirst).1⟩
      · cases flow with
        | returned value => cases hrest
        | normal =>
            rcases ih hrest with ⟨s', hs', heq⟩
            exact ⟨s', List.mem_cons_of_mem _ hs', heq⟩

/-! ## The body of a function -/

/-- Names are bound in a frame one after another. -/
def bindAll (frame : FrameId) (s : Store) (pairs : List (Ident × Value)) : Store :=
  pairs.foldl (fun s p => s.define frame p.1.name p.2) s

/-- The machine on which the body of a function begins: there is a new frame, and the parameters are
bound in it one after another. -/
def entered (closure : Closure) (arguments : List Value) (m : Machine) : Machine :=
  { m with
    store := bindAll m.store.frames.size (m.store.newScope closure.frame).2
      (closure.declaration.parameters.zip arguments) }

theorem asks_run {closure : Closure} {arguments : List Value}
    (h : (run closure arguments setting m).Asks setting task m') :
    (executeAll m.store.frames.size closure.declaration.body setting
      (entered closure arguments m)).Asks setting task m' := by
  rw [run_eq] at h
  rcases h.of_bind with hbody | ⟨flow, m₁, -, hresult⟩
  · exact hbody
  · exact absurd hresult (Silent.callResult closure flow m₁ task m')

end Eval

/-! ## Calls that run a function -/

/-- The function that a call of a value runs. -/
def Value.routine? : Value → Option FunctionDecl
  | .function _ closure => some closure.declaration
  | .class cls => (cls.method? initializerName).map Closure.declaration
  | _ => none

/-- The function that a call of a value runs is one that a statement declares. -/
theorem World.Fits.declares_routine {W : World} {s : Store} {v : Value} {r : FunctionDecl} (h : W.Fits s v)
    (hr : v.routine? = some r) : W.Declares r := by
  cases v with
  | function id closure =>
      cases hr
      rcases h with ⟨⟨owner, scopes, -, hknows⟩, -⟩
      exact hknows.declared
  | «class» cls =>
      rcases Option.map_eq_some_iff.mp hr with ⟨method, hmethod, rfl⟩
      rcases World.ClassFits.method h hmethod with ⟨-, -, d, scopes, -, hknows⟩
      exact hknows.declared
  | _ =>
      cases hr

/-- A round of a task that is begun on a machine runs a function with arguments, from another machine
on. -/
inductive Task.Runs (setting : Setting) : Task → Machine → Closure → List Value → Machine → Prop
  | function {frame : FrameId} {node : Node} {callee : Expr} {arguments : List Expr}
      {m m₁ m₂ : Machine} {id : Nat} {closure : Closure} {values : List Value} :
      (Task.evaluate frame callee).Ends setting m (.ok (.function id closure)) m₁ →
      (Eval.evaluateAll frame arguments).Ends setting m₁ (.ok values) m₂ →
      (Value.function id closure).arity? = some values.length →
      m₂.depth < maxDepth →
        Runs setting (.evaluate frame (.call node callee arguments)) m closure values
          { m₂ with depth := m₂.depth + 1 }
  | construction {frame : FrameId} {node : Node} {callee : Expr} {arguments : List Expr}
      {m m₁ m₂ : Machine} {cls : Class} {values : List Value} {method : Closure} :
      (Task.evaluate frame callee).Ends setting m (.ok (.class cls)) m₁ →
      (Eval.evaluateAll frame arguments).Ends setting m₁ (.ok values) m₂ →
      (Value.class cls).arity? = some values.length →
      m₂.depth < maxDepth →
      cls.method? initializerName = some method →
        Runs setting (.evaluate frame (.call node callee arguments)) m
          { method with frame := m₂.store.frames.size } values (Eval.preparing cls method m₂)

namespace Eval

variable {m m' : Machine} {frame : FrameId} {task : Task}

/-- A call of a value asks for what the body of the function asks for that it runs. -/
theorem runs_of_asks_call {node : Node} {callee : Expr} {arguments : List Expr} {m₁ m₂ : Machine}
    {v : Value} {values : List Value}
    (hcallee : (Task.evaluate frame callee).Ends setting m (.ok v) m₁)
    (harguments : (evaluateAll frame arguments).Ends setting m₁ (.ok values) m₂)
    (hasks : (call node.span v values setting m₂).Asks setting task m') :
    ∃ closure m₀, (Task.evaluate frame (.call node callee arguments)).Runs setting m closure values
        m₀ ∧
      (executeAll m₀.store.frames.size closure.declaration.body setting
        (entered closure values m₀)).Asks setting task m' := by
  -- A call checks that the value can be called, then the number of arguments, then the depth. Where a
  -- check fails, nothing is asked for.
  cases harity : v.arity? with
  | none =>
      rw [call, harity] at hasks
      cases hasks
  | some arity =>
      by_cases hlength : values.length = arity
      · subst hlength
        by_cases hdepth : m₂.depth < maxDepth
        · cases v with
          | function id closure =>
              rw [call_function (Option.some.inj harity).symm hdepth] at hasks
              exact ⟨closure, _, .function hcallee harguments harity hdepth, asks_run hasks.of_atEnd⟩
          | «class» cls =>
              cases hmethod : cls.method? initializerName with
              | some method =>
                  rw [call_class (Option.some.inj harity).symm hdepth hmethod] at hasks
                  rcases hasks.of_atEnd.of_bind with hrun | ⟨a, m₃, -, hend⟩
                  · exact ⟨_, _, .construction hcallee harguments harity hdepth hmethod, asks_run hrun⟩
                  · cases hend
              | none =>
                  -- Without an initializer the instance is made at once.
                  have hsilent : Silent setting (invoke node.span (.class cls) values) := by
                    rw [invoke_class, hmethod]
                    exact (Silent.create _).bind fun _ => .pure _
                  rw [call, harity] at hasks
                  simp only [if_true, nested, Nat.not_le_of_lt hdepth, if_false] at hasks
                  exact absurd hasks.of_atEnd (hsilent _ _ _)
          | native id =>
              rw [call, harity] at hasks
              simp only [if_true, nested, Nat.not_le_of_lt hdepth, if_false] at hasks
              exact absurd hasks.of_atEnd (Silent.readClock node.span _ _ _)
          | _ => cases harity
        · rw [call, harity] at hasks
          simp only [if_true, nested, Nat.le_of_not_lt hdepth] at hasks
          cases hasks
      · rw [call, harity] at hasks
        simp only [if_neg hlength] at hasks
        cases hasks

/-- An expression asks for its operands, and for what a function asks for that it runs. -/
theorem asks_valueOf {e : Expr} (h : (valueOf frame e setting m).Asks setting task m') :
    (∃ e', task = .evaluate frame e') ∨
      ∃ closure values m₀, (Task.evaluate frame e).Runs setting m closure values m₀ ∧
        (executeAll m₀.store.frames.size closure.declaration.body setting
          (entered closure values m₀)).Asks setting task m' := by
  have hoperand : ∀ {e' : Expr} {m₁ : Machine}, (evaluate frame e' setting m₁).Asks setting task m' →
      ∃ e', task = .evaluate frame e' := fun hasks => ⟨_, (asks_request hasks).1⟩
  cases e with
  | literal node literal =>
      exact absurd h (Silent.pure _ _ _ _)
  | group node inner =>
      exact .inl (hoperand h)
  | unary node op operand =>
      rcases h.of_bind with hfirst | ⟨value, m₁, -, hrest⟩
      · exact .inl (hoperand hfirst)
      · exact absurd hrest (Silent.check _ _ _ _ _)
  | binary node op left right =>
      rcases h.of_bind with hfirst | ⟨first, m₁, -, hrest⟩
      · exact .inl (hoperand hfirst)
      rcases hrest.of_bind with hsecond | ⟨second, m₂, -, hend⟩
      · exact .inl (hoperand hsecond)
      · exact absurd hend (Silent.check _ _ _ _ _)
  | logical node op left right =>
      rcases h.of_bind with hfirst | ⟨first, m₁, -, hrest⟩
      · exact .inl (hoperand hfirst)
      dsimp only at hrest
      split at hrest
      · exact absurd hrest (Silent.pure _ _ _ _)
      · exact .inl (hoperand hrest)
  | var target =>
      exact absurd h (Silent.lookUp _ _ _ _ _ _)
  | assign target value =>
      rcases h.of_bind with hfirst | ⟨value, m₁, -, hrest⟩
      · exact .inl (hoperand hfirst)
      · exact absurd hrest (((Silent.assign _ _ _).bind fun _ => .pure _) _ _ _)
  | call node callee arguments =>
      rcases h.of_bind with hfirst | ⟨v, m₁, hcallee, hrest⟩
      · exact .inl (hoperand hfirst)
      rcases hrest.of_bind with hothers | ⟨values, m₂, harguments, hcall⟩
      · rcases asks_evaluateAll hothers with ⟨e', -, heq⟩
        exact .inl ⟨e', heq⟩
      · rcases runs_of_asks_call (.of_request hcallee) harguments hcall with ⟨closure, m₀, hruns, hasks⟩
        exact .inr ⟨closure, values, m₀, hruns, hasks⟩
  | get id object name =>
      rcases h.of_bind with hfirst | ⟨value, m₁, -, hrest⟩
      · exact .inl (hoperand hfirst)
      · exact absurd hrest (((Silent.asInstance _ _ _).bind fun _ => .property _ _) _ _ _)
  | set id object name value =>
      rcases h.of_bind with hfirst | ⟨target, m₁, -, hrest⟩
      · exact .inl (hoperand hfirst)
      rcases hrest.of_bind with hinstance | ⟨object, m₂, -, hrest⟩
      · exact absurd hinstance (Silent.asInstance _ _ _ _ _ _)
      rcases hrest.of_bind with hsecond | ⟨value, m₃, -, hend⟩
      · exact .inl (hoperand hsecond)
      · exact absurd hend (((Silent.change _).bind fun _ => .pure _) _ _ _)
  | this node =>
      exact absurd h (Silent.lookUp _ _ _ _ _ _)
  | super node name =>
      exact absurd h (Silent.superMethod _ _ _ _ _ _)

end Eval

/-- An expression asks for statements only where it runs a function. They stand in its body and are
executed in its frame. -/
theorem Task.Runs.of_asks {frame g : FrameId} {e : Expr} {s : Stmt} {m m' : Machine}
    (h : ((Task.evaluate frame e).round setting m).Asks setting (.execute g s) m') :
    ∃ closure values m₀, (Task.evaluate frame e).Runs setting m closure values m₀ ∧
      g = m₀.store.frames.size ∧ s ∈ closure.declaration.body ∧
      (Eval.executeAll m₀.store.frames.size closure.declaration.body setting
        (Eval.entered closure values m₀)).Asks setting (.execute g s) m' := by
  rcases h.of_bind with hvalue | ⟨value, m₁, -, hend⟩
  · rcases Eval.asks_valueOf hvalue with ⟨e', heq⟩ | ⟨closure, values, m₀, hruns, hasks⟩
    · cases heq
    · rcases Eval.asks_executeAll hasks with ⟨s', hs', heq⟩
      cases heq
      exact ⟨closure, values, m₀, hruns, rfl, hs', hasks⟩
  · cases hend

namespace Task.Runs

/-- Where a function is run, what its body asks for is asked for. -/
theorem asks {task task' : Task} {m m₀ m' : Machine} {closure : Closure} {values : List Value}
    (h : task.Runs setting m closure values m₀)
    (hasks : (Eval.executeAll m₀.store.frames.size closure.declaration.body setting
      (Eval.entered closure values m₀)).Asks setting task' m') :
    (task.round setting m).Asks setting task' m' := by
  -- The body comes before the result of the call.
  have hrun : (Eval.run closure values setting m₀).Asks setting task' m' := by
    rw [Eval.run_eq]
    exact hasks.bind_left
  cases h with
  | @function frame node callee arguments _ _ m₂ id _ _ hcallee harguments harity hdepth =>
      have hcall : (Eval.call node.span (.function id closure) values setting m₂).Asks setting task'
          m' := by
        rw [Eval.call_function (Option.some.inj harity).symm hdepth]
        exact hrun.atEnd
      have hrest := Course.Asks.bind_right
        (f := fun values m => Eval.call node.span (.function id closure) values setting m)
        harguments hcall
      exact .later hcallee hrest.bind_left
  | @construction frame node callee arguments _ _ m₂ cls _ method hcallee harguments harity hdepth
      hmethod =>
      have hcall : (Eval.call node.span (.class cls) values setting m₂).Asks setting task' m' := by
        rw [Eval.call_class (Option.some.inj harity).symm hdepth hmethod]
        exact hrun.bind_left.atEnd
      have hrest := Course.Asks.bind_right
        (f := fun values m => Eval.call node.span (.class cls) values setting m) harguments hcall
      exact .later hcallee hrest.bind_left

variable {frame : FrameId} {node : Node} {callee : Expr} {arguments : List Expr}
  {m m₀ m₁ m₂ : Machine} {v : Value} {values values' : List Value} {closure : Closure}

/-- The operands of a call have one value each, so the call runs no other function, and with no other
arguments. -/
theorem operands
    (h : (Task.evaluate frame (.call node callee arguments)).Runs setting m closure values' m₀)
    (hcallee : (Task.evaluate frame callee).Ends setting m (.ok v) m₁)
    (harguments : (Eval.evaluateAll frame arguments).Ends setting m₁ (.ok values) m₂) :
    values' = values ∧ v.arity? = some values.length ∧ v.routine? = some closure.declaration := by
  cases h with
  | function hcallee' harguments' harity _ =>
      rcases Course.Ends.unique hcallee.request hcallee'.request with ⟨heq, rfl⟩
      rcases Course.Ends.unique harguments harguments' with ⟨heq', -⟩
      cases heq
      cases heq'
      exact ⟨rfl, harity, rfl⟩
  | construction hcallee' harguments' harity _ hmethod =>
      rcases Course.Ends.unique hcallee.request hcallee'.request with ⟨heq, rfl⟩
      rcases Course.Ends.unique harguments harguments' with ⟨heq', -⟩
      cases heq
      cases heq'
      exact ⟨rfl, harity, Option.map_eq_some_iff.mpr ⟨_, hmethod, rfl⟩⟩

/-- A function is run with as many arguments as it has parameters. -/
theorem length {task : Task} (h : task.Runs setting m closure values m₀) :
    values.length = closure.declaration.parameters.length := by
  cases h with
  | function _ _ harity _ =>
      exact (Option.some.inj harity).symm
  | @construction _ _ _ _ _ _ _ cls _ method _ _ harity _ hmethod =>
      have hlength : cls.arity = values.length := Option.some.inj harity
      rw [← hlength, Class.arity, hmethod]
      rfl

end Task.Runs

/-- A value is called with a wrong number of arguments: the call fails with both numbers, on the machine
that the arguments have left, and no function is run. -/
theorem Task.raises_wrongArgumentCount {frame : FrameId} {node : Node} {callee : Expr}
    {arguments : List Expr} {m m₁ m₂ : Machine} {v : Value} {values : List Value} {arity : Nat}
    (hcallee : (Task.evaluate frame callee).Ends setting m (.ok v) m₁)
    (harguments : (Eval.evaluateAll frame arguments).Ends setting m₁ (.ok values) m₂)
    (harity : v.arity? = some arity) (hlength : values.length ≠ arity) :
    (Task.evaluate frame (.call node callee arguments)).Raises setting m
        ⟨.wrongArgumentCount values.length arity, node.span⟩ m₂ ∧
      ∀ closure values' m₀,
        ¬(Task.evaluate frame (.call node callee arguments)).Runs setting m closure values' m₀ := by
  refine ⟨?_, ?_⟩
  · have hcall : Eval.call node.span v values setting m₂ =
        .ended (.error ⟨.wrongArgumentCount values.length arity, node.span⟩) m₂ := by
      rw [Eval.call, harity]
      exact congrFun (congrFun (if_neg hlength) setting) m₂
    have hend : (Eval.call node.span v values setting m₂).Arrives setting
        (.error ⟨.wrongArgumentCount values.length arity, node.span⟩) m₂ := by
      rw [hcall]
      exact .here
    have hvalue : (Eval.valueOf frame (.call node callee arguments) setting m).Arrives setting
        (.error ⟨.wrongArgumentCount values.length arity, node.span⟩) m₂ :=
      (Eval.arrives_request.mpr ⟨v, rfl, hcallee⟩).bind
        ((Eval.arrives_evaluateAll.mpr ⟨values, rfl, harguments⟩).bind hend)
    exact hvalue.bind_error
  · intro closure values' m₀ hruns
    have harity' := (hruns.operands hcallee harguments).2.1
    rw [harity] at harity'
    exact hlength (Option.some.inj harity').symm

end Lox
