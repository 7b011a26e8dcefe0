import Lox.Proofs.Eval.Return
import Lox.Proofs.Session.Arguments

/-!
# Where a return ends

A return ends the body of the function it stands in, and the call gives a value. It passes no other
call, so it ends no statement outside the function, and no statement of a program itself ever returns.

Main statement: `Session.History.return_ends_one_call`.
-/

namespace Lox

variable {α β : Type} {setting : Setting} {m m' m₀ m₁ : Machine} {frame : FrameId}

/-- What a call gives whose body ends in a flow, if the function is no initializer. -/
def Flow.value : Flow → Value
  | .returned value => value
  | .normal => .nil

/-! ## From a body to its call -/

namespace Eval

/-- Statements that follow each other end in a return where one of them does. -/
theorem ends_executeAll_of_asks {ss : List Stmt} {g : FrameId} {s : Stmt} {v : Value} :
    ∀ {m : Machine}, (executeAll frame ss setting m).Asks setting (.execute g s) m₁ →
      (Task.execute g s).Ends setting m₁ (.ok (.returned v)) m' →
        (executeAll frame ss).Ends setting m (.ok (.returned v)) m' := by
  induction ss with
  | nil =>
      intro m hasks _
      cases hasks
  | cons first ss ih =>
      intro m hasks hends
      rcases hasks.of_bind with hfirst | ⟨flow, m₂, hflow, hrest⟩
      · rcases asks_request hfirst with ⟨heq, rfl⟩
        cases heq
        exact hends.request.bind ⟨0, rfl⟩
      · cases flow with
        | returned value => cases hrest
        | normal => exact Ends.bind hflow (ih hrest hends)

/-- The value of a call is found where the body has left the machine. -/
theorem ends_run {closure : Closure} {values : List Value} {flow : Flow} {value : Value}
    (hbody : (runBody closure values).Ends setting m (.ok flow) m')
    (hresult : callResult closure flow setting m' = .ended (.ok value) m') :
    (run closure values).Ends setting m (.ok value) m' := by
  rw [run_eq]
  refine hbody.bind ⟨0, ?_⟩
  rw [hresult]
  rfl

theorem callResult_plain {closure : Closure} (h : closure.isInitializer = false) (flow : Flow) :
    callResult closure flow setting m = .ended (.ok flow.value) m := by
  unfold callResult
  rw [if_neg (Bool.eq_false_iff.mp h)]
  cases flow <;> rfl

theorem callResult_initializer {closure : Closure} {value : Value}
    (h : closure.isInitializer = true) (flow : Flow)
    (hvalue : m.store.getAt closure.frame 0 thisName = .ok value) :
    callResult closure flow setting m = .ended (.ok value) m := by
  unfold callResult
  rw [if_pos h, read, hvalue]

/-- A call has a value if what is called gives one. -/
theorem ends_call_of_arguments {node : Node} {callee : Expr} {arguments : List Expr} {v value : Value}
    {values : List Value} {m₂ : Machine}
    (hcallee : (Task.evaluate frame callee).Ends setting m (.ok v) m₁)
    (harguments : (evaluateAll frame arguments).Ends setting m₁ (.ok values) m₂)
    (hcall : (call node.span v values).Ends setting m₂ (.ok value) m') :
    (Task.evaluate frame (.call node callee arguments)).Ends setting m (.ok value) m' :=
  .of_valueOf (Ends.bind hcallee.request (Ends.bind harguments hcall))

end Eval

/-- The program itself goes on after a statement that returns. It makes no difference if none does. -/
theorem Eval.ends_interpret_iff {ss : List Stmt}
    (hnever : ∀ s ∈ ss, ∀ m v m', ¬(Task.execute frame s).Ends setting m (.ok (.returned v)) m')
    {result : Except Fault Unit} : ∀ {m : Machine},
      (interpret frame ss).Ends setting m result m' ↔
        (executeAll frame ss).Ends setting m (result.map fun _ => .normal) m' := by
  induction ss with
  | nil =>
      intro m
      constructor
      · intro h
        rcases ends_pure h with ⟨rfl, rfl⟩
        exact ⟨0, rfl⟩
      · intro h
        rcases ends_pure h with ⟨heq, rfl⟩
        cases result with
        | error fault => cases heq
        | ok a => exact ⟨0, rfl⟩
  | cons s ss ih =>
      intro m
      have hothers := @ih fun s' hs' => hnever s' (List.mem_cons_of_mem _ hs')
      constructor
      · intro h
        rcases h.of_bind with ⟨fault, rfl, hfault⟩ | ⟨flow, m₁, hfirst, hrest⟩
        · exact Ends.bind_error hfault
        · cases flow with
          | returned value =>
              exact absurd (Task.Ends.of_request hfirst) (hnever s List.mem_cons_self _ _ _)
          | normal => exact Ends.bind hfirst (hothers.mp hrest)
      · intro h
        rcases h.of_bind with ⟨fault, heq, hfault⟩ | ⟨flow, m₁, hfirst, hrest⟩
        · cases result with
          | error fault' =>
              cases heq
              exact Ends.bind_error hfault
          | ok a => cases heq
        · cases flow with
          | returned value =>
              exact absurd (Task.Ends.of_request hfirst) (hnever s List.mem_cons_self _ _ _)
          | normal => exact Ends.bind hfirst (hothers.mpr hrest)

namespace Session

variable {runs : List Run} {s : Session} {clock : Nat → Except String Float} {text : List Char}
  {r : Run} {e : Expr} {closure : Closure} {values : List Value} {flow : Flow}

/-- When the body of a function has ended, the call has a value: that of the flow, or the instance if
the function is an initializer. -/
theorem History.ends_of_runs (h : History runs s) (hr : s.running? clock text = some r)
    (hbegun : r.Begins (.evaluate frame e) m)
    (hruns : (Task.evaluate frame e).Runs r.setting m closure values m₀)
    (hbody : (Eval.runBody closure values).Ends r.setting m₀ (.ok flow) m₁) :
    ∃ value, (Task.evaluate frame e).Ends r.setting m (.ok value) (Eval.leave m₁) ∧
      (closure.isInitializer = false → value = flow.value) ∧
      (closure.isInitializer = true → ∃ object, value = .instance object ∧
        m₁.store.getAt closure.frame 0 thisName = .ok value) := by
  cases hruns with
  | @function _ node callee arguments _ _ m₂ id _ _ hcallee harguments harity hdepth =>
      have hlength : values.length = closure.arity := (Option.some.inj harity).symm
      have hends : ∀ value, (Eval.run closure values).Ends r.setting { m₂ with depth := m₂.depth + 1 }
          (.ok value) m₁ → (Task.evaluate frame (.call node callee arguments)).Ends r.setting m
            (.ok value) (Eval.leave m₁) := by
        intro value hrun
        refine Eval.ends_call_of_arguments hcallee harguments ?_
        rw [Eval.Ends, Eval.call_function hlength hdepth]
        exact Course.Ends.atEnd hrun
      cases hinitializer : closure.isInitializer with
      | false =>
          refine ⟨flow.value, hends _ (Eval.ends_run hbody (Eval.callResult_plain hinitializer _)),
            fun _ => rfl, ?_⟩
          intro hinitializer
          cases hinitializer
      | true =>
          -- Only a method that was bound is an initializer, and its frame still binds the instance.
          have hfits := (h.fits_operands hr hbegun hcallee harguments).2.2.1
          rcases hfits with ⟨-, ⟨-, hplain⟩ | ⟨method, object, hreceives, heq⟩⟩
          · rw [hinitializer] at hplain
            cases hplain
          rcases hreceives.bound with ⟨r₀, hr₀, hbinds⟩
          have hname : closure.name = initializerName := by
            rw [heq] at hinitializer ⊢
            exact beq_iff_eq.mp (hreceives.initializer.symm.trans hinitializer)
          rcases h.call_function_gives hr hbegun hcallee harguments hr₀ hbinds hname with
            ⟨-, hfinds, -⟩
          have hvalue := hfinds hlength hdepth flow m₁ hbody
          refine ⟨.instance object, hends _ (Eval.ends_run hbody
            (Eval.callResult_initializer hinitializer _ hvalue)), ?_, fun _ => ⟨object, rfl, hvalue⟩⟩
          intro hplain
          cases hplain
  | @construction _ node callee arguments _ _ m₂ cls _ method hcallee harguments harity hdepth
      hmethod =>
      have hlength : values.length = cls.arity := (Option.some.inj harity).symm
      rcases h.call_class_gives hr hbegun hcallee harguments hmethod hlength hdepth with
        ⟨-, hinitializer, hfinds⟩
      have hvalue := hfinds flow m₁ hbody
      -- The initializer runs in the frame that binds the new instance, and gives it back.
      have hbound : ({ method with frame := m₂.store.frames.size } : Closure).isInitializer = true :=
        hinitializer
      have hrun := Eval.ends_run hbody (Eval.callResult_initializer hbound _ hvalue)
      refine ⟨.instance ⟨m₂.store.fields.size, cls⟩, ?_, ?_, fun _ => ⟨_, rfl, hvalue⟩⟩
      · refine Eval.ends_call_of_arguments hcallee harguments ?_
        rw [Eval.Ends, Eval.call_class hlength hdepth hmethod]
        have hclass := Eval.Ends.bind (f := fun _ =>
          (pure (.instance ⟨m₂.store.fields.size, cls⟩) : Eval Value)) hrun ⟨0, rfl⟩
        exact Course.Ends.atEnd hclass
      · intro hplain
        rw [hinitializer] at hplain
        cases hplain

/-- A statement returns only if it holds a `return`, in no function or method that it declares, which is
executed last for it in the same call. A statement that is executed for an expression stands in the
body of a function that is called; if it returns, the call has a value, and nothing outside the function
has ended. No statement of a program itself ever returns, so the program goes on as its statements do
one after another. -/
theorem History.return_ends_one_call (h : History runs s) (hr : s.running? clock text = some r) :
    (∀ frame stmt m v m', r.Begins (.execute frame stmt) m →
      (Task.execute frame stmt).Ends r.setting m (.ok (.returned v)) m' →
        ∃ g keyword value m₀, .return keyword value ∈ stmt.here ∧
          stmt.Last r.setting frame m g (.return keyword value) m₀ ∧
          (Task.execute g (.return keyword value)).Ends r.setting m₀ (.ok (.returned v)) m') ∧
    (∀ frame e m g stmt m₀ v m₁, r.Begins (.evaluate frame e) m →
      ((Task.evaluate frame e).round r.setting m).Asks r.setting (.execute g stmt) m₀ →
      (Task.execute g stmt).Ends r.setting m₀ (.ok (.returned v)) m₁ →
        ∃ closure values m₂ value, (Task.evaluate frame e).Runs r.setting m closure values m₂ ∧
          stmt ∈ closure.declaration.body ∧
          (Task.evaluate frame e).Ends r.setting m (.ok value) (Eval.leave m₁) ∧
          (closure.isInitializer = false → value = v) ∧
          (closure.isInitializer = true → ∃ object, value = .instance object ∧
            m₁.store.getAt closure.frame 0 thisName = .ok value)) ∧
    (∀ stmt ∈ r.statements, ∀ frame m v m',
      ¬(Task.execute frame stmt).Ends r.setting m (.ok (.returned v)) m') ∧
    ∀ result m, r.course.Ends r.setting result m ↔
      (Eval.executeAll r.setting.globals r.statements).Ends r.setting r.machine
        (result.map fun _ => .normal) m := by
  have hnever : ∀ stmt ∈ r.statements, ∀ frame m v m',
      ¬(Task.execute frame stmt).Ends r.setting m (.ok (.returned v)) m' := by
    intro stmt hstmt frame m v m' hends
    rcases hends.of_returned with ⟨g, keyword, value, m₀, hmem, -, -⟩
    exact Stmt.no_return_of_accepted (accepts_of_running? hr).errors hstmt keyword value hmem
  refine ⟨?_, ?_, hnever, ?_⟩
  · intro frame stmt m v m' _ hends
    exact hends.of_returned
  · intro frame e m g stmt m₀ v m₁ hbegun hasks hends
    rcases Task.Runs.of_asks hasks with ⟨closure, values, m₂, hruns, rfl, hmem, hbody⟩
    have hreturned : (Eval.runBody closure values).Ends r.setting m₂ (.ok (.returned v)) m₁ :=
      Eval.ends_executeAll_of_asks hbody hends
    rcases h.ends_of_runs hr hbegun hruns hreturned with ⟨value, hvalue, hplain, hinitializer⟩
    exact ⟨closure, values, m₂, value, hruns, hmem, hvalue, hplain, hinitializer⟩
  · intro result m
    exact Eval.ends_interpret_iff fun stmt hstmt => hnever stmt hstmt _

/-! ## A function that returns from a loop -/

/-- A loop in which a `return` stands. -/
def returningLoop : Stmt :=
  .while (.literal ⟨0, 15, 4⟩ (.boolean true))
    (.block [.ifElse (.var ⟨1, "a", 24, 1⟩) (.return ⟨26, 6⟩ (some (.var ⟨2, "a", 33, 1⟩))) none])

/-- A function whose body is the loop. -/
def returningFunction : FunctionDecl :=
  ⟨⟨"f", 4, 1⟩, [⟨"a", 6, 1⟩], [returningLoop]⟩

/-- A call of the function. -/
def returningCall : Expr :=
  .call ⟨5, 43, 1⟩ (.var ⟨3, "f", 37, 1⟩) [.literal ⟨4, 39, 4⟩ (.boolean true)]

/-- The run of the declaration and the call. -/
def returningRun : Run :=
  ⟨⟨[(1, 1), (2, 1)], 0, fun _ => .error "no clock"⟩, Session.empty.machine,
    [.function returningFunction, .expression returningCall]⟩

theorem running?_returningRun :
    Session.empty.running? (fun _ => .error "no clock")
      "fun f(a)\x7bwhile(true)\x7bif(a)return a;\x7d\x7df(true);".toList = some returningRun := by
  with_unfolding_all rfl

/-- The machine after the declaration, with the frames that are added later. -/
def returningMachine (later : List Frame) (depth : Nat) : Machine :=
  machineOf (.mk (⟨[], [("clock", .native 0), ("f", .function 1 ⟨returningFunction, 0, false⟩)]⟩ ::
    later)) #[] 2 depth

/-- The frame of the call. -/
def returningFrame : Frame :=
  ⟨[0], [("a", .boolean true)]⟩

theorem begins_returningCall :
    returningRun.Begins (.evaluate 0 returningCall) (returningMachine [] 0) := by
  have hfunction : Task.Ends returningRun.setting (.execute 0 (.function returningFunction))
      Session.empty.machine (.ok .normal) (returningMachine [] 0) :=
    ⟨1, rfl⟩
  exact .inside (.asked (.later hfunction .now)) .now

theorem asks_returningLoop : ((Task.evaluate 0 returningCall).round returningRun.setting
    (returningMachine [] 0)).Asks returningRun.setting (.execute 1 returningLoop)
      (returningMachine [returningFrame] 1) := by
  have hcallee : Task.Ends returningRun.setting (.evaluate 0 (.var ⟨3, "f", 37, 1⟩))
      (returningMachine [] 0) (.ok (.function 1 ⟨returningFunction, 0, false⟩))
      (returningMachine [] 0) :=
    ⟨1, rfl⟩
  have hargument : Task.Ends returningRun.setting
      (.evaluate 0 (.literal ⟨4, 39, 4⟩ (.boolean true))) (returningMachine [] 0)
      (.ok (.boolean true)) (returningMachine [] 0) :=
    ⟨1, rfl⟩
  exact .later hcallee (.later hargument .now)

theorem return_ends_one_call_returningRun :
    ∃ m', (∃ g keyword value m₀, .return keyword value ∈ returningLoop.here ∧
        (Task.execute g (.return keyword value)).Ends returningRun.setting m₀
          (.ok (.returned (.boolean true))) m') ∧
      ∃ value, (Task.evaluate 0 returningCall).Ends returningRun.setting (returningMachine [] 0)
        (.ok value) (Eval.leave m') := by
  have hloop : (Task.execute 1 returningLoop).Ends returningRun.setting
      (returningMachine [returningFrame] 1) (.ok (.returned (.boolean true)))
      (returningMachine [returningFrame, ⟨[1, 0], []⟩] 1) :=
    ⟨5, rfl⟩
  rcases History.empty.return_ends_one_call running?_returningRun with ⟨hlast, hcall, -, -⟩
  have hbegun : returningRun.Begins (.execute 1 returningLoop) (returningMachine [returningFrame] 1) :=
    .inside begins_returningCall asks_returningLoop
  rcases hlast _ _ _ _ _ hbegun hloop with ⟨g, keyword, value, m₀, hmem, -, hreturn⟩
  rcases hcall _ _ _ _ _ _ _ _ begins_returningCall asks_returningLoop hloop with
    ⟨closure, values, m₂, result, -, -, hends, -, -⟩
  exact ⟨_, ⟨g, keyword, value, m₀, hmem, hreturn⟩, result, hends⟩

end Session

end Lox
