import Lox.Proofs.Eval.Course
import Lox.Proofs.Store.Growth

/-!
# Where methods are bound

A method is bound to an instance in three places: when it is read as a property of the instance, when
it is read from the superclass, and when a class with an initializer is called. Each time a frame is
added for it that binds `this`.
-/

namespace Lox

/-- A round of a task that is begun on a machine binds a method to an instance, in a new frame. The
number of the frame is that of the frames before. -/
inductive Task.Binds (setting : Setting) :
    Task → Machine → Closure → Instance → FrameId → Prop
  | property {frame : FrameId} {id : Nat} {target : Expr} {name : Ident} {m m' : Machine}
      {object : Instance} {method : Closure} :
      (Task.evaluate frame target).Ends setting m (.ok (.instance object)) m' →
      m'.store.field? object name.name = none →
      object.cls.method? name.name = some method →
        Binds setting (.evaluate frame (.get id target name)) m method object m'.store.frames.size
  | super {frame : FrameId} {node : Node} {name : Ident} {m : Machine} {near : Nat} {cls : Class}
      {object : Instance} {method : Closure} :
      setting.locals.distance? node.id = some (near + 1) →
      m.store.getAt frame (near + 1) superName = .ok (.class cls) →
      m.store.getAt frame near thisName = .ok (.instance object) →
      cls.method? name.name = some method →
        Binds setting (.evaluate frame (.super node name)) m method object m.store.frames.size
  | construction {frame : FrameId} {node : Node} {callee : Expr} {arguments : List Expr}
      {m m₁ m₂ : Machine} {cls : Class} {values : List Value} {method : Closure} :
      (Task.evaluate frame callee).Ends setting m (.ok (.class cls)) m₁ →
      (Eval.evaluateAll frame arguments).Ends setting m₁ (.ok values) m₂ →
      values.length = cls.arity →
      m₂.depth < maxDepth →
      cls.method? initializerName = some method →
        Binds setting (.evaluate frame (.call node callee arguments)) m method
          ⟨m₂.store.fields.size, cls⟩ m₂.store.frames.size

namespace Eval

variable {setting : Setting} {m m' : Machine} {place : Span} {value : Value}

/-- Runs the body of a function, without the value of the call. -/
def runBody (closure : Closure) (arguments : List Value) : Eval Flow := do
  let frame ← create fun store => store.newScope closure.frame
  bindArguments frame closure.declaration.parameters arguments
  executeAll frame closure.declaration.body

theorem run_eq (closure : Closure) (arguments : List Value) :
    run closure arguments = runBody closure arguments >>= callResult closure :=
  rfl

/-- Runs the initializer of a new instance, and gives the instance. -/
def prepare (object : Instance) (method : Closure) (arguments : List Value) : Eval Value := do
  let initializer ← bindMethod method object
  let _ ← run initializer arguments
  return .instance object

theorem invoke_class (cls : Class) (arguments : List Value) :
    invoke place (.class cls) arguments = (do
      let object ← create fun store => store.newInstance cls
      match cls.method? initializerName with
      | none => return .instance object
      | some method => prepare object method arguments) :=
  rfl

/-- The method of the superclass is looked for from the class that `super` stands for on, and bound
to the instance that `this` stands for. -/
theorem superMethod_apply {frame : FrameId} {node : Node} {name : Ident} {near : Nat} {cls : Class}
    {object : Instance} (hdistance : setting.locals.distance? node.id = some (near + 1))
    (hcls : m.store.getAt frame (near + 1) superName = .ok (.class cls))
    (hobject : m.store.getAt frame near thisName = .ok (.instance object)) :
    superMethod frame node name setting m = method cls object name setting m := by
  rw [superMethod, bind_apply, distance?, hdistance]
  simp only [Course.bind, bind_apply, read, hcls, asClass, pure_apply, hobject, asInstance]

/-- A method that is found is bound in a new frame, and a function is made of it. -/
theorem method_apply {cls : Class} {object : Instance} {name : Ident} {method : Closure}
    (hmethod : cls.method? name.name = some method) :
    Eval.method cls object name setting m =
      .ended (.ok (.function m.store.nextId { method with frame := m.store.frames.size }))
        { m with store := (m.store.newBound method.frame thisName (.instance object)).fresh.2 } := by
  rw [Eval.method, hmethod]
  rfl

theorem property_apply {object : Instance} {name : Ident} {method : Closure}
    (hfield : m.store.field? object name.name = none)
    (hmethod : object.cls.method? name.name = some method) :
    Eval.property object name setting m =
      .ended (.ok (.function m.store.nextId { method with frame := m.store.frames.size }))
        { m with store := (m.store.newBound method.frame thisName (.instance object)).fresh.2 } := by
  rw [Eval.property, hfield]
  exact method_apply hmethod

/-- The machine on which the initializer of a new instance runs: the instance has been made and the
initializer has been bound to it, one call deeper. -/
def preparing (cls : Class) (method : Closure) (m : Machine) : Machine :=
  { m with
    depth := m.depth + 1
    store := (m.store.newInstance cls).2.newBound method.frame thisName
      (.instance ⟨m.store.fields.size, cls⟩) }

/-- A class with an initializer is called: the initializer runs, and the instance is the result. -/
theorem call_class {cls : Class} {method : Closure} {arguments : List Value}
    (harity : arguments.length = cls.arity) (hdepth : m.depth < maxDepth)
    (hmethod : cls.method? initializerName = some method) :
    call place (.class cls) arguments setting m =
      ((run { method with frame := m.store.frames.size } arguments setting
        (preparing cls method m)).bind fun _ m' =>
          .ended (.ok (.instance ⟨m.store.fields.size, cls⟩)) m').atEnd leave := by
  have hcall : call place (.class cls) arguments = nested place (invoke place (.class cls) arguments) :=
    if_pos harity
  have hnested : ∀ x : Eval Value, nested place x setting m =
      (x setting { m with depth := m.depth + 1 }).atEnd leave :=
    fun x => if_neg (Nat.not_le_of_lt hdepth)
  rw [hcall, hnested, invoke_class, hmethod]
  rfl

/-- A function is called: it runs one call deeper. -/
theorem call_function {id : Nat} {closure : Closure} {arguments : List Value}
    (harity : arguments.length = closure.arity) (hdepth : m.depth < maxDepth) :
    call place (.function id closure) arguments setting m =
      (run closure arguments setting { m with depth := m.depth + 1 }).atEnd leave := by
  have hcall : call place (.function id closure) arguments =
      nested place (run closure arguments) :=
    if_pos harity
  rw [hcall]
  exact if_neg (Nat.not_le_of_lt hdepth)

theorem ends_pure {α : Type} {a : α} {r : Except Fault α}
    (h : (pure a : Eval α).Ends setting m r m') : r = .ok a ∧ m' = m := by
  rcases h with ⟨fuel, h⟩
  cases h
  exact ⟨rfl, rfl⟩

theorem ends_fail {α : Type} {cause : FaultCause} {a : α} :
    ¬(Eval.fail cause place : Eval α).Ends setting m (.ok a) m' := by
  rintro ⟨fuel, h⟩
  cases h

/-- What is read is what the store holds. -/
theorem ends_read {α : Type} {look : Store → Except FaultCause α} {a : α}
    (h : (Eval.read place look).Ends setting m (.ok a) m') :
    look m.store = .ok a ∧ m' = m := by
  rcases h with ⟨fuel, h⟩
  unfold Eval.read at h
  split at h
  · rename_i b hb
    cases h
    exact ⟨hb, rfl⟩
  · cases h

theorem ends_asInstance {cause : Value → FaultCause} {object : Instance}
    (h : (asInstance place cause value).Ends setting m (.ok object) m') :
    value = .instance object ∧ m' = m := by
  cases value with
  | «instance» other =>
      rcases ends_pure h with ⟨heq, rfl⟩
      cases heq
      exact ⟨rfl, rfl⟩
  | _ => exact absurd h ends_fail

theorem ends_asClass {cls : Class} (h : (asClass place value).Ends setting m (.ok cls) m') :
    value = .class cls ∧ m' = m := by
  cases value with
  | «class» other =>
      rcases ends_pure h with ⟨heq, rfl⟩
      cases heq
      exact ⟨rfl, rfl⟩
  | _ => exact absurd h ends_fail

theorem ends_distance? {id : Nat} {distance? : Option Nat}
    (h : (Eval.distance? id).Ends setting m (.ok distance?) m') :
    distance? = setting.locals.distance? id ∧ m' = m := by
  rcases h with ⟨fuel, h⟩
  cases h
  exact ⟨rfl, rfl⟩

/-- A call that has a result was one with as many arguments as are needed, and not too deep. -/
theorem ends_call {arguments : List Value} {result : Value}
    (h : (call place value arguments).Ends setting m (.ok result) m') :
    value.arity? = some arguments.length ∧ m.depth < maxDepth ∧
      ∃ m'', (invoke place value arguments).Ends setting { m with depth := m.depth + 1 }
        (.ok result) m'' := by
  unfold call at h
  cases harity : value.arity? with
  | none =>
      rw [harity] at h
      exact absurd h ends_fail
  | some arity =>
      rw [harity] at h
      dsimp only at h
      split at h
      · rename_i hlength
        by_cases hdepth : maxDepth ≤ m.depth
        · have hx : nested place (invoke place value arguments) setting m =
              .ended (.error ⟨.stackOverflow, place⟩) m := if_pos hdepth
          rcases h with ⟨fuel, h⟩
          rw [hx] at h
          cases h
        · have hx : nested place (invoke place value arguments) setting m =
              (invoke place value arguments setting { m with depth := m.depth + 1 }).atEnd leave :=
            if_neg hdepth
          rw [Eval.Ends, hx] at h
          rcases Course.Ends.of_atEnd h with ⟨m'', h, -⟩
          exact ⟨by rw [hlength], Nat.lt_of_not_le hdepth, m'', h⟩
      · exact absurd h ends_fail

/-- A class that is called gives a new instance, whatever its initializer does. -/
theorem ends_invoke_class {cls : Class} {arguments : List Value} {result : Value}
    (h : (invoke place (.class cls) arguments).Ends setting m (.ok result) m') :
    result = .instance ⟨m.store.fields.size, cls⟩ := by
  rw [invoke_class] at h
  rcases Eval.Ends.of_bind h with ⟨fault, heq, -⟩ | ⟨object, m₁, hnew, h⟩
  · cases heq
  have hobject : object = ⟨m.store.fields.size, cls⟩ := by
    rcases hnew with ⟨fuel, hnew⟩
    cases hnew
    rfl
  subst hobject
  cases hmethod : cls.method? initializerName with
  | none =>
      rw [hmethod] at h
      rcases ends_pure h with ⟨heq, -⟩
      exact Except.ok.inj heq
  | some method =>
      rw [hmethod] at h
      rcases Eval.Ends.of_bind h with ⟨fault, heq, -⟩ | ⟨closure, m₂, -, h⟩
      · cases heq
      rcases Eval.Ends.of_bind h with ⟨fault, heq, -⟩ | ⟨ignored, m₃, -, h⟩
      · cases heq
      rcases ends_pure h with ⟨heq, -⟩
      exact Except.ok.inj heq

/-- A method that is read is a function that has just been bound. -/
theorem ends_method {cls : Class} {object : Instance} {name : Ident}
    (h : (Eval.method cls object name).Ends setting m (.ok value) m') :
    ∃ id method, cls.method? name.name = some method ∧
      value = .function id { method with frame := m.store.frames.size } := by
  cases hmethod : cls.method? name.name with
  | none =>
      rw [Eval.method, hmethod] at h
      exact absurd h ends_fail
  | some method =>
      rcases h with ⟨fuel, h⟩
      rw [method_apply hmethod] at h
      cases h
      exact ⟨_, method, rfl, rfl⟩

theorem ends_change {step : Store → Store} {r : Except Fault Unit}
    (h : (change step).Ends setting m r m') : m' = { m with store := step m.store } := by
  rcases h with ⟨fuel, h⟩
  cases h
  rfl

/-- A class with a superclass is made when the superclass has been evaluated. The frame of its
methods is new then, and binds `super`. -/
theorem ends_makeClass {frame f : FrameId} {name : Ident} {parent : Option Reference}
    {methods : List FunctionDecl} {cls superclass : Class}
    (h : (makeClass frame name parent methods).Ends setting m (.ok (f, cls)) m')
    (hsuper : cls.superclass? = some superclass) :
    ∃ reference m₁, parent = some reference ∧
      (Task.evaluate frame (.var reference)).Ends setting
        { m with store := m.store.define frame name.name .nil } (.ok (.class superclass)) m₁ ∧
      f = m₁.store.frames.size ∧
      m' = { m₁ with store := (m₁.store.newBound frame superName (.class superclass)).fresh.2 } := by
  unfold makeClass at h
  rcases Eval.Ends.of_bind h with ⟨fault, heq, -⟩ | ⟨_, m₀, hdefine, h⟩
  · cases heq
  rcases Eval.Ends.of_bind h with ⟨fault, heq, -⟩ | ⟨found, m₁, hparent, h⟩
  · cases heq
  have hm₀ := ends_change hdefine
  subst hm₀
  cases found with
  | none =>
      rcases Eval.Ends.of_bind h with ⟨fault, heq, -⟩ | ⟨inner, m₂, hframe, h⟩
      · cases heq
      rcases Eval.Ends.of_bind h with ⟨fault, heq, -⟩ | ⟨id, m₃, hid, h⟩
      · cases heq
      rcases ends_pure h with ⟨heq, -⟩
      cases heq
      cases hsuper
  | some other =>
      rcases h with ⟨fuel, h⟩
      cases h
      cases hsuper
      cases parent with
      | none =>
          rcases ends_pure hparent with ⟨heq, -⟩
          cases heq
      | some reference =>
          rcases Eval.Ends.of_bind hparent with ⟨fault, heq, -⟩ | ⟨value, m₂, hvalue, hclass⟩
          · cases heq
          rcases Eval.Ends.of_bind hclass with ⟨fault, heq, -⟩ | ⟨cls, m₃, hclass, hsome⟩
          · cases heq
          rcases ends_asClass hclass with ⟨rfl, rfl⟩
          rcases ends_pure hsome with ⟨heq, rfl⟩
          cases heq
          exact ⟨reference, m₁, rfl, Task.Ends.of_request hvalue, rfl, rfl⟩

end Eval

/-- An expression that has a value has it at the end of its only round. -/
theorem Task.Ends.valueOf {setting : Setting} {frame : FrameId} {e : Expr} {m m' : Machine}
    {v : Value} (h : (Task.evaluate frame e).Ends setting m (.ok v) m') :
    (Eval.valueOf frame e).Ends setting m (.ok v) m' := by
  rcases h with ⟨fuel, h⟩
  cases fuel with
  | zero => cases h
  | succ fuel =>
      rw [perform] at h
      cases hrun : ((Task.evaluate frame e).round setting m).run (perform setting fuel) with
      | timeout =>
          rw [hrun] at h
          cases h
      | ended result m₁ =>
          have hround : (some <$> Eval.valueOf frame e).Ends setting m result m₁ := ⟨fuel, hrun⟩
          rw [hrun] at h
          rcases Eval.Ends.of_bind hround with ⟨fault, rfl, -⟩ | ⟨value, m₂, hvalue, hsome⟩
          · cases h
          · rcases Eval.ends_pure hsome with ⟨rfl, rfl⟩
            cases h
            exact hvalue

end Lox
