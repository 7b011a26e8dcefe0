import Lox.Proofs.Session.Agreement

/-!
# Methods of superclasses

A `super` expression stands in the methods of a class declaration. It finds the class that this
declaration inherited from when it was executed, whatever the class of the instance at hand is and
whatever has been assigned or declared since.

Main statement: `Session.History.super_is_lexical`.
-/

namespace Lox

namespace Class

/-- A class and the classes it inherits from, the nearest first. -/
def line : Class → List Class
  | .root id name methods => [.root id name methods]
  | .derived id name methods superclass => .derived id name methods superclass :: superclass.line

/-- A method is that of the nearest class of the line that declares it. -/
theorem method?_eq_findSome? (cls : Class) (name : String) :
    cls.method? name = cls.line.findSome? fun c => c.methods.value? name := by
  induction cls with
  | root id own methods =>
      simp [line, Class.methods]
  | derived id own methods superclass ih =>
      rw [method?_derived, line, List.findSome?_cons, ih]
      cases hvalue : methods.value? name <;> simp [Class.methods, hvalue]

end Class

namespace Eval

variable {setting : Setting} {m : Machine}

/-- How the method that a class has under a name is bound to an instance. -/
def MethodOf (cls : Class) (object : Instance) (name : Ident) (m : Machine) (c : Course Value) :
    Prop :=
  match cls.line.findSome? fun c => c.methods.value? name.name with
  | some method => ∃ m', c = .ended (.ok (.function m.store.nextId
        { method with frame := m.store.frames.size })) m' ∧
      m'.store.chain m.store.frames.size = m.store.frames.size :: m.store.chain method.frame ∧
        m'.store.value? m.store.frames.size thisName = some (.instance object)
  | none => c = .ended (.error ⟨.undefinedProperty (.instance object) name.name, name.span⟩) m

theorem methodOf_method (cls : Class) (object : Instance) (name : Ident) :
    MethodOf cls object name m (method cls object name setting m) := by
  unfold MethodOf method
  rw [Class.method?_eq_findSome?]
  cases cls.line.findSome? fun c => c.methods.value? name.name with
  | none =>
      rfl
  | some method =>
      refine ⟨_, rfl, ?_, ?_⟩
      · change ((m.store.addFrame _).2.define _ _ _).chain _ = _
        rw [Store.chain_define, Store.chain, Store.outer_addFrame, if_pos rfl]
      · change ((m.store.addFrame _).2.define _ _ _).value? _ _ = _
        rw [Store.value?_define, Store.size_addFrame]
        exact if_pos ⟨rfl, Nat.lt_succ_self _, rfl⟩

end Eval

namespace Session

variable {runs : List Run} {s : Session} {clock : Nat → Except String Float} {text : List Char}
  {r : Run}

/-- Where `super` is evaluated, the innermost class declaration around it has been executed and has
made a class `cls` in the frame that binds `super`. The method is looked for from the superclass of
`cls` on and bound to the instance that `this` stands for at the same place. -/
theorem History.super_is_lexical (h : History runs s) (hr : s.running? clock text = some r)
    {frame : FrameId} {node : Node} {name : Ident} {m : Machine}
    (hbegun : r.Begins (.evaluate frame (.super node name)) m) :
    ∃ v ∈ Stmt.programVisits (Run.programOf (runs ++ [r])), v.expr = .super node name ∧
      ∃ d near home cls parent object, v.owner = some d ∧
        v.scopes.distance? thisName = some near ∧
        m.store.ancestor? frame (near + 1) = some home ∧
        (∃ r' ∈ runs ++ [r], r'.Makes d home cls) ∧ cls.superclass? = some parent ∧
        m.store.getAt frame (near + 1) superName = .ok (.class parent) ∧
        m.store.getAt frame near thisName = .ok (.instance object) ∧
        Eval.MethodOf parent object name m
          (Eval.valueOf frame (.super node name) r.setting m) := by
  have hresolved := h.resolved hr
  rcases h.before hr hbegun with ⟨-, owner, scopes, hvisits, hstands⟩
  have hv := hvisits _ (Expr.mem_parts_self _)
  rcases Visit.parent_of_super (hresolved.errors _ hv) with ⟨d, reference, rfl, hreference⟩
  rcases hstands.home with ⟨near, hthis, hsuper⟩
  rcases hsuper (by rw [hreference]; rfl) with
    ⟨hdistance, home, hancestor, cls, parent, hmade, hparent, hvalue⟩
  have hrecorded : r.setting.locals.distance? node.id = some (near + 1) :=
    (hresolved.distance _ hv).trans hdistance
  have hcls : m.store.getAt frame (near + 1) superName = .ok (.class parent) := by
    rw [Store.getAt, hancestor, Option.bind_some, hvalue]
    rfl
  -- `this` is no pending name, so its scope defines it.
  rcases (hresolved.nearlySettled _ hv).defined hthis (.inr (by decide)) with
    ⟨scope, declared, hscope, hdeclared, hdefined⟩
  rcases hstands.frames.getAt hscope hdeclared hdefined with ⟨receiver, hreceiver, hsuits⟩
  rcases hsuits.1 rfl with ⟨object, rfl⟩
  refine ⟨_, hv, rfl, d, near, home, cls, parent, object, rfl, hthis, hancestor, hmade, hparent,
    hcls, hreceiver, ?_⟩
  rw [Eval.valueOf, Eval.superMethod_apply hrecorded hcls hreceiver]
  exact Eval.methodOf_method parent object name

/-! ## A class that uses its superclass -/

/-- An initializer that reads a method of the superclass. -/
def inheritingInit : FunctionDecl :=
  ⟨⟨"init", 24, 4⟩, [], [.expression (.super ⟨1, 31, 5⟩ ⟨"m", 37, 1⟩)]⟩

/-- The declaration of a class that inherits from another one. -/
def inheritingClass : Stmt :=
  .class ⟨"B", 20, 1⟩ (some ⟨0, "A", 22, 1⟩) [inheritingInit]

/-- The declaration of the class it inherits from. -/
def inheritedClass : Stmt :=
  .class ⟨"A", 6, 1⟩ none [⟨⟨"m", 8, 1⟩, [], []⟩]

/-- A call of the class that inherits. -/
def inheritingCall : Expr :=
  .call ⟨3, 43, 1⟩ (.var ⟨2, "B", 41, 1⟩) []

/-- The run of the two declarations and the call. -/
def inheritingRun : Run :=
  ⟨⟨[(1, 2)], 0, fun _ => .error "no clock"⟩, Session.empty.machine,
    [inheritedClass, inheritingClass, .expression inheritingCall]⟩

theorem running?_inheritingRun :
    Session.empty.running? (fun _ => .error "no clock")
      "class A\x7bm()\x7b\x7d\x7dclass B<A\x7binit()\x7bsuper.m;\x7d\x7dB();".toList =
        some inheritingRun := by
  with_unfolding_all rfl

/-- The class that the first declaration makes. -/
def inheritedValue : Class :=
  .root 1 "A" [("m", ⟨⟨⟨"m", 8, 1⟩, [], []⟩, 0, false⟩)]

/-- The class that the second declaration makes. -/
def inheritingValue : Class :=
  .derived 2 "B" [("init", ⟨inheritingInit, 1, true⟩)] inheritedValue

/-- The frames of a run, without output. -/
def machineOf (frames : Array Frame) (fields : Array (Bindings Value)) (nextId depth : Nat) :
    Machine :=
  ⟨⟨frames, fields, nextId⟩, depth, 0, []⟩

/-- The machine after both declarations. -/
def declaredMachine : Machine :=
  machineOf #[⟨[], [("clock", .native 0), ("A", .class inheritedValue),
      ("B", .class inheritingValue)]⟩,
    ⟨[0], [("super", .class inheritedValue)]⟩] #[] 3 0

/-- The machine on which the body of the initializer runs. -/
def initializingMachine : Machine :=
  machineOf #[⟨[], [("clock", .native 0), ("A", .class inheritedValue),
      ("B", .class inheritingValue)]⟩,
    ⟨[0], [("super", .class inheritedValue)]⟩,
    ⟨[1, 0], [("this", .instance ⟨0, inheritingValue⟩)]⟩, ⟨[2, 1, 0], []⟩] #[[]] 3 1

theorem begins_inheritingRun :
    inheritingRun.Begins (.evaluate 3 (.super ⟨1, 31, 5⟩ ⟨"m", 37, 1⟩)) initializingMachine := by
  have hfirst : Task.Ends inheritingRun.setting (.execute 0 inheritedClass) Session.empty.machine
      (.ok .normal)
      (machineOf #[⟨[], [("clock", .native 0), ("A", .class inheritedValue)]⟩] #[] 2 0) :=
    ⟨2, rfl⟩
  have hsecond : Task.Ends inheritingRun.setting (.execute 0 inheritingClass)
      (machineOf #[⟨[], [("clock", .native 0), ("A", .class inheritedValue)]⟩] #[] 2 0)
      (.ok .normal) declaredMachine :=
    ⟨2, rfl⟩
  have hcallee : Task.Ends inheritingRun.setting (.evaluate 0 (.var ⟨2, "B", 41, 1⟩))
      declaredMachine (.ok (.class inheritingValue)) declaredMachine :=
    ⟨2, rfl⟩
  have hstatement : inheritingRun.Begins (.execute 0 (.expression inheritingCall))
      declaredMachine :=
    .asked (.later hfirst (.later hsecond .now))
  have hcall : inheritingRun.Begins (.evaluate 0 inheritingCall) declaredMachine :=
    .inside hstatement .now
  have hbody : inheritingRun.Begins
      (.execute 3 (.expression (.super ⟨1, 31, 5⟩ ⟨"m", 37, 1⟩))) initializingMachine :=
    .inside hcall (.later hcallee .now)
  exact .inside hbody .now

theorem super_is_lexical_inheritingRun :
    ∃ d near home cls parent object, inheritingRun.Makes d home cls ∧
      cls.superclass? = some parent ∧
      initializingMachine.store.getAt 3 near thisName = .ok (.instance object) ∧
      Eval.MethodOf parent object ⟨"m", 37, 1⟩ initializingMachine
        (Eval.valueOf 3 (.super ⟨1, 31, 5⟩ ⟨"m", 37, 1⟩) inheritingRun.setting
          initializingMachine) := by
  rcases History.empty.super_is_lexical running?_inheritingRun begins_inheritingRun with
    ⟨v, -, -, d, near, home, cls, parent, object, -, -, -, ⟨r, hr, hmakes⟩, hparent, -, hobject,
      hmethod⟩
  rw [List.nil_append, List.mem_singleton] at hr
  subst hr
  exact ⟨d, near, home, cls, parent, object, hmakes, hparent, hobject, hmethod⟩

end Session

end Lox
