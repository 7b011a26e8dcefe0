import Lox.Proofs.Session.Receiver

/-!
# Initializers

A call of an initializer gives the instance that the initializer is bound to, whatever its body does,
and a call of a class gives a new instance. The instance is found in the frame of the initializer
when the body has ended.

Main statement: `Session.History.initializer_gives_instance`.
-/

namespace Lox

/-- No value in a store is the instance. -/
structure Store.Lacks (s : Store) (object : Instance) : Prop where
  values : ∀ f name other, s.value? f name = some (.instance other) → other.id ≠ object.id
  fields : ∀ holder name other, s.field? holder name = some (.instance other) →
    other.id ≠ object.id

/-- When the body of a function has ended, `this` is found in the frame of the function, and it is the
instance. -/
def Eval.FindsReceiver (setting : Setting) (closure : Closure) (arguments : List Value) (m : Machine)
    (object : Instance) : Prop :=
  ∀ flow m', (Eval.runBody closure arguments).Ends setting m (.ok flow) m' →
    m'.store.getAt closure.frame 0 thisName = .ok (.instance object)

section

variable {setting : Setting} {m m₁ m₂ m' : Machine} {frame : FrameId} {node : Node} {callee : Expr}
  {arguments : List Expr} {v value : Value} {values : List Value}

/-- The value of a call is what is done with the values of the callee and the arguments. -/
theorem Task.Ends.of_call
    (h : (Task.evaluate frame (.call node callee arguments)).Ends setting m (.ok value) m')
    (hcallee : (Task.evaluate frame callee).Ends setting m (.ok v) m₁)
    (harguments : (Eval.evaluateAll frame arguments).Ends setting m₁ (.ok values) m₂) :
    (Eval.call node.span v values).Ends setting m₂ (.ok value) m' := by
  have hvalue := h.valueOf
  rw [Eval.valueOf] at hvalue
  rcases Eval.Ends.of_bind hvalue with ⟨fault, heq, -⟩ | ⟨v', m₁', hcallee', hvalue⟩
  · cases heq
  rcases Course.Ends.unique (Task.Ends.request hcallee) hcallee' with ⟨heq, rfl⟩
  cases heq
  rcases Eval.Ends.of_bind hvalue with ⟨fault, heq, -⟩ | ⟨values', m₂', harguments', hcall⟩
  · cases heq
  rcases Course.Ends.unique harguments harguments' with ⟨heq, rfl⟩
  cases heq
  exact hcall

/-- A call of an initializer gives what it finds. -/
theorem Eval.FindsReceiver.gives {id : Nat} {closure : Closure} {object : Instance} {place : Span}
    (h : Eval.FindsReceiver setting closure values { m with depth := m.depth + 1 } object)
    (hinitializer : closure.isInitializer = true)
    (hcall : (Eval.call place (.function id closure) values).Ends setting m (.ok value) m') :
    value = .instance object := by
  rcases Eval.ends_call hcall with ⟨-, -, m'', hinvoke⟩
  have hrun : (Eval.run closure values).Ends setting { m with depth := m.depth + 1 } (.ok value) m'' :=
    hinvoke
  rw [Eval.run_eq] at hrun
  rcases Eval.Ends.of_bind hrun with ⟨fault, heq, -⟩ | ⟨flow, m₃, hbody, hresult⟩
  · cases heq
  unfold Eval.callResult at hresult
  rw [if_pos hinitializer] at hresult
  rcases Eval.ends_read hresult with ⟨hread, -⟩
  rw [h flow m₃ hbody] at hread
  cases hread
  rfl

/-- A property of an instance that is no field of it is a method that has just been bound. -/
theorem Task.Ends.of_get {id : Nat} {target : Expr} {name : Ident} {object : Instance}
    (h : (Task.evaluate frame (.get id target name)).Ends setting m (.ok v) m')
    (htarget : (Task.evaluate frame target).Ends setting m (.ok (.instance object)) m₁)
    (hfield : m₁.store.field? object name.name = none) :
    ∃ id method, object.cls.method? name.name = some method ∧
      v = .function id { method with frame := m₁.store.frames.size } := by
  have hvalue := h.valueOf
  rw [Eval.valueOf] at hvalue
  rcases Eval.Ends.of_bind hvalue with ⟨fault, heq, -⟩ | ⟨v', m₁', htarget', hvalue⟩
  · cases heq
  rcases Course.Ends.unique (Task.Ends.request htarget) htarget' with ⟨heq, rfl⟩
  cases heq
  rcases Eval.Ends.of_bind hvalue with ⟨fault, heq, -⟩ | ⟨object', m₂, hobject, hproperty⟩
  · cases heq
  rcases Eval.ends_asInstance hobject with ⟨heq, rfl⟩
  cases heq
  have heq : Eval.property object name setting m₂ = Eval.method object.cls object name setting m₂ := by
    rw [Eval.property, hfield]
  rw [Eval.Ends, heq] at hproperty
  exact Eval.ends_method hproperty

/-- A method of the superclass is read where `this` and `super` are found, and has just been bound. -/
theorem Task.Ends.of_super {name : Ident}
    (h : (Task.evaluate frame (.super node name)).Ends setting m (.ok v) m') :
    ∃ near cls object id method, setting.locals.distance? node.id = some (near + 1) ∧
      m.store.getAt frame (near + 1) superName = .ok (.class cls) ∧
      m.store.getAt frame near thisName = .ok (.instance object) ∧
      cls.method? name.name = some method ∧
      v = .function id { method with frame := m.store.frames.size } := by
  have hvalue := h.valueOf
  rw [Eval.valueOf, Eval.superMethod] at hvalue
  rcases Eval.Ends.of_bind hvalue with ⟨fault, heq, -⟩ | ⟨distance?, m₀, hdistance, hrest⟩
  · cases heq
  rcases Eval.ends_distance? hdistance with ⟨rfl, rfl⟩
  cases hrecorded : setting.locals.distance? node.id with
  | none =>
      rw [hrecorded] at hrest
      exact absurd hrest Eval.ends_fail
  | some distance =>
      rw [hrecorded] at hrest
      rcases Eval.Ends.of_bind hrest with ⟨fault, heq, -⟩ | ⟨found, m₁, hfound, hclass⟩
      · cases heq
      rcases Eval.ends_read hfound with ⟨hsuper, rfl⟩
      rcases Eval.Ends.of_bind hclass with ⟨fault, heq, -⟩ | ⟨cls, m₂, hcls, hreceiver⟩
      · cases heq
      rcases Eval.ends_asClass hcls with ⟨rfl, rfl⟩
      cases distance with
      | zero =>
          exact absurd hreceiver Eval.ends_fail
      | succ near =>
          rcases Eval.Ends.of_bind hreceiver with ⟨fault, heq, -⟩ | ⟨receiver, m₃, hread, hinstance⟩
          · cases heq
          rcases Eval.ends_read hread with ⟨hthis, rfl⟩
          rcases Eval.Ends.of_bind hinstance with ⟨fault, heq, -⟩ | ⟨object, m₄, hobject, hmethod⟩
          · cases heq
          rcases Eval.ends_asInstance hobject with ⟨rfl, rfl⟩
          rcases Eval.ends_method hmethod with ⟨id, method, hfound, heq⟩
          exact ⟨near, cls, object, id, method, rfl, hsuper, hthis, hfound, heq⟩

namespace World

variable {W : World} {B : Task → Machine → Prop} {f : FrameId} {method : Closure} {object : Instance}

/-- The frame of a bound method still binds `this` when the body has ended. -/
theorem findsReceiver (hkept : W.contract.Kept setting B) (hclosed : Closed setting B)
    (h : W.StoreFits m.store) (hreceives : W.Receives m.store f method object)
    (harguments : ∀ x ∈ values, W.Fits m.store x)
    (hlength : values.length = method.declaration.parameters.length)
    (hasks : ∀ task m', (Eval.runBody { method with frame := f } values setting m).Asks setting task
      m' → B task m') :
    Eval.FindsReceiver setting { method with frame := f } values m object := by
  intro flow m' hends
  -- The store only grows while the body runs, and `this` is a reserved word, which nothing rebinds.
  have hended := (safe_runBody h hreceives.functionFits harguments hlength).ends hkept hclosed hasks
    hends
  rw [Store.getAt, Store.ancestor?, Option.bind_some, (hreceives.grows hended.2.1).value?]
  rfl

/-- A new instance is not among the values that fit. -/
theorem StoreFits.lacks {s : Store} {cls : Class} (h : W.StoreFits s) :
    s.Lacks ⟨s.fields.size, cls⟩ := by
  refine ⟨?_, ?_⟩
  · intro f name other hvalue
    exact Nat.ne_of_lt (h.values f name _ hvalue).made
  · intro holder name other hvalue
    exact Nat.ne_of_lt (h.fields holder name _ hvalue).made

end World

end

namespace Session

variable {runs : List Run} {s : Session} {clock : Nat → Except String Float} {text : List Char}
  {r r₀ : Run} {m m₁ m₂ : Machine} {frame : FrameId} {node : Node} {callee : Expr}
  {arguments : List Expr} {v : Value} {values : List Value} {method : Closure} {object : Instance}

/-- What is known when the callee and the arguments of a call have been evaluated. -/
theorem History.fits_operands (h : History runs s) (hr : s.running? clock text = some r)
    (hbegun : r.Begins (.evaluate frame (.call node callee arguments)) m)
    (hcallee : (Task.evaluate frame callee).Ends r.setting m (.ok v) m₁)
    (harguments : (Eval.evaluateAll frame arguments).Ends r.setting m₁ (.ok values) m₂) :
    let W := World.ofRuns (runs ++ [r]) s.globals
    W.StoreFits m₂.store ∧ m₁.store.Grows m₂.store ∧ W.Fits m₂.store v ∧
      ∀ x ∈ values, W.Fits m₂.store x :=
  World.fits_operands (h.explains_ofRuns hr).describes r.course.closed_begins
    (fun _ _ => h.before hr) hbegun hcallee harguments

/-- What a call asks for after its operands is begun in the run. -/
theorem begins_of_call (hbegun : r.Begins (.evaluate frame (.call node callee arguments)) m)
    (hcallee : (Task.evaluate frame callee).Ends r.setting m (.ok v) m₁)
    (harguments : (Eval.evaluateAll frame arguments).Ends r.setting m₁ (.ok values) m₂) {task : Task}
    {m' : Machine} (hasks : (Eval.call node.span v values r.setting m₂).Asks r.setting task m') :
    r.Begins task m' := by
  have hround := Course.Asks.bind_right (f := fun values m => Eval.call node.span v values r.setting m)
    harguments hasks
  exact .inside hbegun (.later hcallee hround.bind_left)

/-- A class that is called gives a new instance. Its initializer is bound to the instance, and the
instance is found when the body has ended. -/
theorem History.call_class_gives (h : History runs s) (hr : s.running? clock text = some r)
    {cls : Class} (hbegun : r.Begins (.evaluate frame (.call node callee arguments)) m)
    (hcallee : (Task.evaluate frame callee).Ends r.setting m (.ok (.class cls)) m₁)
    (harguments : (Eval.evaluateAll frame arguments).Ends r.setting m₁ (.ok values) m₂)
    (hmethod : cls.method? initializerName = some method) (harity : values.length = cls.arity)
    (hdepth : m₂.depth < maxDepth) :
    r.Binds method ⟨m₂.store.fields.size, cls⟩ m₂.store.frames.size ∧
      method.isInitializer = true ∧
      Eval.FindsReceiver r.setting { method with frame := m₂.store.frames.size } values
        (Eval.preparing cls method m₂) ⟨m₂.store.fields.size, cls⟩ := by
  have hbinds : r.Binds method ⟨m₂.store.fields.size, cls⟩ m₂.store.frames.size :=
    ⟨_, m, hbegun, .construction hcallee harguments harity hdepth hmethod⟩
  have hexplains := h.explains_ofRuns hr
  rcases h.fits_operands hr hbegun hcallee harguments with ⟨hfits, -, hcls, hvalues⟩
  rcases World.ClassFits.method hcls hmethod with ⟨hname, hinitializer, -⟩
  rcases World.fits_preparing hfits hcls hmethod ⟨r, by simp, hbinds⟩ with
    ⟨hprepared, hreceives, hgrows⟩
  have hlength : values.length = method.declaration.parameters.length := by
    rw [harity, Class.arity, hmethod]
    rfl
  refine ⟨hbinds, by rw [hinitializer, ← hname]; rfl, ?_⟩
  refine World.findsReceiver hexplains.kept r.course.closed_begins hprepared hreceives
    (fun x hx => (hvalues x hx).grows hgrows) hlength ?_
  intro task m' hasks
  refine begins_of_call hbegun hcallee harguments ?_
  rw [Eval.call_class harity hdepth hmethod, Eval.run_eq]
  exact hasks.bind_left.bind_left.atEnd

/-- What a call of a function gives that has been bound to an instance and is an initializer. -/
theorem History.call_function_gives (h : History runs s) (hr : s.running? clock text = some r)
    {id : Nat} {closure : Closure}
    (hbegun : r.Begins (.evaluate frame (.call node callee arguments)) m)
    (hcallee : (Task.evaluate frame callee).Ends r.setting m (.ok (.function id closure)) m₁)
    (harguments : (Eval.evaluateAll frame arguments).Ends r.setting m₁ (.ok values) m₂)
    (hr₀ : r₀ ∈ runs ++ [r]) (hbinds : r₀.Binds method object closure.frame)
    (hname : closure.name = initializerName) :
    closure.isInitializer = true ∧
      (values.length = closure.arity → m₂.depth < maxDepth →
        Eval.FindsReceiver r.setting closure values { m₂ with depth := m₂.depth + 1 } object) ∧
      ∀ value m', (Task.evaluate frame (.call node callee arguments)).Ends r.setting m (.ok value) m' →
        value = .instance object := by
  have hexplains := h.explains_ofRuns hr
  have hbegun₁ : r.Begins (.evaluate frame callee) m := .inside hbegun .now
  rcases h.after hr hbegun₁ hcallee with ⟨-, -, hfits₁⟩
  rcases hfits₁ _ rfl with ⟨⟨owner, scopes, hstands, -⟩, -⟩
  rcases h.fits_operands hr hbegun hcallee harguments with ⟨hfits, hgrows, hclosure, hvalues⟩
  have hreceives := (h.receives hr hr₀ hbinds (.ended hbegun₁ hcallee) hstands.frames.inside).grows
    hgrows
  rcases hclosure with ⟨-, ⟨hopen, -⟩ | ⟨method', object', hreceives', heq⟩⟩
  · -- A function that was made by its declaration stands where `this` is not bound.
    have hnone := hopen thisName (by decide)
    rw [hreceives.value?] at hnone
    cases hnone
  -- The frame has one binding, so both are the instance that it binds.
  have hsame : object' = object := by
    have hbindings := hreceives'.bindings.symm.trans hreceives.bindings
    simpa using hbindings
  subst hsame
  have hinitializer : closure.isInitializer = true := by
    rw [heq] at hname ⊢
    change method'.isInitializer = true
    rw [hreceives'.initializer]
    exact beq_iff_eq.mpr hname
  have hfinds : values.length = closure.arity → m₂.depth < maxDepth →
      Eval.FindsReceiver r.setting closure values { m₂ with depth := m₂.depth + 1 } object' := by
    intro harity hdepth
    rw [heq] at harity ⊢
    refine World.findsReceiver hexplains.kept r.course.closed_begins hfits hreceives' hvalues harity ?_
    intro task m' hasks
    refine begins_of_call hbegun hcallee harguments ?_
    rw [heq, Eval.call_function harity hdepth, Eval.run_eq]
    exact hasks.bind_left.atEnd
  refine ⟨hinitializer, hfinds, ?_⟩
  intro value m' hends
  have hcall := hends.of_call hcallee harguments
  rcases Eval.ends_call hcall with ⟨harity, hdepth, -⟩
  exact (hfinds (Option.some.inj harity).symm hdepth).gives hinitializer hcall

/-- The method that is listed under the name of initializers was declared with that name. -/
theorem World.name_of_method {W : World} {t : Store} {cls : Class} {name : Ident}
    (hcls : W.ClassFits t cls) (hmethod : cls.method? name.name = some method)
    (hname : name.name = initializerName) : method.name = initializerName :=
  (hcls.method hmethod).1.symm.trans hname

/-- However an initializer is called, as part of calling a class, as a property of the instance, as a
method of the superclass or as a value that was made at any earlier time: if the call has a value, it
is the instance that the initializer was bound to, and this instance is found when the body has
ended. For a class the instance is a new one. -/
theorem History.initializer_gives_instance (h : History runs s)
    (hr : s.running? clock text = some r)
    (hbegun : r.Begins (.evaluate frame (.call node callee arguments)) m)
    (hcallee : (Task.evaluate frame callee).Ends r.setting m (.ok v) m₁)
    (harguments : (Eval.evaluateAll frame arguments).Ends r.setting m₁ (.ok values) m₂) :
    let Gives := fun object : Instance => ∀ value m',
      (Task.evaluate frame (.call node callee arguments)).Ends r.setting m (.ok value) m' →
        value = .instance object
    (∀ cls, v = .class cls → ∃ object : Instance, object.cls = cls ∧ m₂.store.Lacks object ∧
      (∀ other, .instance other ∈ values → other.id ≠ object.id) ∧ Gives object ∧
      ∀ method, cls.method? initializerName = some method → values.length = cls.arity →
        m₂.depth < maxDepth → r.Binds method object m₂.store.frames.size ∧
          method.isInitializer = true ∧
          Eval.FindsReceiver r.setting { method with frame := m₂.store.frames.size } values
            (Eval.preparing cls method m₂) object) ∧
    (∀ id closure, v = .function id closure →
      (closure.isInitializer = true →
        ∃ r₀ ∈ runs ++ [r], ∃ method object, r₀.Binds method object closure.frame) ∧
      ∀ r₀ ∈ runs ++ [r], ∀ method object, r₀.Binds method object closure.frame →
        closure.name = initializerName → closure.isInitializer = true ∧ Gives object ∧
          (values.length = closure.arity → m₂.depth < maxDepth →
            Eval.FindsReceiver r.setting closure values { m₂ with depth := m₂.depth + 1 } object)) ∧
    (∀ id target name object m₀, callee = .get id target name → name.name = initializerName →
      (Task.evaluate frame target).Ends r.setting m (.ok (.instance object)) m₀ →
        m₀.store.field? object name.name = none → Gives object) ∧
    ∀ superNode name, callee = .super superNode name → name.name = initializerName →
      ∃ near object, r.setting.locals.distance? superNode.id = some (near + 1) ∧
        m.store.getAt frame near thisName = .ok (.instance object) ∧ Gives object := by
  have hbegun₁ : r.Begins (.evaluate frame callee) m := .inside hbegun .now
  rcases h.fits_operands hr hbegun hcallee harguments with ⟨hfits, -, hv, hvalues⟩
  refine ⟨?_, ?_, ?_, ?_⟩
  · rintro cls rfl
    refine ⟨⟨m₂.store.fields.size, cls⟩, rfl, hfits.lacks, ?_, ?_, ?_⟩
    · intro other hother
      exact Nat.ne_of_lt (hvalues _ hother).made
    · intro value m' hends
      rcases Eval.ends_call (hends.of_call hcallee harguments) with ⟨-, -, m'', hinvoke⟩
      have heq := Eval.ends_invoke_class hinvoke
      exact heq
    · intro method hmethod harity hdepth
      exact h.call_class_gives hr hbegun hcallee harguments hmethod harity hdepth
  · rintro id closure rfl
    refine ⟨?_, ?_⟩
    · intro hinitializer
      rcases hv with ⟨-, ⟨-, hplain⟩ | ⟨method, object, hreceives, -⟩⟩
      · rw [hplain] at hinitializer
        cases hinitializer
      · rcases hreceives.bound with ⟨r₀, hr₀, hbinds⟩
        exact ⟨r₀, hr₀, method, object, hbinds⟩
    · intro r₀ hr₀ method object hbinds hname
      rcases h.call_function_gives hr hbegun hcallee harguments hr₀ hbinds hname with
        ⟨hinitializer, hfinds, hgives⟩
      exact ⟨hinitializer, hgives, hfinds⟩
  · -- The method is found under the name of initializers, so it was declared with that name.
    rintro id target name object m₀ rfl hname htarget hfield
    rcases hcallee.of_get htarget hfield with ⟨id', method, hmethod, rfl⟩
    rcases h.after hr (.inside hbegun₁ .now) htarget with ⟨-, -, hobject⟩
    have hcls := (hobject _ rfl).cls
    have hbinds : r.Binds method object m₀.store.frames.size :=
      ⟨_, m, hbegun₁, .property htarget hfield hmethod⟩
    have hown : method.name = initializerName := World.name_of_method hcls hmethod hname
    exact (h.call_function_gives hr hbegun hcallee harguments (by simp) hbinds hown).2.2
  · -- The instance is the one that is found at `this`, one step nearer than the superclass.
    rintro superNode name rfl hname
    rcases hcallee.of_super with
      ⟨near, cls, object, id, method, hdistance, hsuper, hthis, hmethod, rfl⟩
    rcases h.before hr hbegun₁ with ⟨hfits₀, -⟩
    have hbinds : r.Binds method object m.store.frames.size :=
      ⟨_, m, hbegun₁, .super hdistance hsuper hthis hmethod⟩
    have hown : method.name = initializerName :=
      World.name_of_method (World.fits_of_getAt hfits₀ hsuper) hmethod hname
    exact ⟨near, object, hdistance, hthis,
      (h.call_function_gives hr hbegun hcallee harguments (by simp) hbinds hown).2.2⟩

theorem ends_constructingCall :
    Task.Ends constructingRun.setting (.evaluate 0 constructingCall) constructingMachine
      (.ok (.instance ⟨0, constructingValue⟩)) (constructedMachine 0) :=
  ⟨4, rfl⟩

/-- The initializer as a property of the new instance. -/
def repeatingInit : Value :=
  .function 2 ⟨constructingInit, 3, true⟩

/-- The machine after the initializer has been read as a property, with what is added later. -/
def repeatingMachine (later : List Frame) : Machine :=
  machineOf (.mk (⟨[], [("clock", .native 0), ("A", .class constructingValue)]⟩ ::
    ⟨[0], [("this", .instance ⟨0, constructingValue⟩)]⟩ :: ⟨[1, 0], []⟩ ::
    ⟨[0], [("this", .instance ⟨0, constructingValue⟩)]⟩ :: later)) #[[]] 3 0

theorem initializer_gives_instance_constructingRun :
    ∃ value m, (Task.evaluate 0 repeatingCall).Ends constructingRun.setting constructingMachine
      (.ok value) m ∧ value = .instance ⟨0, constructingValue⟩ := by
  have hget : (Task.evaluate 0 (.get 3 constructingCall ⟨"init", 26, 4⟩)).Ends
      constructingRun.setting constructingMachine (.ok repeatingInit) (repeatingMachine []) :=
    ⟨5, rfl⟩
  have harguments : (Eval.evaluateAll 0 []).Ends constructingRun.setting (repeatingMachine [])
      (.ok []) (repeatingMachine []) :=
    ⟨0, rfl⟩
  have hends : (Task.evaluate 0 repeatingCall).Ends constructingRun.setting constructingMachine
      (.ok (.instance ⟨0, constructingValue⟩)) (repeatingMachine [⟨[3, 0], []⟩]) :=
    .of_round (hget.ask ⟨6, rfl⟩)
  rcases History.empty.initializer_gives_instance running?_constructingRun begins_repeatingCall hget
    harguments with ⟨-, -, hproperty, -⟩
  exact ⟨_, _, hends, hproperty 3 constructingCall ⟨"init", 26, 4⟩ _ _ rfl rfl
    ends_constructingCall rfl _ _ hends⟩

end Session

end Lox
