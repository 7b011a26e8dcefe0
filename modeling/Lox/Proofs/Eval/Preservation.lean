import Lox.Proofs.Eval.Code
import Lox.Proofs.Eval.Safety

/-!
# Every round keeps the contract

The functions of evaluation one by one, from variables to calls, expressions and statements.

Main statement: `World.kept`.
-/

namespace Lox

namespace World

variable {W : World} {setting : Setting} {m : Machine} {frame : FrameId}
  {owner : Option ClassDecl} {scopes : Scopes}

/-! ## Variables -/

theorem safe_getAt {place : Span} {d : Nat} {name : String} (h : W.StoreFits m.store) :
    W.Safe setting m (Eval.read place fun store => store.getAt frame d name) fun value t =>
      W.Fits t value :=
  .read h fun _ hvalue => fits_of_getAt h hvalue

theorem safe_lookUp {node : Node} {name : String} (h : W.StoreFits m.store) :
    W.Safe setting m (Eval.lookUp frame node name) fun value t => W.Fits t value := by
  unfold Eval.lookUp
  refine (Safe.distance? h).bind ?_
  intro distance? m₁ h₁ _ _
  cases distance? with
  | some distance =>
      exact safe_getAt h₁
  | none =>
      refine (Safe.globals h₁).bind ?_
      intro root m₂ h₂ _ _
      exact .read h₂ fun value hvalue => fits_of_get h₂ hvalue

theorem safe_assign {target : Reference} {value : Value} (h : W.StoreFits m.store)
    (hname : target.name.IsWord) (hvalue : W.Fits m.store value) :
    W.Safe setting m (Eval.assign frame target value) fun _ _ => True := by
  unfold Eval.assign
  refine (Safe.distance? h).bind ?_
  intro distance? m₁ h₁ hg₁ _
  cases distance? with
  | some distance =>
      refine .tryChange h₁ ?_
      intro t ht
      exact ⟨storeFits_of_assignAt h₁ hname (hvalue.grows hg₁) ht, .assignAt h₁.tidy hname ht, trivial⟩
  | none =>
      refine (Safe.globals h₁).bind ?_
      intro root m₂ h₂ hg₂ _
      refine .tryChange h₂ ?_
      intro t ht
      exact ⟨storeFits_of_assign h₂ hname (hvalue.grows (hg₁.trans hg₂)) ht,
        .assign h₂.tidy hname ht,
        trivial⟩

/-! ## Frames and functions -/

theorem safe_newScope (h : W.StoreFits m.store) (hinside : frame < m.store.frames.size) :
    W.Safe setting m (Eval.create fun store => store.newScope frame) fun inner t =>
      inner < t.frames.size ∧ t.chain inner = inner :: m.store.chain frame ∧ t.Open inner := by
  have hg : m.store.Grows (m.store.newScope frame).2 := Store.Grows.addFrame
  refine .create (h.newScope hinside) hg ⟨?_, ?_, ?_⟩
  · rw [Store.newScope, Store.size_addFrame]
    exact Nat.lt_succ_self _
  · rw [Store.newScope, Store.chain, Store.outer_addFrame]
    exact congrArg _ (if_pos rfl)
  · exact (Store.open_of_size_le (Nat.le_refl _)).of_bindings Store.bindings_addFrame

theorem safe_makeFunction {closure : Closure} (h : W.StoreFits m.store) :
    W.Safe setting m (Eval.makeFunction closure) fun value _ =>
      ∃ id, value = .function id closure := by
  have hcreate : W.Safe setting m (Eval.create Store.fresh) fun _ _ => True :=
    .create h.fresh .fresh trivial
  refine hcreate.bind ?_
  intro id m₁ h₁ _ _
  exact .pure h₁ ⟨id, rfl⟩

theorem Receives.functionFits {s : Store} {f : FrameId} {method : Closure} {object : Instance}
    (h : W.Receives s f method object) : W.FunctionFits s { method with frame := f } := by
  rcases h.stands with ⟨d, scopes, hstands, hknows⟩
  exact ⟨⟨some d, _, hstands, hknows⟩, .inr ⟨method, object, h, rfl⟩⟩

/-- The frame in which a method is bound. -/
theorem receives_newBound {s : Store} {method : Closure} {object : Instance}
    (hmethod : W.MethodFits s method) (hbound : W.bound method object s.frames.size) :
    W.Receives (s.newBound method.frame thisName (.instance object)) s.frames.size method
      object := by
  rcases hmethod with ⟨hinitializer, d, scopes, hshelters, hknows⟩
  have hstands : W.Stands (s.newBound method.frame thisName (.instance object)) s.frames.size (some d)
      (scopes.enterClass d.name d.parent) :=
    hshelters.bind .newBound (by simp) Store.chain_newBound Store.value?_newBound
  exact ⟨hbound, Store.bindings_newBound, hinitializer, d, scopes, hstands, hknows⟩

theorem storeFits_newBound {s : Store} {method : Closure} {object : Instance} (h : W.StoreFits s)
    (hmethod : W.MethodFits s method) (hobject : W.InstanceFits s object)
    (hbound : W.bound method object s.frames.size) :
    W.StoreFits (s.newBound method.frame thisName (.instance object)) := by
  have hreceives := receives_newBound hmethod hbound
  rcases hmethod with ⟨-, d, scopes, hshelters, -⟩
  exact h.newBound hshelters.frames.inside (hobject.grows .newBound)
    (.inl ⟨method, object, hreceives⟩)

theorem safe_bindMethod {method : Closure} {object : Instance} (h : W.StoreFits m.store)
    (hmethod : W.MethodFits m.store method) (hobject : W.InstanceFits m.store object)
    (hbound : W.bound method object m.store.frames.size) :
    W.Safe setting m (Eval.bindMethod method object) fun closure t =>
      closure = { method with frame := m.store.frames.size } ∧
        W.Receives t m.store.frames.size method object :=
  .of_ended rfl (.ok (storeFits_newBound h hmethod hobject hbound) .newBound
    ⟨rfl, receives_newBound hmethod hbound⟩)

/-! ## Properties -/

theorem safe_asInstance {place : Span} {cause : Value → FaultCause} {value : Value}
    (h : W.StoreFits m.store) (hvalue : W.Fits m.store value) :
    W.Safe setting m (Eval.asInstance place cause value) fun object t =>
      W.InstanceFits t object := by
  cases value with
  | «instance» object => exact .pure h hvalue
  | _ => exact .fail h

theorem safe_asClass {place : Span} {value : Value} (h : W.StoreFits m.store)
    (hvalue : W.Fits m.store value) :
    W.Safe setting m (Eval.asClass place value) fun cls t =>
      W.ClassFits t cls ∧ value = .class cls := by
  cases value with
  | «class» cls => exact .pure h ⟨hvalue, rfl⟩
  | _ => exact .fail h

theorem safe_method {cls : Class} {object : Instance} {name : Ident} (h : W.StoreFits m.store)
    (hcls : W.ClassFits m.store cls) (hobject : W.InstanceFits m.store object)
    (hbound : ∀ method, cls.method? name.name = some method →
      W.bound method object m.store.frames.size) :
    W.Safe setting m (Eval.method cls object name) fun value t => W.Fits t value := by
  unfold Eval.method
  cases hmethod : cls.method? name.name with
  | none =>
      exact .fail h
  | some method =>
      refine (safe_bindMethod h (hcls.method hmethod).2 hobject (hbound method hmethod)).bind ?_
      intro closure m₁ h₁ _ hpost
      rcases hpost with ⟨rfl, hreceives⟩
      refine (safe_makeFunction h₁).mono ?_
      intro value t _ hg hpost
      rcases hpost with ⟨id, rfl⟩
      exact (hreceives.grows hg).functionFits

theorem safe_property {object : Instance} {name : Ident} (h : W.StoreFits m.store)
    (hobject : W.InstanceFits m.store object)
    (hbound : ∀ method, m.store.field? object name.name = none →
      object.cls.method? name.name = some method → W.bound method object m.store.frames.size) :
    W.Safe setting m (Eval.property object name) fun value t => W.Fits t value := by
  cases hfield : m.store.field? object name.name with
  | none =>
      have hsafe : W.Safe setting m (Eval.method object.cls object name) fun value t =>
          W.Fits t value :=
        safe_method h hobject.cls hobject fun method => hbound method hfield
      refine ⟨?_, ?_⟩
      · simp only [Eval.property, hfield]
        exact hsafe.meets
      · simp only [Eval.property, hfield]
        exact hsafe.rises
  | some value =>
      have hx : Eval.property object name setting m = .ended (.ok value) m := by
        simp only [Eval.property, hfield]
      exact .of_ended hx (.ok h (.refl _) (h.fields object name.name _ hfield))

theorem safe_superMethod {node : Node} {name : Ident} (h : W.StoreFits m.store)
    (hbound : ∀ near cls object method, setting.locals.distance? node.id = some (near + 1) →
      m.store.getAt frame (near + 1) superName = .ok (.class cls) →
      m.store.getAt frame near thisName = .ok (.instance object) →
      cls.method? name.name = some method → W.bound method object m.store.frames.size) :
    W.Safe setting m (Eval.superMethod frame node name) fun value t => W.Fits t value := by
  unfold Eval.superMethod
  refine (Safe.distance? h).bind_ends ?_
  intro distance? m₁ hdistance h₁ _ _
  rcases Eval.ends_distance? hdistance with ⟨rfl, rfl⟩
  cases hlocal : setting.locals.distance? node.id with
  | none =>
      exact .fail h₁
  | some distance =>
      refine (safe_getAt h₁).bind_ends ?_
      intro value m₂ hsuper h₂ _ hvalue
      rcases Eval.ends_read hsuper with ⟨hsuper, rfl⟩
      refine (safe_asClass h₂ hvalue).bind_ends ?_
      intro cls m₃ hasClass h₃ _ hpost
      rcases hpost with ⟨hcls, rfl⟩
      rcases Eval.ends_asClass hasClass with ⟨-, rfl⟩
      cases distance with
      | zero =>
          exact .fail h₃
      | succ nearer =>
          refine (safe_getAt h₃).bind_ends ?_
          intro receiver m₄ hthis h₄ _ hreceiver
          rcases Eval.ends_read hthis with ⟨hthis, rfl⟩
          refine (safe_asInstance h₄ hreceiver).bind_ends ?_
          intro object m₅ hasInstance h₅ _ hobject
          rcases Eval.ends_asInstance hasInstance with ⟨rfl, rfl⟩
          exact safe_method h₅ hcls hobject fun method =>
            hbound nearer cls object method hlocal hsuper hthis

/-- Binding a name in a frame. The value need fit only once the name is bound. -/
theorem safe_define {name : Ident} {value : Value} (h : W.StoreFits m.store) (hname : name.IsWord)
    (hinside : frame < m.store.frames.size) (hopen : m.store.Open frame)
    (hvalue : W.Fits (m.store.define frame name.name value) value) :
    W.Safe setting m (Eval.change fun store => store.define frame name.name value) fun _ t =>
      (t.value? frame name.name).isSome = true := by
  have hg : m.store.Grows (m.store.define frame name.name value) := .define hname hopen
  refine .change (h.define hg hvalue) hg ?_
  simp [Store.value?_define_self hinside]

/-! ## Calls -/

/-- The parameters of a routine are bound in the frame of its body. -/
theorem safe_bindArguments {parameters : List Ident} {arguments : List Value}
    (hparameters : ∀ i ∈ parameters, i.IsWord) (hlength : arguments.length = parameters.length)
    (h : W.StoreFits m.store) (harguments : ∀ v ∈ arguments, W.Fits m.store v)
    (hhosts : W.Hosts m.store frame owner scopes) :
    W.Safe setting m (Eval.bindArguments frame parameters arguments) fun _ t =>
      W.Hosts t frame owner (scopes.defineAll parameters) := by
  suffices hfold : ∀ {s : Store} {scopes : Scopes}, W.StoreFits s →
      (∀ v ∈ arguments, W.Fits s v) → W.Hosts s frame owner scopes →
      let t := (parameters.zip arguments).foldl (fun s p => s.define frame p.1.name p.2) s
      W.StoreFits t ∧ s.Grows t ∧ W.Hosts t frame owner (scopes.defineAll parameters) by
    rcases hfold h harguments hhosts with ⟨hfits, hgrows, hhosts'⟩
    exact .change hfits hgrows hhosts'
  clear h harguments hhosts
  induction parameters generalizing arguments with
  | nil =>
      intro s scopes h _ hhosts
      exact ⟨h, .refl _, hhosts⟩
  | cons name names ih =>
      intro s scopes h harguments hhosts
      cases arguments with
      | nil =>
          cases hlength
      | cons value values =>
          have hname : name.IsWord := hparameters name List.mem_cons_self
          have hg : s.Grows (s.define frame name.name value) := .define hname hhosts.opened
          have hbound : ((s.define frame name.name value).value? frame name.name).isSome = true := by
            simp [Store.value?_define_self hhosts.frames.inside]
          have hvalue : W.Fits (s.define frame name.name value) value :=
            (harguments value List.mem_cons_self).grows hg
          have hothers := ih (fun i hi => hparameters i (List.mem_cons_of_mem _ hi))
            (Nat.succ.inj hlength) (h.define hg hvalue)
            (fun v hv => (harguments v (List.mem_cons_of_mem _ hv)).grows hg)
            ((hhosts.grows hg).define hname hbound)
          rcases hothers with ⟨hfits, hgrows, hhosts'⟩
          exact ⟨hfits, hg.trans hgrows, hhosts'⟩

theorem safe_callResult {closure : Closure} {flow : Flow} (h : W.StoreFits m.store)
    (hflow : ∀ value, flow = .returned value → W.Fits m.store value) :
    W.Safe setting m (Eval.callResult closure flow) fun value t => W.Fits t value := by
  unfold Eval.callResult
  split
  · exact safe_getAt h
  · cases flow with
    | returned value => exact .pure h (hflow value rfl)
    | normal => exact .pure h trivial

theorem safe_runBody {closure : Closure} {arguments : List Value} (h : W.StoreFits m.store)
    (hclosure : W.FunctionFits m.store closure) (harguments : ∀ v ∈ arguments, W.Fits m.store v)
    (hlength : arguments.length = closure.declaration.parameters.length) :
    W.Safe setting m (Eval.runBody closure arguments) fun flow t =>
      ∀ value, flow = .returned value → W.Fits t value := by
  rcases hclosure with ⟨⟨owner, scopes, hstands, hknows⟩, -⟩
  refine (safe_newScope h hstands.frames.inside).bind ?_
  intro inner m₁ h₁ hg₁ hpost
  rcases hpost with ⟨hinside, hchain, hopen⟩
  refine (safe_bindArguments hknows.parameters hlength h₁
    (fun v hv => (harguments v hv).grows hg₁) ⟨hstands.enter hg₁ hinside hchain, hopen⟩).bind ?_
  intro _ m₂ h₂ _ hhosts₂
  have hvisits := hknows.visits
  have hsound := hknows.sound
  rw [Stmt.visitsRoutine_eq] at hvisits
  rw [Stmt.partsRoutine_eq] at hsound
  exact safe_executeAll h₂ hvisits hsound hhosts₂

theorem safe_run {closure : Closure} {arguments : List Value} (h : W.StoreFits m.store)
    (hclosure : W.FunctionFits m.store closure) (harguments : ∀ v ∈ arguments, W.Fits m.store v)
    (hlength : arguments.length = closure.declaration.parameters.length) :
    W.Safe setting m (Eval.run closure arguments) fun value t => W.Fits t value := by
  rw [Eval.run_eq]
  refine (safe_runBody h hclosure harguments hlength).bind ?_
  intro flow m₁ h₁ _ hflow
  exact safe_callResult h₁ hflow

/-- The instance of a class is prepared by the initializer, which is bound to it first. -/
theorem safe_prepare {object : Instance} {method : Closure} {arguments : List Value}
    (h : W.StoreFits m.store) (hobject : W.InstanceFits m.store object)
    (harguments : ∀ v ∈ arguments, W.Fits m.store v)
    (hmethod : object.cls.method? initializerName = some method)
    (harity : arguments.length = object.cls.arity)
    (hbound : W.bound method object m.store.frames.size) :
    W.Safe setting m (Eval.prepare object method arguments) fun value t => W.Fits t value := by
  refine (safe_bindMethod h (hobject.cls.method hmethod).2 hobject hbound).bind ?_
  intro initializer m₁ h₁ hg₁ hpost
  rcases hpost with ⟨rfl, hreceives⟩
  have hlength : arguments.length = method.declaration.parameters.length := by
    rw [harity, Class.arity, hmethod]
    rfl
  have harguments₁ : ∀ v ∈ arguments, W.Fits m₁.store v :=
    fun v hv => (harguments v hv).grows hg₁
  refine (safe_run h₁ hreceives.functionFits harguments₁ hlength).bind ?_
  intro _ m₂ h₂ hg₂ _
  exact .pure h₂ (hobject.grows (hg₁.trans hg₂))

theorem safe_invoke {place : Span} {callee : Value} {arguments : List Value}
    (h : W.StoreFits m.store) (hcallee : W.Fits m.store callee)
    (harguments : ∀ v ∈ arguments, W.Fits m.store v)
    (harity : callee.arity? = some arguments.length)
    (hbound : ∀ cls method, callee = .class cls → cls.method? initializerName = some method →
      W.bound method ⟨m.store.fields.size, cls⟩ m.store.frames.size) :
    W.Safe setting m (Eval.invoke place callee arguments) fun value t => W.Fits t value := by
  cases callee with
  | native id =>
      exact .readClock h
  | function id closure =>
      exact safe_run h hcallee harguments (Option.some.inj harity).symm
  | «class» cls =>
      have hnew : W.Safe setting m (Eval.create fun store => store.newInstance cls)
          fun object t => object = ⟨m.store.fields.size, cls⟩ ∧
            t.frames.size = m.store.frames.size ∧ m.store.fields.size < t.fields.size :=
        .create h.newInstance .newInstance ⟨rfl, rfl, by simp [Store.newInstance]⟩
      rw [Eval.invoke_class]
      refine hnew.bind ?_
      intro object m₁ h₁ hg₁ hpost
      rcases hpost with ⟨rfl, hsize, hmade⟩
      have hobject : W.InstanceFits m₁.store ⟨m.store.fields.size, cls⟩ :=
        ⟨hmade, ClassFits.grows hcallee hg₁⟩
      cases hmethod : cls.method? initializerName with
      | none =>
          exact .pure h₁ hobject
      | some method =>
          have hbound₁ := hbound cls method rfl hmethod
          rw [← hsize] at hbound₁
          exact safe_prepare h₁ hobject (fun v hv => (harguments v hv).grows hg₁) hmethod
            (Option.some.inj harity).symm hbound₁
  | _ =>
      exact .fail h

theorem safe_call {place : Span} {callee : Value} {arguments : List Value}
    (h : W.StoreFits m.store) (hcallee : W.Fits m.store callee)
    (harguments : ∀ v ∈ arguments, W.Fits m.store v)
    (hbound : ∀ cls method, callee = .class cls → arguments.length = cls.arity →
      m.depth < maxDepth → cls.method? initializerName = some method →
        W.bound method ⟨m.store.fields.size, cls⟩ m.store.frames.size) :
    W.Safe setting m (Eval.call place callee arguments) fun value t => W.Fits t value := by
  unfold Eval.call
  cases harity : callee.arity? with
  | none =>
      exact .fail h
  | some arity =>
      dsimp only
      split
      · rename_i hlength
        subst hlength
        refine .nested h fun hdepth => safe_invoke h hcallee harguments harity ?_
        intro cls method heq hmethod
        subst heq
        exact hbound cls method rfl (Option.some.inj harity).symm hdepth hmethod
      · exact .fail h

/-! ## Classes -/

/-- How the class that a declaration makes and the frame of its methods fit together. -/
structure Made (W : World) (scopes : Scopes) (d : ClassDecl) (made : FrameId × Class) (t : Store) :
    Prop where
  frames : t.Matches W.root made.1 (scopes.aroundThis d.parent)
  cls : ∃ id superclass, made.2 =
    .make id d.name.name (Eval.closeMethods made.1 d.methods) superclass ∧
      (∀ cls ∈ superclass, W.ClassFits t cls) ∧
      (d.parent.isSome = true → ∃ parent, superclass = some parent ∧
        t.value? made.1 superName = some (.class parent))

theorem safe_parentClass {parent : Option Reference} (h : W.StoreFits m.store)
    (hvisits : ∀ v ∈ Expr.visitsOption owner scopes (parent.map .var), v ∈ W.visits)
    (hstands : W.Stands m.store frame owner scopes) :
    W.Safe setting m (Eval.parentClass frame parent) fun superclass t =>
      superclass.isSome = parent.isSome ∧ ∀ cls ∈ superclass, W.ClassFits t cls := by
  cases parent with
  | none =>
      exact .pure h ⟨rfl, fun _ hcls => nomatch hcls⟩
  | some parent =>
      have hparts : W.Visits owner scopes (Expr.var parent).parts :=
        fun part hpart => hvisits _ (List.mem_map_of_mem hpart)
      rw [Eval.parentClass]
      refine (safe_evaluate h hparts hstands).bind ?_
      intro value m₁ h₁ _ hvalue
      refine (safe_asClass h₁ hvalue).map ?_
      intro cls t hpost
      rcases hpost with ⟨hcls, -⟩
      refine ⟨rfl, ?_⟩
      intro _ heq
      cases heq
      exact hcls

theorem safe_methodFrame {parent : Option Reference} {superclass : Option Class}
    (h : W.StoreFits m.store) (hsome : superclass.isSome = parent.isSome)
    (hfits : ∀ cls ∈ superclass, W.ClassFits m.store cls)
    (hframes : m.store.Matches W.root frame scopes) :
    W.Safe setting m (Eval.methodFrame frame superclass) fun inner t =>
      t.Matches W.root inner (scopes.aroundThis parent) ∧
        ∀ cls ∈ superclass, t.value? inner superName = some (.class cls) := by
  cases superclass with
  | none =>
      cases parent with
      | some parent => cases hsome
      | none => exact .pure h ⟨hframes, fun _ hcls => nomatch hcls⟩
  | some cls =>
      cases parent with
      | none =>
          cases hsome
      | some parent =>
          have hsuper : (m.store.newBound frame superName (.class cls)).value? m.store.frames.size
              superName = some (.class cls) :=
            Store.value?_newBound
          have hsuits : (Value.class cls).Suits superName :=
            ⟨fun heq => absurd heq (by decide), fun _ => ⟨cls, rfl⟩⟩
          have hmatches : (m.store.newBound frame superName (.class cls)).Matches W.root
              m.store.frames.size (scopes.aroundThis (some parent)) :=
            hframes.push .newBound (by simp) Store.chain_newBound (.single hsuper hsuits)
          have hcls : W.Fits (m.store.newBound frame superName (.class cls)) (.class cls) :=
            (hfits cls rfl).grows .newBound
          have hfits' : W.StoreFits (m.store.newBound frame superName (.class cls)) :=
            h.newBound hframes.inside hcls (.inr ⟨cls, Store.bindings_newBound⟩)
          refine .of_ended rfl (.ok hfits' .newBound ⟨hmatches, ?_⟩)
          intro _ heq
          cases heq
          exact hsuper

theorem safe_makeClass {d : ClassDecl} (h : W.StoreFits m.store) (hname : d.name.IsWord)
    (hvisits : ∀ v ∈ Expr.visitsOption owner (scopes.define d.name) (d.parent.map .var),
      v ∈ W.visits)
    (hhosts : W.Hosts m.store frame owner scopes) :
    W.Safe setting m (Eval.makeClass frame d.name d.parent d.methods) fun made t =>
      W.Made (scopes.define d.name) d made t ∧ (t.value? frame d.name.name).isSome = true := by
  rw [Eval.makeClass]
  have hnil : W.Fits (m.store.define frame d.name.name .nil) .nil := trivial
  refine (safe_define h hname hhosts.frames.inside hhosts.opened hnil).bind ?_
  intro _ m₁ h₁ hg₁ hbound
  have hstands₁ : W.Stands m₁.store frame owner (scopes.define d.name) :=
    (hhosts.toStands.grows hg₁).define hname hbound
  refine (safe_parentClass h₁ hvisits hstands₁).bind ?_
  intro superclass m₂ h₂ hg₂ hpost
  rcases hpost with ⟨hsome, hfits⟩
  refine (safe_methodFrame h₂ hsome hfits (hstands₁.grows hg₂).frames).bind ?_
  intro inner m₃ h₃ hg₃ hpost
  rcases hpost with ⟨hmatches, hsuper⟩
  have hfresh : W.Safe setting m₃ (Eval.create Store.fresh) fun _ t =>
      ∀ g name, t.value? g name = m₃.store.value? g name :=
    .create h₃.fresh .fresh fun _ _ => rfl
  refine hfresh.bind ?_
  intro id m₄ h₄ hg₄ hsame
  refine .pure h₄ ⟨⟨hmatches.grows hg₄, id, superclass, rfl, ?_, ?_⟩, ?_⟩
  · intro cls hcls
    exact (hfits cls hcls).grows (hg₃.trans hg₄)
  · intro hparent
    rw [← hsome] at hparent
    rcases Option.isSome_iff_exists.mp hparent with ⟨cls, rfl⟩
    refine ⟨cls, rfl, ?_⟩
    rw [hsame]
    exact hsuper cls rfl
  · exact (hg₂.trans (hg₃.trans hg₄)).bound frame d.name.name hbound

/-- The class that a declaration has made fits, once it is known as such. -/
theorem Made.fits {d : ClassDecl} {made : FrameId × Class} {t : Store}
    (h : W.Made scopes d made t) (hmade : W.made d made.1 made.2)
    (hknows : ∀ decl ∈ d.methods, W.Knows (some d) (scopes.enterClass d.name d.parent) decl) :
    W.ClassFits t made.2 := by
  rcases h.cls with ⟨id, superclass, hcls, hfits, hsuper⟩
  have hshelters : W.Shelters t made.1 d scopes := by
    refine ⟨h.frames, ?_⟩
    intro hparent
    rcases hsuper hparent with ⟨parent, hsome, hvalue⟩
    refine ⟨made.2, parent, hmade, ?_, hvalue⟩
    rw [hcls, hsome]
    rfl
  rw [hcls]
  refine .make ?_ hfits
  intro entry hentry
  rcases Eval.mem_closeMethods hentry with ⟨decl, hdecl, rfl⟩
  exact ⟨rfl, rfl, d, scopes, hshelters, hknows decl hdecl⟩

theorem safe_declareClass {d : ClassDecl} (h : W.StoreFits m.store)
    (hmade : ∀ inner cls m', (Eval.makeClass frame d.name d.parent d.methods).Ends setting m
      (.ok (inner, cls)) m' → W.made d inner cls)
    (hvisits : ∀ v ∈ d.statement.visits owner scopes, v ∈ W.visits)
    (hsound : W.Sound d.statement.parts) (hhosts : W.Hosts m.store frame owner scopes) :
    W.Safe setting m (Eval.declareClass frame d.name d.parent d.methods) fun _ t =>
      (t.value? frame d.name.name).isSome = true := by
  have hidents := hsound.sound.words d.statement (Stmt.mem_parts_self _)
  have hname : d.name.IsWord := hidents d.name (by simp [ClassDecl.statement, Stmt.idents])
  have hknows : ∀ decl ∈ d.methods,
      W.Knows (some d) ((scopes.define d.name).enterClass d.name d.parent) decl := by
    intro decl hdecl
    refine ⟨?_, hsound.tail.method hdecl, ?_, ?_⟩
    · intro v hv
      exact hvisits v (List.mem_append_right _ (Stmt.mem_visitsMethods hdecl hv))
    · intro i hi
      refine hidents i (List.mem_cons_of_mem _ (List.mem_flatMap.mpr ⟨decl, hdecl, ?_⟩))
      exact List.mem_cons_of_mem _ hi
    · exact .inr ⟨d, hsound.known d.statement (Stmt.mem_parts_self _), hdecl⟩
  rw [Eval.declareClass]
  refine (safe_makeClass h hname (fun v hv => hvisits v (List.mem_append_left _ hv))
    hhosts).bind_ends ?_
  intro made m₁ hends h₁ hg₁ hpost
  rcases made with ⟨inner, cls⟩
  rcases hpost with ⟨hfits, hbound⟩
  have hcls : W.Fits m₁.store (.class cls) := hfits.fits (hmade inner cls m₁ hends) hknows
  refine .tryChange h₁ ?_
  intro t ht
  have hg : m₁.store.Grows t := .assign h₁.tidy hname ht
  exact ⟨storeFits_of_assign h₁ hname hcls ht, hg, hg.bound frame d.name.name hbound⟩

/-! ## Expressions -/

theorem safe_check {place : Span} {result : Except FaultCause Value} (h : W.StoreFits m.store)
    (hresult : ∀ value, result = .ok value → W.Fits m.store value) :
    W.Safe setting m (Eval.check place result) fun value t => W.Fits t value := by
  cases result with
  | error cause => exact .fail h
  | ok value => exact .pure h (hresult value rfl)

theorem fits_unary {op : UnaryOp} {operand value : Value} {s : Store}
    (h : op.apply operand = .ok value) : W.Fits s value := by
  cases op <;> cases operand <;> cases h <;> trivial

theorem fits_onNumbers {operation : Float → Float → Value} {left right value : Value} {s : Store}
    (h : Value.onNumbers operation left right = .ok value)
    (hoperation : ∀ x y, W.Fits s (operation x y)) : W.Fits s value := by
  unfold Value.onNumbers at h
  split at h
  · cases h
    exact hoperation _ _
  · cases h

theorem fits_binary {op : BinaryOp} {left right value : Value} {s : Store}
    (h : op.apply left right = .ok value) : W.Fits s value := by
  cases op with
  | add =>
      simp only [BinaryOp.apply, Value.add] at h
      split at h <;> cases h <;> trivial
  | equal | notEqual =>
      cases h
      trivial
  | _ =>
      exact fits_onNumbers h fun _ _ => trivial

theorem safe_valueOf {e : Expr} (hwords : ∀ v ∈ W.visits, ∀ i ∈ v.expr.idents, i.IsWord)
    (hbound : ∀ method object f,
      Task.Binds setting (.evaluate frame e) m method object f → W.bound method object f)
    (h : W.StoreFits m.store) (hvisits : W.Visits owner scopes e.parts)
    (hstands : W.Stands m.store frame owner scopes) :
    W.Safe setting m (Eval.valueOf frame e) fun value t => W.Fits t value := by
  cases e with
  | literal node literal =>
      exact .pure h (fits_literal W _ literal)
  | group node inner =>
      exact safe_evaluate h hvisits.left hstands
  | unary node op operand =>
      rw [Eval.valueOf]
      refine (safe_evaluate h hvisits.left hstands).bind ?_
      intro value m₁ h₁ _ _
      exact safe_check h₁ fun _ => fits_unary
  | binary node op left right =>
      rw [Eval.valueOf]
      refine (safe_evaluate h hvisits.left.left hstands).bind ?_
      intro first m₁ h₁ hg₁ _
      refine (safe_evaluate h₁ hvisits.left.right (hstands.grows hg₁)).bind ?_
      intro second m₂ h₂ _ _
      exact safe_check h₂ fun _ => fits_binary
  | logical node op left right =>
      rw [Eval.valueOf]
      refine (safe_evaluate h hvisits.left.left hstands).bind ?_
      intro first m₁ h₁ hg₁ hfirst
      split
      · exact .pure h₁ hfirst
      · exact safe_evaluate h₁ hvisits.left.right (hstands.grows hg₁)
  | var target =>
      exact safe_lookUp h
  | assign target value =>
      have hname : target.name.IsWord := by
        refine hwords _ (hvisits (.assign target value) (by simp [Expr.parts])) target.name ?_
        simp [Expr.idents]
      rw [Eval.valueOf]
      refine (safe_evaluate h hvisits.left hstands).bind ?_
      intro value m₁ h₁ _ hvalue
      refine (safe_assign h₁ hname hvalue).bind ?_
      intro _ m₂ h₂ hg₂ _
      exact .pure h₂ (hvalue.grows hg₂)
  | call node callee arguments =>
      rw [Eval.valueOf]
      refine (safe_evaluate h hvisits.left.left hstands).bind_ends ?_
      intro callee m₁ hends₁ h₁ hg₁ hcallee
      refine (safe_evaluateAll h₁ hvisits.left.right (hstands.grows hg₁)).bind_ends ?_
      intro values m₂ hends₂ h₂ hg₂ hvalues
      refine safe_call h₂ (hcallee.grows hg₂) hvalues ?_
      intro cls method heq harity hdepth hmethod
      subst heq
      exact hbound method _ _ (.construction (Task.Ends.of_request hends₁) hends₂ harity hdepth hmethod)
  | get id object name =>
      rw [Eval.valueOf]
      refine (safe_evaluate h hvisits.left hstands).bind_ends ?_
      intro value m₁ hends₁ h₁ _ hvalue
      refine (safe_asInstance h₁ hvalue).bind_ends ?_
      intro object m₂ hends₂ h₂ _ hobject
      rcases Eval.ends_asInstance hends₂ with ⟨rfl, rfl⟩
      refine safe_property h₂ hobject ?_
      intro method hfield hmethod
      exact hbound method object _ (.property (Task.Ends.of_request hends₁) hfield hmethod)
  | set id object name value =>
      rw [Eval.valueOf]
      refine (safe_evaluate h hvisits.left.right hstands).bind ?_
      intro target m₁ h₁ hg₁ htarget
      refine (safe_asInstance h₁ htarget).bind ?_
      intro object m₂ h₂ hg₂ _
      refine (safe_evaluate h₂ hvisits.left.left (hstands.grows (hg₁.trans hg₂))).bind ?_
      intro value m₃ h₃ _ hvalue
      have hset : W.Safe setting m₃ (Eval.change fun store => store.setField object name.name value)
          fun _ t => W.Fits t value :=
        .change (h₃.setField hvalue) .setField (hvalue.grows .setField)
      refine hset.bind ?_
      intro _ m₄ h₄ _ hvalue₄
      exact .pure h₄ hvalue₄
  | this node =>
      exact safe_lookUp h
  | super node name =>
      refine safe_superMethod h ?_
      intro near cls object method hdistance hsuper hthis hmethod
      exact hbound method object _ (.super hdistance hsuper hthis hmethod)

/-! ## Statements -/

/-- What is promised of a round that gives a result. -/
def RoundFits (W : World) (frame : FrameId) (s : Stmt) (flow? : Option Flow) (t : Store) : Prop :=
  ∀ flow, flow? = some flow → W.FlowFits frame s t flow

theorem roundFits_some {s : Stmt} {flow : Flow} {t : Store} (h : W.FlowFits frame s t flow) :
    W.RoundFits frame s (some flow) t := by
  intro flow' heq
  cases heq
  exact h

theorem flowFits_of_plain {s : Stmt} {t : Store} {flow : Flow} (hplain : s.declares? = none)
    (h : ∀ value, flow = .returned value → W.Fits t value) : W.FlowFits frame s t flow := by
  cases flow with
  | returned value =>
      exact h value rfl
  | normal =>
      intro name hname
      rw [hplain] at hname
      cases hname

theorem FlowFits.returned {s : Stmt} {t : Store} {flow : Flow} (h : W.FlowFits frame s t flow)
    (value : Value) (hflow : flow = .returned value) : W.Fits t value := by
  subst hflow
  exact h

/-- A branch is executed for a statement that declares nothing. -/
theorem safe_branch {s branch : Stmt} (h : W.StoreFits m.store) (hplain : s.declares? = none)
    (hvisits : ∀ v ∈ branch.visits owner scopes, v ∈ W.visits)
    (hsound : W.Sound branch.parts) (hhosts : W.Hosts m.store frame owner scopes) :
    W.Safe setting m (some <$> Eval.execute frame branch) (W.RoundFits frame s) := by
  refine (safe_execute h hvisits hsound hhosts).map ?_
  intro flow t hflow
  exact roundFits_some (flowFits_of_plain hplain hflow.returned)

/-- A statement that declares a name ends with the name bound. -/
theorem safe_declared {s : Stmt} {name : Ident} (h : W.StoreFits m.store)
    (hdeclares : s.declares? = some name)
    (hbound : (m.store.value? frame name.name).isSome = true) :
    W.Safe setting m (pure (some Flow.normal)) (W.RoundFits frame s) := by
  refine .pure h (roundFits_some ?_)
  intro name' hname'
  rw [hdeclares] at hname'
  cases hname'
  exact hbound

theorem safe_done {s : Stmt} (h : W.StoreFits m.store) (hplain : s.declares? = none) :
    W.Safe setting m (pure (some Flow.normal)) (W.RoundFits frame s) := by
  refine .pure h (roundFits_some ?_)
  intro name hname
  rw [hplain] at hname
  cases hname

theorem safe_loopRound {condition : Expr} {body : Stmt} (h : W.StoreFits m.store)
    (hcondition : W.Visits owner scopes condition.parts)
    (hbody : ∀ v ∈ body.visits owner scopes, v ∈ W.visits) (hsound : W.Sound body.parts)
    (hhosts : W.Hosts m.store frame owner scopes) :
    W.Safe setting m (Eval.loopRound frame condition body)
      (W.RoundFits frame (.while condition body)) := by
  unfold Eval.loopRound
  refine (safe_evaluate h hcondition hhosts.toStands).bind ?_
  intro value m₁ h₁ hg₁ _
  split
  · refine (safe_execute h₁ hbody hsound (hhosts.grows hg₁)).bind ?_
    intro flow m₂ h₂ _ hflow
    cases flow with
    | returned value =>
        exact .pure h₂ (roundFits_some hflow)
    | normal =>
        -- There is no result yet: the loop goes round once more.
        refine .pure h₂ ?_
        intro flow heq
        cases heq
  · exact safe_done h₁ rfl

theorem safe_ifElse {condition : Expr} {consequent : Stmt} {alternative : Option Stmt}
    (h : W.StoreFits m.store)
    (hvisits : ∀ v ∈ (Stmt.ifElse condition consequent alternative).visits owner scopes,
      v ∈ W.visits)
    (hsound : W.Sound (Stmt.ifElse condition consequent alternative).parts)
    (hhosts : W.Hosts m.store frame owner scopes) :
    W.Safe setting m (Eval.executeRound frame (.ifElse condition consequent alternative))
      (W.RoundFits frame (.ifElse condition consequent alternative)) := by
  rw [Stmt.visits] at hvisits
  have hcondition : W.Visits owner scopes condition.parts := fun part hpart =>
    hvisits _ (List.mem_append_left _ (List.mem_append_left _ (List.mem_map_of_mem hpart)))
  have hconsequent : ∀ v ∈ consequent.visits owner scopes, v ∈ W.visits := fun v hv =>
    hvisits v (List.mem_append_left _ (List.mem_append_right _ hv))
  unfold Eval.executeRound
  refine (safe_evaluate h hcondition hhosts.toStands).bind ?_
  intro value m₁ h₁ hg₁ _
  split
  · exact safe_branch h₁ rfl hconsequent hsound.tail.left (hhosts.grows hg₁)
  · cases alternative with
    | none =>
        exact safe_done h₁ rfl
    | some alternative =>
        -- The first branch declares nothing, so the second one stands in the same scopes.
        have hplain : consequent.declares? = none := (hsound.sound.plain _ (Stmt.mem_parts_self _)).1
        have hextend := Stmt.extend_of_plain scopes consequent hsound.tail.left.sound.plain
        rw [hplain] at hextend
        have halternative : ∀ v ∈ alternative.visits owner scopes, v ∈ W.visits := by
          intro v hv
          refine hvisits v (List.mem_append_right _ ?_)
          rw [hextend]
          exact hv
        exact safe_branch h₁ rfl halternative hsound.tail.right (hhosts.grows hg₁)

theorem safe_function {decl : FunctionDecl} (h : W.StoreFits m.store)
    (hidents : ∀ i ∈ (Stmt.function decl).idents, i.IsWord)
    (hvisits : ∀ v ∈ (Stmt.function decl).visits owner scopes, v ∈ W.visits)
    (hsound : W.Sound (Stmt.function decl).parts)
    (hhosts : W.Hosts m.store frame owner scopes) :
    W.Safe setting m (Eval.executeRound frame (.function decl))
      (W.RoundFits frame (.function decl)) := by
  have hname : decl.name.IsWord := hidents decl.name (by simp [Stmt.idents, Stmt.routineIdents])
  have hknows : W.Knows owner (scopes.define decl.name) decl := by
    refine ⟨hvisits, hsound.tail, ?_, .inl (hsound.known _ (Stmt.mem_parts_self _))⟩
    intro i hi
    exact hidents i (List.mem_cons_of_mem _ hi)
  rw [Eval.executeRound]
  refine (safe_makeFunction h).bind ?_
  intro _ m₁ h₁ hg₁ hpost
  rcases hpost with ⟨id, rfl⟩
  let closure : Closure := ⟨decl, frame, false⟩
  have hhosts₁ : W.Hosts m₁.store frame owner scopes := hhosts.grows hg₁
  have hg₂ : m₁.store.Grows (m₁.store.define frame decl.name.name (.function id closure)) :=
    .define hname hhosts₁.opened
  have hinside : frame < m₁.store.frames.size := hhosts₁.frames.inside
  have hbound : ((m₁.store.define frame decl.name.name (.function id closure)).value? frame
      decl.name.name).isSome = true := by
    simp [Store.value?_define_self hinside]
  -- The function fits only once its own name is bound.
  have hfits : W.Fits (m₁.store.define frame decl.name.name (.function id closure))
      (.function id closure) := by
    have hhosts₂ := (hhosts₁.grows hg₂).define hname hbound
    exact ⟨⟨owner, _, hhosts₂.toStands, hknows⟩, .inl ⟨hhosts₂.opened, rfl⟩⟩
  refine (safe_define h₁ hname hinside hhosts₁.opened hfits).bind ?_
  intro _ m₂ h₂ _ hbound₂
  exact safe_declared h₂ rfl hbound₂

theorem safe_executeRound {s : Stmt} (h : W.StoreFits m.store)
    (hmade : ∀ d : ClassDecl, s = d.statement → ∀ inner cls m',
      (Eval.makeClass frame d.name d.parent d.methods).Ends setting m (.ok (inner, cls)) m' →
        W.made d inner cls)
    (hvisits : ∀ v ∈ s.visits owner scopes, v ∈ W.visits) (hsound : W.Sound s.parts)
    (hhosts : W.Hosts m.store frame owner scopes) :
    W.Safe setting m (Eval.executeRound frame s) (W.RoundFits frame s) := by
  have hidents : ∀ i ∈ s.idents, i.IsWord := hsound.sound.words s (Stmt.mem_parts_self s)
  cases s with
  | expression e =>
      rw [Eval.executeRound]
      refine (safe_evaluate h (fun part hpart => hvisits _ (List.mem_map_of_mem hpart))
        hhosts.toStands).bind ?_
      intro _ m₁ h₁ _ _
      exact safe_done h₁ rfl
  | print e =>
      rw [Eval.executeRound]
      refine (safe_evaluate h (fun part hpart => hvisits _ (List.mem_map_of_mem hpart))
        hhosts.toStands).bind ?_
      intro value m₁ h₁ _ _
      have hprint : W.Safe setting m₁ (Eval.print value.text) fun _ _ => True := .print h₁ trivial
      refine hprint.bind ?_
      intro _ m₂ h₂ _ _
      exact safe_done h₂ rfl
  | var name initial =>
      have hname : name.IsWord := hidents name (by simp [Stmt.idents])
      rw [Eval.executeRound]
      refine (safe_evaluateOption h hvisits (hhosts.declare hname).toStands).bind ?_
      intro value m₁ h₁ hg₁ hvalue
      have hhosts₁ : W.Hosts m₁.store frame owner scopes := hhosts.grows hg₁
      refine (safe_define h₁ hname hhosts₁.frames.inside hhosts₁.opened
        (hvalue.grows (.define hname hhosts₁.opened))).bind ?_
      intro _ m₂ h₂ _ hbound
      exact safe_declared h₂ rfl hbound
  | block body =>
      rw [Eval.executeRound]
      refine (safe_newScope h hhosts.frames.inside).bind ?_
      intro inner m₁ h₁ hg₁ hpost
      rcases hpost with ⟨hinside, hchain, hopen⟩
      refine (safe_executeAll h₁ hvisits hsound.tail
        ⟨hhosts.toStands.enter hg₁ hinside hchain, hopen⟩).map ?_
      intro flow t hflow
      exact roundFits_some (flowFits_of_plain rfl hflow)
  | ifElse condition consequent alternative =>
      exact safe_ifElse h hvisits hsound hhosts
  | «while» condition body =>
      rw [Stmt.visits] at hvisits
      exact safe_loopRound h
        (fun part hpart => hvisits _ (List.mem_append_left _ (List.mem_map_of_mem hpart)))
        (fun v hv => hvisits v (List.mem_append_right _ hv)) hsound.tail hhosts
  | function decl =>
      exact safe_function h hidents hvisits hsound hhosts
  | «return» keyword value =>
      rw [Eval.executeRound]
      refine (safe_evaluateOption h hvisits hhosts.toStands).bind ?_
      intro value m₁ h₁ _ hvalue
      exact .pure h₁ (roundFits_some hvalue)
  | «class» name parent methods =>
      rw [Eval.executeRound]
      refine (safe_declareClass (d := ⟨name, parent, methods⟩) h (hmade ⟨name, parent, methods⟩ rfl)
        hvisits hsound hhosts).bind ?_
      intro _ m₁ h₁ _ hbound
      exact safe_declared h₁ rfl hbound

/-! ## The contract -/

/-- How a world describes a history: where its globals are, how its names are written, what the
class declarations that are executed among `B` have made, and which methods have been bound. -/
structure Describes (W : World) (setting : Setting) (B : Task → Machine → Prop) : Prop where
  words : ∀ v ∈ W.visits, ∀ i ∈ v.expr.idents, i.IsWord
  made : ∀ (d : ClassDecl) frame m inner cls m', B (.execute frame d.statement) m →
    (Eval.makeClass frame d.name d.parent d.methods).Ends setting m (.ok (inner, cls)) m' →
      W.made d inner cls
  bound : ∀ task m method object f, B task m → task.Binds setting m method object f →
    W.bound method object f

theorem Ended.from {α : Type} {s t : Store} {Q : α → Store → Prop} {r : Except Fault α}
    {m : Machine} (h : W.Ended t Q r m) (hg : s.Grows t) : W.Ended s Q r m :=
  ⟨h.1, hg.trans h.2.1, h.2.2⟩

variable {B : Task → Machine → Prop}

/-- A round that gives the value of an expression. -/
theorem safe_evaluateRound (hW : W.Describes setting B) {e : Expr}
    (hB : B (.evaluate frame e) m) (hbefore : W.contract.before (.evaluate frame e) m) :
    W.Safe setting m (some <$> Eval.valueOf frame e) fun value? t =>
      ∃ value, value? = some value ∧ W.Fits t value := by
  rcases hbefore with ⟨h, owner, scopes, hvisits, hstands⟩
  refine (safe_valueOf hW.words ?_ h hvisits hstands).map fun value t hvalue => ⟨value, rfl, hvalue⟩
  intro method object f
  exact hW.bound _ m method object f hB

/-- A round that executes a statement, and another one may follow it. -/
theorem safe_executed (hW : W.Describes setting B) {s : Stmt} (hB : B (.execute frame s) m)
    (hbefore : W.contract.before (.execute frame s) m) :
    W.Safe setting m (Eval.executeRound frame s) fun flow? t =>
      W.RoundFits frame s flow? t ∧ W.MayExecute t frame s := by
  rcases hbefore with ⟨h, owner, scopes, hvisits, hsound, hhosts⟩
  have hmade : ∀ d : ClassDecl, s = d.statement → ∀ inner cls m',
      (Eval.makeClass frame d.name d.parent d.methods).Ends setting m (.ok (inner, cls)) m' →
        W.made d inner cls := by
    intro d heq inner cls m' hends
    subst heq
    exact hW.made d frame m inner cls m' hB hends
  refine (safe_executeRound h hmade hvisits hsound hhosts).mono ?_
  intro flow? t _ hg hpost
  exact ⟨hpost, owner, scopes, hvisits, hsound, hhosts.grows hg⟩

/-- Every round keeps the contract of evaluation. -/
theorem kept (hW : W.Describes setting B) : W.contract.Kept setting B := by
  intro task m hB hbefore
  cases task with
  | evaluate frame e =>
      refine (safe_evaluateRound hW hB hbefore).meets.mono ?_
      intro r m' hended
      rcases r with fault | _ | value
      · have hafter : W.Ended m.store (fun value t => W.Fits t value) (.error fault) m' :=
          .error hended.1 hended.2.1
        exact hafter
      · rcases hended.2.2 none rfl with ⟨value, hnone, -⟩
        cases hnone
      · rcases hended.2.2 (some value) rfl with ⟨_, hsome, hvalue⟩
        cases hsome
        have hafter : W.Ended m.store (fun value t => W.Fits t value) (.ok value) m' :=
          .ok hended.1 hended.2.1 hvalue
        exact hafter
  | execute frame s =>
      refine (safe_executed hW hB hbefore).meets.mono ?_
      intro r m' hended
      rcases r with fault | _ | flow
      · have hafter : W.Ended m.store (fun flow t => W.FlowFits frame s t flow) (.error fault) m' :=
          .error hended.1 hended.2.1
        exact hafter
      · -- Another round begins where this one has begun.
        refine ⟨⟨hended.1, (hended.2.2 none rfl).2⟩, ?_⟩
        intro r m'' hafter
        have hended' : W.Ended m'.store (fun flow t => W.FlowFits frame s t flow) r m'' := hafter
        exact hended'.from hended.2.1
      · have hflow : W.FlowFits frame s m'.store flow := (hended.2.2 (some flow) rfl).1 flow rfl
        have hafter : W.Ended m.store (fun flow t => W.FlowFits frame s t flow) (.ok flow) m' :=
          .ok hended.1 hended.2.1 hflow
        exact hafter

/-- In every round the store only grows. -/
theorem rises_round (hW : W.Describes setting B) {task : Task} (hB : B task m)
    (hbefore : W.contract.before task m) :
    (task.round setting m).Rises setting W.contract Growth m := by
  cases task with
  | evaluate frame e => exact (safe_evaluateRound hW hB hbefore).rises
  | execute frame s => exact (safe_executed hW hB hbefore).rises

end World

end Lox
