import Lox.Proofs.Eval.Preservation
import Lox.Proofs.Eval.Timeline

/-!
# Frames that are added for `this` and `super`

A round that binds a method, or that makes a class with a superclass, adds a frame at some moment. At
the question or the end that comes next, the frame is there and binds what it was made for.

Main statements: `World.adds_of_binds` and `World.adds_of_makes`.
-/

namespace Lox

variable {setting : Setting} {m m₁ m₂ : Machine} {frame f : FrameId}

/-- A round that is begun on a machine adds a frame. At that moment the store has as many frames as
the number of the new one says, and next it is one that has grown from `t`. -/
def Task.Adds (setting : Setting) (task : Task) (m : Machine) (f : FrameId) (t : Store) : Prop :=
  ∀ {α β : Type} (next : Except Fault task.Result → Machine → Course β) (below : Waiting α β),
    ∃ a, Moment.Follows setting (.ofRound setting task m next below) a ∧
      a.since.store.frames.size ≤ f ∧ t.Grows a.head.store

/-- Arguments that have been evaluated lead to what is done with their values. -/
theorem Moment.follows_evaluateAll {α β : Type} {w : Waiting α β} {es : List Expr} :
    ∀ {m m' : Machine} {values : List Value} {f : List Value → Machine → Course β},
      (Eval.evaluateAll frame es).Ends setting m (.ok values) m' →
        Moment.Follows setting ⟨_, m, (Eval.evaluateAll frame es setting m).bind f, w⟩
          ⟨_, m', f values m', w⟩ := by
  induction es with
  | nil =>
      intro m m' values f h
      rcases Eval.ends_pure h with ⟨heq, rfl⟩
      cases heq
      exact .refl
  | cons e es ih =>
      intro m m' values f h
      rw [Eval.evaluateAll] at h
      rcases h.of_bind with ⟨fault, heq, -⟩ | ⟨v, m₁, he, h⟩
      · cases heq
      rcases h.of_bind with ⟨fault, heq, -⟩ | ⟨vs, m₂, hes, h⟩
      · cases heq
      rcases Eval.ends_pure h with ⟨heq, rfl⟩
      cases heq
      have hfirst := Task.Ends.of_request he
      have hothers := ih (f := fun vs m => f (v :: vs) m) hes
      refine Relation.ReflTransGen.trans hfirst.follows ?_
      have hcourse : ((Eval.evaluateAll frame es setting m₁).bind fun vs m =>
          Course.ended (.ok (v :: vs)) m).bind f =
            (Eval.evaluateAll frame es setting m₁).bind fun vs m => f (v :: vs) m :=
        Course.bind_assoc _ _ _
      rw [← hcourse] at hothers
      exact hothers

namespace World

variable {W : World} {B : Task → Machine → Prop}

/-- The machine on which the initializer of a new instance runs. -/
theorem fits_preparing {cls : Class} {method : Closure} (h : W.StoreFits m.store)
    (hcls : W.ClassFits m.store cls) (hmethod : cls.method? initializerName = some method)
    (hbound : W.bound method ⟨m.store.fields.size, cls⟩ m.store.frames.size) :
    W.StoreFits (Eval.preparing cls method m).store ∧
      W.Receives (Eval.preparing cls method m).store m.store.frames.size method
        ⟨m.store.fields.size, cls⟩ ∧
      m.store.Grows (Eval.preparing cls method m).store := by
  have hobject : W.InstanceFits (m.store.newInstance cls).2 ⟨m.store.fields.size, cls⟩ :=
    ⟨by simp [Store.newInstance], hcls.grows .newInstance⟩
  have hfits := (hobject.cls.method hmethod).2
  exact ⟨storeFits_newBound h.newInstance hfits hobject hbound, receives_newBound hfits hbound,
    Store.Grows.newInstance.trans .newBound⟩

variable (hW : W.Describes setting B)
  (hclosed : Closed setting B) (hbefore : ∀ task m, B task m → W.contract.before task m)

include hW hclosed hbefore

/-- What is known of the callee and the arguments of a call when they have been evaluated. -/
theorem fits_operands {node : Node} {callee : Expr} {arguments : List Expr} {v : Value}
    {values : List Value} (hB : B (.evaluate frame (.call node callee arguments)) m)
    (hcallee : (Task.evaluate frame callee).Ends setting m (.ok v) m₁)
    (harguments : (Eval.evaluateAll frame arguments).Ends setting m₁ (.ok values) m₂) :
    W.StoreFits m₂.store ∧ m₁.store.Grows m₂.store ∧ W.Fits m₂.store v ∧
      ∀ x ∈ values, W.Fits m₂.store x := by
  have hkept := kept hW
  rcases hbefore _ _ hB with ⟨h, owner, scopes, hvisits, hstands⟩
  have hcallee' : B (.evaluate frame callee) m := hclosed.inside hB .now
  have hended₁ : W.Ended m.store (fun v t => W.Fits t v) (.ok v) m₁ :=
    hkept.ends hclosed hcallee' (hbefore _ _ hcallee') hcallee
  rcases hended₁ with ⟨h₁, hg₁, hv⟩
  have hsafe : W.Safe setting m₁ (Eval.evaluateAll frame arguments) fun values t =>
      ∀ v ∈ values, W.Fits t v :=
    safe_evaluateAll h₁ hvisits.left.right (hstands.grows hg₁)
  have hended₂ : W.Ended m₁.store (fun values t => ∀ v ∈ values, W.Fits t v) (.ok values) m₂ := by
    refine hsafe.ends hkept hclosed ?_ harguments
    intro task m' hasks
    exact hclosed.inside hB (.later hcallee hasks.bind_left.bind_left)
  rcases hended₂ with ⟨h₂, hg₂, hvalues⟩
  exact ⟨h₂, hg₂, (hv v rfl).grows hg₂, hvalues values rfl⟩

/-- A round that binds a method adds the frame of the method. -/
theorem adds_of_binds {task : Task} {method : Closure} {object : Instance} (hB : B task m)
    (hbinds : task.Binds setting m method object f) :
    ∃ t, f < t.frames.size ∧ W.Receives t f method object ∧ task.Adds setting m f t := by
  have hbound := hW.bound task m method object f hB hbinds
  cases hbinds with
  | @property frame id target name m m' object method hends hfield hmethod =>
      have hB' : B (.evaluate frame target) m := hclosed.inside hB .now
      have hended : W.Ended m.store (fun v t => W.Fits t v) (.ok (.instance object)) m' :=
        (kept hW).ends hclosed hB' (hbefore _ _ hB') hends
      have hobject : W.InstanceFits m'.store object := hended.2.2 _ rfl
      refine ⟨_, by simp, receives_newBound (hobject.cls.method hmethod).2 hbound, ?_⟩
      intro α β next below
      refine ⟨_, hends.follows, Nat.le_refl _, ?_⟩
      change Store.Grows _ (Course.head ((Eval.property object name setting m').bind _)).store
      rw [Eval.property_apply hfield hmethod]
      exact .fresh
  | @super frame node name m near cls object method hdistance hsuper hthis hmethod =>
      rcases hbefore _ _ hB with ⟨h, -⟩
      have hcls : W.ClassFits m.store cls := fits_of_getAt h hsuper
      refine ⟨_, by simp, receives_newBound (hcls.method hmethod).2 hbound, ?_⟩
      intro α β next below
      refine ⟨_, .refl, Nat.le_refl _, ?_⟩
      change Store.Grows _ (Course.head ((Eval.superMethod frame node name setting m).bind _)).store
      rw [Eval.superMethod_apply hdistance hsuper hthis, Eval.method_apply hmethod]
      exact .fresh
  | @construction frame node callee arguments m m₁ m₂ cls values method hcallee harguments harity
      hdepth hmethod =>
      rcases fits_operands hW hclosed hbefore hB hcallee harguments with ⟨h₂, -, hcls, hvalues⟩
      rcases fits_preparing h₂ hcls hmethod hbound with ⟨hfits, hreceives, hg⟩
      refine ⟨_, by simp [Eval.preparing, Store.newInstance], hreceives, ?_⟩
      intro α β next below
      have hcall := Moment.follows_evaluateAll (w := .round (.evaluate frame _) next below)
        (f := fun values m => (Eval.call node.span (.class cls) values setting m).bind
          fun a m => .ended (.ok (some a)) m) harguments
      rw [← Course.bind_assoc] at hcall
      refine ⟨_, hcallee.follows.trans hcall, Nat.le_refl _, ?_⟩
      have hlength : values.length = method.declaration.parameters.length := by
        rw [harity, Class.arity, hmethod]
        rfl
      have hrun : W.Safe setting (Eval.preparing cls method m₂)
          (Eval.run { method with frame := m₂.store.frames.size } values) fun value t =>
            W.Fits t value :=
        safe_run hfits hreceives.functionFits (fun x hx => (hvalues x hx).grows hg) hlength
      change Store.Grows _ (Course.head (Course.bind _ _)).store
      rw [Eval.call_class harity hdepth hmethod]
      have hresult := hrun.rises.map (f := fun _ m' =>
        Course.ended (.ok (Value.instance ⟨m₂.store.fields.size, cls⟩)) m') fun _ _ => ⟨_, rfl⟩
      have hleave : ∀ a b, Growth a b → Growth a (Eval.leave b) := fun _ _ h => h
      have hround := (hresult.atEnd hleave).map (f := fun a m => Course.ended (.ok (some a)) m)
        fun _ _ => ⟨_, rfl⟩
      exact hround.head

/-- The declaration of a class with a superclass adds the frame that its methods close over. -/
theorem adds_of_makes {d : ClassDecl} {cls superclass : Class} {m' : Machine}
    (hB : B (.execute frame d.statement) m)
    (hends : (Eval.makeClass frame d.name d.parent d.methods).Ends setting m (.ok (f, cls)) m')
    (hsuper : cls.superclass? = some superclass) :
    ∃ t, f < t.frames.size ∧ t.bindings f = [(superName, .class superclass)] ∧
      (Task.execute frame d.statement).Adds setting m f t := by
  rcases hbefore _ _ hB with ⟨h, owner, scopes, hvisits, hsound, hhosts⟩
  have hname : d.name.IsWord :=
    hsound.sound.words d.statement (Stmt.mem_parts_self _) d.name
      (by simp [ClassDecl.statement, Stmt.idents])
  have hmade := (safe_makeClass h hname (fun v hv => hvisits v (List.mem_append_left _ hv))
    hhosts).ends (kept hW) hclosed
      (fun task m' hasks => hclosed.inside hB hasks.bind_left.bind_left) hends
  rcases Eval.ends_makeClass hends hsuper with ⟨reference, m₁, hparent, hvalue, rfl, rfl⟩
  refine ⟨m₁.store.newBound frame superName (.class superclass), by simp, Store.bindings_newBound, ?_⟩
  intro α β next below
  rcases d with ⟨name, parent, methods⟩
  cases hparent
  refine ⟨_, hvalue.follows, Nat.le_refl _, ?_⟩
  let made : Class := .make m₁.store.nextId name.name
    (Eval.closeMethods m₁.store.frames.size methods) (some superclass)
  let s := (m₁.store.newBound frame superName (.class superclass)).fresh.2
  have hfresh : (m₁.store.newBound frame superName (.class superclass)).Grows s := .fresh
  change Store.Grows _ (Course.head ((Eval.tryChange name.span
    (fun store => store.assign frame name.name (.class made)) setting
      { m₁ with store := s }).bind fun _ m => .ended (.ok (some Flow.normal)) m)).store
  unfold Eval.tryChange
  cases hassign : s.assign frame name.name (.class made) with
  | error cause =>
    simp only [hassign]
    exact hfresh
  | ok t =>
    simp only [hassign]
    exact hfresh.trans (.assign hmade.1.tidy hname hassign)

end World

end Lox
