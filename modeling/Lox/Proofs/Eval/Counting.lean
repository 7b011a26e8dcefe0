import Lox.Proofs.Eval.Census
import Lox.Proofs.Eval.Timeline

/-!
# Evaluation keeps the census

Whatever a step makes is listed, and what its result is, is listed as well. A course is followed with
the list at hand: where it asks for a task, the task may make the list longer, and no list that has
been got is ever given up. So this needs no fuel and no end of the run.

`Eval.Counted` is what a step has to keep, and there is one lemma for each step.

Main statement: `Task.counted_round`.
-/

namespace Lox

variable {α β : Type}

/-! ## Rules -/

/-- A course lists what it makes. Where it ends, and where it asks for a task, there is a list that
fits; a task may make the list longer. -/
def Course.Counted (P : ClassDecl → Prop) (Q : Census → α → Prop) : Course α → Census → Prop
  | .ended r m, k => k.Fits P m.store ∧ ∀ a, r = .ok a → Q k a
  | .ask task m next, k => k.Fits P m.store ∧
      ∀ r m' l, k.Extends l → l.Fits P m'.store → (∀ a, r = .ok a → l.Gives task a) →
        ∃ l', l.Extends l' ∧ (next r m').Counted P Q l'

/-- A step that is taken on `m` lists what it makes. -/
def Eval.Counted (setting : Setting) (P : ClassDecl → Prop) (k : Census) (m : Machine) (x : Eval α)
    (Q : Census → α → Prop) : Prop :=
  ∃ l, k.Extends l ∧ (x setting m).Counted P Q l

namespace Course.Counted

variable {P : ClassDecl → Prop} {Q R : Census → α → Prop} {c : Course α} {k : Census}

theorem fits (h : c.Counted P Q k) : k.Fits P c.head.store := by
  cases c with
  | ended r m => exact h.1
  | ask task m next => exact h.1

theorem mono (h : c.Counted P Q k) (hQR : ∀ l a, Q l a → R l a) : c.Counted P R k := by
  induction c generalizing k with
  | ended r m =>
      exact ⟨h.1, fun a ha => hQR k a (h.2 a ha)⟩
  | ask task m next ih =>
      refine ⟨h.1, ?_⟩
      intro r m' l hl hfits hgives
      rcases h.2 r m' l hl hfits hgives with ⟨l', hl', hnext⟩
      exact ⟨l', hl', ih r m' hnext⟩

theorem bind {f : α → Machine → Course β} {T : Census → β → Prop} (h : c.Counted P Q k)
    (hf : ∀ a m l, k.Extends l → l.Fits P m.store → Q l a →
      ∃ l', l.Extends l' ∧ (f a m).Counted P T l') :
    ∃ l, k.Extends l ∧ (c.bind f).Counted P T l := by
  -- The list varies: it is the one at hand where the rest of the course begins.
  induction c generalizing k with
  | ended r m =>
      cases r with
      | ok a => exact hf a m k (.refl k) h.1 (h.2 a rfl)
      | error fault => exact ⟨k, .refl k, h.1, fun a heq => nomatch heq⟩
  | ask task m next ih =>
      refine ⟨k, .refl k, h.1, ?_⟩
      intro r m' l hl hfits hgives
      rcases h.2 r m' l hl hfits hgives with ⟨l', hl', hnext⟩
      rcases ih r m' hnext fun a m'' n hn => hf a m'' n ((hl.trans hl').trans hn) with
        ⟨n, hn, hcounted⟩
      exact ⟨n, hl'.trans hn, hcounted⟩

theorem atEnd {change : Machine → Machine} (hchange : ∀ m, (change m).store = m.store)
    (h : c.Counted P Q k) : (c.atEnd change).Counted P Q k := by
  induction c generalizing k with
  | ended r m =>
      refine ⟨?_, h.2⟩
      rw [hchange]
      exact h.1
  | ask task m next ih =>
      refine ⟨h.1, ?_⟩
      intro r m' l hl hfits hgives
      rcases h.2 r m' l hl hfits hgives with ⟨l', hl', hnext⟩
      exact ⟨l', hl', ih r m' hnext⟩

end Course.Counted

namespace Eval

variable {setting : Setting} {P : ClassDecl → Prop} {k : Census} {m : Machine} {x : Eval α}
  {Q R : Census → α → Prop}

namespace Counted

/-- A step that asks for nothing. -/
theorem of_ended {l : Census} {r : Except Fault α} {m' : Machine} (hx : x setting m = .ended r m')
    (hl : k.Extends l) (hfits : l.Fits P m'.store) (hq : ∀ a, r = .ok a → Q l a) :
    Counted setting P k m x Q := by
  refine ⟨l, hl, ?_⟩
  rw [hx]
  exact ⟨hfits, hq⟩

theorem pure {a : α} (h : k.Fits P m.store) (hq : Q k a) :
    Counted setting P k m (Pure.pure a) Q := by
  refine .of_ended rfl (.refl k) h ?_
  intro b heq
  cases heq
  exact hq

theorem fail {cause : FaultCause} {place : Span} (h : k.Fits P m.store) :
    Counted setting P k m (Eval.fail cause place) Q :=
  .of_ended rfl (.refl k) h fun _ heq => nomatch heq

theorem mono (hx : Counted setting P k m x Q) (hQR : ∀ l a, Q l a → R l a) :
    Counted setting P k m x R := by
  rcases hx with ⟨l, hl, hx⟩
  exact ⟨l, hl, hx.mono hQR⟩

theorem bind {f : α → Eval β} {T : Census → β → Prop} (hx : Counted setting P k m x Q)
    (hf : ∀ a m' l, k.Extends l → l.Fits P m'.store → Q l a → Counted setting P l m' (f a) T) :
    Counted setting P k m (x >>= f) T := by
  rcases hx with ⟨l, hl, hx⟩
  rcases hx.bind fun a m' l' hl' => hf a m' l' (hl.trans hl') with ⟨l', hl', hbind⟩
  exact ⟨l', hl.trans hl', hbind⟩

theorem map {f : α → β} {T : Census → β → Prop} (hx : Counted setting P k m x Q)
    (h : ∀ l a, Q l a → T l (f a)) : Counted setting P k m (f <$> x) T :=
  hx.bind fun a _ l _ hfits hq => .pure hfits (h l a hq)

theorem check {place : Span} {result : Except FaultCause α} (h : k.Fits P m.store)
    (hq : ∀ a, result = .ok a → Q k a) : Counted setting P k m (Eval.check place result) Q := by
  cases result with
  | error cause => exact .fail h
  | ok a => exact .pure h (hq a rfl)

theorem read {place : Span} {look : Store → Except FaultCause α} (h : k.Fits P m.store)
    (hq : ∀ a, look m.store = .ok a → Q k a) :
    Counted setting P k m (Eval.read place look) Q := by
  cases hlook : look m.store with
  | error cause =>
      have hx : Eval.read place look setting m = .ended (.error ⟨cause, place⟩) m := by
        simp only [Eval.read, hlook]
      exact .of_ended hx (.refl k) h fun _ heq => nomatch heq
  | ok a =>
      have hx : Eval.read place look setting m = .ended (.ok a) m := by
        simp only [Eval.read, hlook]
      refine .of_ended hx (.refl k) h ?_
      intro b heq
      cases heq
      exact hq a hlook

theorem change {step : Store → Store} (h : k.Fits P (step m.store)) :
    Counted setting P k m (Eval.change step) fun _ _ => True :=
  .of_ended rfl (.refl k) h fun _ _ => trivial

theorem tryChange {place : Span} {step : Store → Except FaultCause Store} (h : k.Fits P m.store)
    (hstep : ∀ t, step m.store = .ok t → k.Fits P t) :
    Counted setting P k m (Eval.tryChange place step) fun _ _ => True := by
  cases hresult : step m.store with
  | error cause =>
      have hx : Eval.tryChange place step setting m = .ended (.error ⟨cause, place⟩) m := by
        simp only [Eval.tryChange, hresult]
      exact .of_ended hx (.refl k) h fun _ _ => trivial
  | ok t =>
      have hx : Eval.tryChange place step setting m = .ended (.ok ()) { m with store := t } := by
        simp only [Eval.tryChange, hresult]
      exact .of_ended hx (.refl k) (hstep t hresult) fun _ _ => trivial

theorem create {l : Census} {step : Store → α × Store} (hl : k.Extends l)
    (h : l.Fits P (step m.store).2) (hq : Q l (step m.store).1) :
    Counted setting P k m (Eval.create step) Q := by
  refine .of_ended rfl hl h ?_
  intro a heq
  cases heq
  exact hq

theorem print {line : String} (h : k.Fits P m.store) :
    Counted setting P k m (Eval.print line) fun _ _ => True :=
  .of_ended rfl (.refl k) h fun _ _ => trivial

theorem distance? {id : Nat} (h : k.Fits P m.store) :
    Counted setting P k m (Eval.distance? id) fun _ _ => True :=
  .of_ended rfl (.refl k) h fun _ _ => trivial

theorem globals (h : k.Fits P m.store) :
    Counted setting P k m Eval.globals fun _ _ => True :=
  .of_ended rfl (.refl k) h fun _ _ => trivial

theorem readClock {place : Span} (h : k.Fits P m.store) :
    Counted setting P k m (Eval.readClock place) Census.Has := by
  cases hclock : setting.clock m.readings with
  | error reason =>
      have hx : Eval.readClock place setting m =
          .ended (.error ⟨.nativeFailure Store.clockName reason, place⟩)
            { m with readings := m.readings + 1 } := by
        simp only [Eval.readClock, hclock]
      exact .of_ended hx (.refl k) h fun _ heq => nomatch heq
  | ok seconds =>
      have hx : Eval.readClock place setting m =
          .ended (.ok (.number seconds)) { m with readings := m.readings + 1 } := by
        simp only [Eval.readClock, hclock]
      refine .of_ended hx (.refl k) h ?_
      intro a heq
      cases heq
      trivial

theorem nested {place : Span} (h : k.Fits P m.store)
    (hx : Counted setting P k { m with depth := m.depth + 1 } x Q) :
    Counted setting P k m (Eval.nested place x) Q := by
  by_cases hdepth : maxDepth ≤ m.depth
  · exact .of_ended (if_pos hdepth) (.refl k) h fun _ heq => nomatch heq
  · -- How deep calls are nested is no part of the store, so the same list fits.
    have hnested : Eval.nested place x setting m =
        (x setting { m with depth := m.depth + 1 }).atEnd Eval.leave := if_neg hdepth
    rcases hx with ⟨l, hl, hx⟩
    refine ⟨l, hl, ?_⟩
    rw [hnested]
    exact hx.atEnd fun _ => rfl

end Counted

/-! ## Tasks -/

variable {frame : FrameId}

theorem counted_request {task : Task} (h : k.Fits P m.store) :
    Counted setting P k m (request task) fun l a => l.Gives task a :=
  ⟨k, .refl k, h, fun _ _ l _ hfits hgives => ⟨l, .refl l, hfits, hgives⟩⟩

theorem counted_evaluate {e : Expr} (h : k.Fits P m.store) :
    Counted setting P k m (evaluate frame e) Census.Has :=
  counted_request h

theorem counted_execute {s : Stmt} (h : k.Fits P m.store) :
    Counted setting P k m (execute frame s) fun l flow => l.Gives (.execute frame s) flow :=
  counted_request h

/-- All values of a list are listed. -/
def HasAll (k : Census) (values : List Value) : Prop :=
  ∀ v ∈ values, k.Has v

/-- The value of a flow is listed, if it has one. -/
def HasFlow (k : Census) (flow : Flow) : Prop :=
  ∀ v, flow = .returned v → k.Has v

theorem counted_evaluateAll {es : List Expr} : ∀ {k : Census} {m : Machine}, k.Fits P m.store →
    Counted setting P k m (evaluateAll frame es) HasAll := by
  induction es with
  | nil =>
      intro k m h
      exact .pure h fun _ hv => nomatch hv
  | cons e es ih =>
      intro k m h
      rw [evaluateAll]
      refine (counted_evaluate h).bind ?_
      intro value m₁ l₁ _ h₁ hvalue
      refine (ih h₁).bind ?_
      -- What has been got stays listed while the others are evaluated.
      intro values m₂ l₂ hl₂ h₂ hvalues
      exact .pure h₂ (List.forall_mem_cons.mpr ⟨hvalue.extends hl₂, hvalues⟩)

theorem counted_evaluateOption {e? : Option Expr} (h : k.Fits P m.store) :
    Counted setting P k m (evaluateOption frame e?) Census.Has := by
  cases e? with
  | none => exact .pure h trivial
  | some e => exact counted_evaluate h

theorem hasFlow_of_gives {s : Stmt} {flow : Flow} (h : k.Gives (.execute frame s) flow) :
    HasFlow k flow := by
  intro v heq
  subst heq
  exact h

theorem HasFlow.gives {s : Stmt} {flow : Flow} (h : HasFlow k flow) :
    k.Gives (.execute frame s) flow := by
  cases flow with
  | returned v => exact h v rfl
  | normal => trivial

theorem counted_executeAll {ss : List Stmt} : ∀ {k : Census} {m : Machine}, k.Fits P m.store →
    Counted setting P k m (executeAll frame ss) HasFlow := by
  induction ss with
  | nil =>
      intro k m h
      exact .pure h fun _ heq => nomatch heq
  | cons s ss ih =>
      intro k m h
      rw [executeAll]
      refine (counted_execute h).bind ?_
      intro flow m₁ l₁ _ h₁ hflow
      cases flow with
      | returned value => exact .pure h₁ (hasFlow_of_gives hflow)
      | normal => exact ih h₁

/-! ## Variables -/

theorem counted_getAt {place : Span} {d : Nat} {name : String} (h : k.Fits P m.store) :
    Counted setting P k m (read place fun store => store.getAt frame d name) Census.Has :=
  .read h fun _ hv => h.of_orUndefined hv

theorem counted_lookUp {node : Node} {name : String} (h : k.Fits P m.store) :
    Counted setting P k m (lookUp frame node name) Census.Has := by
  refine (Counted.distance? h).bind ?_
  intro distance m₁ l₁ _ h₁ _
  cases distance with
  | some distance =>
      exact counted_getAt h₁
  | none =>
      refine (Counted.globals h₁).bind ?_
      intro root m₂ l₂ _ h₂ _
      exact .read h₂ fun _ hv => h₂.of_orUndefined hv

theorem counted_assign {target : Reference} {value : Value} (h : k.Fits P m.store)
    (hvalue : k.Has value) : Counted setting P k m (assign frame target value) fun _ _ => True := by
  refine (Counted.distance? h).bind ?_
  intro distance m₁ l₁ hl₁ h₁ _
  cases distance with
  | some distance =>
      exact .tryChange h₁ fun _ ht => h₁.define_orUndefined (hvalue.extends hl₁) ht
  | none =>
      refine (Counted.globals h₁).bind ?_
      intro root m₂ l₂ hl₂ h₂ _
      exact .tryChange h₂ fun _ ht => h₂.define_orUndefined (hvalue.extends (hl₁.trans hl₂)) ht

theorem counted_define {name : String} {value : Value} (h : k.Fits P m.store)
    (hvalue : k.Has value) :
    Counted setting P k m (change fun store => store.define frame name value) fun _ _ => True :=
  .change (h.define hvalue)

theorem counted_newScope (h : k.Fits P m.store) :
    Counted setting P k m (create fun store => store.newScope frame) fun _ _ => True :=
  .create (.refl k) h.addFrame trivial

/-! ## Functions and instances -/

theorem counted_makeFunction {closure : Closure} (h : k.Fits P m.store) :
    Counted setting P k m (makeFunction closure) Census.Has := by
  have hid : Counted setting P k m (create Store.fresh) fun _ _ => True :=
    .create k.extends_skip h.skip trivial
  exact hid.bind fun id m' l _ hfits _ => .pure hfits trivial

theorem counted_bindMethod {method : Closure} {object : Instance} (h : k.Fits P m.store)
    (hobject : k.HasInstance object) :
    Counted setting P k m (bindMethod method object) fun _ _ => True := by
  refine (counted_newScope h).bind ?_
  intro frame m₁ l₁ hl₁ h₁ _
  have hvalue : k.Has (.instance object) := hobject
  exact (counted_define h₁ (hvalue.extends hl₁)).bind fun _ _ _ _ h₂ _ => .pure h₂ trivial

theorem counted_asInstance {place : Span} {cause : Value → FaultCause} {value : Value}
    (h : k.Fits P m.store) (hvalue : k.Has value) :
    Counted setting P k m (asInstance place cause value) Census.HasInstance := by
  cases value with
  | «instance» object => exact .pure h hvalue
  | _ => exact .fail h

theorem counted_asClass {place : Span} {value : Value} (h : k.Fits P m.store)
    (hvalue : k.Has value) : Counted setting P k m (asClass place value) Census.HasClass := by
  cases value with
  | «class» cls => exact .pure h hvalue
  | _ => exact .fail h

theorem counted_method {cls : Class} {object : Instance} {name : Ident} (h : k.Fits P m.store)
    (hobject : k.HasInstance object) :
    Counted setting P k m (method cls object name) Census.Has := by
  unfold method
  cases cls.method? name.name with
  | none => exact .fail h
  | some method =>
      exact (counted_bindMethod h hobject).bind fun _ _ _ _ h₁ _ => counted_makeFunction h₁

theorem counted_property {object : Instance} {name : Ident} (h : k.Fits P m.store)
    (hobject : k.HasInstance object) :
    Counted setting P k m (property object name) Census.Has := by
  unfold Counted property
  cases hfield : m.store.field? object name.name with
  | none =>
      exact counted_method h hobject
  | some value =>
      refine ⟨k, .refl k, h, ?_⟩
      intro v heq
      cases heq
      exact h.fields object name.name value hfield

theorem counted_superMethod {node : Node} {name : Ident} (h : k.Fits P m.store) :
    Counted setting P k m (superMethod frame node name) Census.Has := by
  refine (Counted.distance? h).bind ?_
  intro distance m₁ l₁ _ h₁ _
  cases distance with
  | none =>
      exact .fail h₁
  | some distance =>
      refine (counted_getAt h₁).bind ?_
      intro value m₂ l₂ _ h₂ hvalue
      refine (counted_asClass h₂ hvalue).bind ?_
      intro cls m₃ l₃ _ h₃ _
      cases distance with
      | zero =>
          exact .fail h₃
      | succ nearer =>
          refine (counted_getAt h₃).bind ?_
          intro receiver m₄ l₄ _ h₄ hreceiver
          refine (counted_asInstance h₄ hreceiver).bind ?_
          intro object m₅ l₅ _ h₅ hobject
          exact counted_method h₅ hobject

/-! ## Calls -/

theorem counted_bindArguments {parameters : List Ident} {arguments : List Value}
    (h : k.Fits P m.store) (harguments : HasAll k arguments) :
    Counted setting P k m (bindArguments frame parameters arguments) fun _ _ => True := by
  refine .change ?_
  -- The store varies: each argument is bound in the one that those before it leave.
  generalize m.store = s at h
  induction parameters generalizing arguments s with
  | nil =>
      exact h
  | cons parameter parameters ih =>
      cases arguments with
      | nil =>
          exact h
      | cons value values =>
          rcases List.forall_mem_cons.mp harguments with ⟨hvalue, hvalues⟩
          exact ih hvalues _ (h.define hvalue)

theorem counted_callResult {closure : Closure} {flow : Flow} (h : k.Fits P m.store)
    (hflow : HasFlow k flow) : Counted setting P k m (callResult closure flow) Census.Has := by
  unfold callResult
  split
  · exact counted_getAt h
  · cases flow with
    | returned value => exact .pure h (hflow value rfl)
    | normal => exact .pure h trivial

theorem counted_run {closure : Closure} {arguments : List Value} (h : k.Fits P m.store)
    (harguments : HasAll k arguments) :
    Counted setting P k m (run closure arguments) Census.Has := by
  refine (counted_newScope h).bind ?_
  intro frame m₁ l₁ hl₁ h₁ _
  refine (counted_bindArguments h₁ fun v hv => (harguments v hv).extends hl₁).bind ?_
  intro _ m₂ l₂ _ h₂ _
  refine (counted_executeAll h₂).bind ?_
  intro flow m₃ l₃ _ h₃ hflow
  exact counted_callResult h₃ hflow

theorem counted_invoke {place : Span} {callee : Value} {arguments : List Value}
    (h : k.Fits P m.store) (hcallee : k.Has callee) (harguments : HasAll k arguments) :
    Counted setting P k m (invoke place callee arguments) Census.Has := by
  cases callee with
  | native id =>
      exact .readClock h
  | function id closure =>
      exact counted_run h harguments
  | «class» cls =>
      -- The instance is listed before its initializer is run, which may pass it on.
      rcases h.addInstance hcallee with ⟨hfits, hinstance⟩
      have hobject : Counted setting P k m (create fun store => store.newInstance cls)
          Census.HasInstance :=
        .create (k.extends_addInstance cls) hfits hinstance
      refine hobject.bind ?_
      intro object m₁ l₁ hl₁ h₁ hobject
      have hvalue : l₁.Has (.instance object) := hobject
      cases cls.method? initializerName with
      | none =>
          exact .pure h₁ hvalue
      | some method =>
          refine (counted_bindMethod h₁ hobject).bind ?_
          intro initializer m₂ l₂ hl₂ h₂ _
          refine (counted_run h₂ fun v hv => (harguments v hv).extends (hl₁.trans hl₂)).bind ?_
          intro _ m₃ l₃ hl₃ h₃ _
          exact .pure h₃ (hvalue.extends (hl₂.trans hl₃))
  | _ =>
      exact .fail h

theorem counted_call {place : Span} {callee : Value} {arguments : List Value}
    (h : k.Fits P m.store) (hcallee : k.Has callee) (harguments : HasAll k arguments) :
    Counted setting P k m (call place callee arguments) Census.Has := by
  unfold call
  split
  · exact .fail h
  · split
    · exact .nested h (counted_invoke h hcallee harguments)
    · exact .fail h

/-! ## Expressions -/

theorem has_unary {op : UnaryOp} {operand value : Value} (h : op.apply operand = .ok value) :
    k.Has value := by
  cases op <;> cases operand <;> cases h <;> trivial

theorem has_onNumbers {operation : Float → Float → Value} {left right value : Value}
    (h : Value.onNumbers operation left right = .ok value)
    (hoperation : ∀ x y, k.Has (operation x y)) : k.Has value := by
  unfold Value.onNumbers at h
  split at h
  · cases h
    exact hoperation _ _
  · cases h

theorem has_binary {op : BinaryOp} {left right value : Value} (h : op.apply left right = .ok value) :
    k.Has value := by
  cases op with
  | add =>
      simp only [BinaryOp.apply, Value.add] at h
      split at h <;> cases h <;> trivial
  | equal | notEqual =>
      cases h
      trivial
  | _ =>
      exact has_onNumbers h fun _ _ => trivial

theorem counted_valueOf {e : Expr} (h : k.Fits P m.store) :
    Counted setting P k m (valueOf frame e) Census.Has := by
  cases e with
  | literal node value =>
      exact .pure h (k.has_literal value)
  | group node inner =>
      exact counted_evaluate h
  | unary node op operand =>
      refine (counted_evaluate h).bind ?_
      intro value m₁ l₁ _ h₁ _
      exact .check h₁ fun _ heq => has_unary heq
  | binary node op left right =>
      refine (counted_evaluate h).bind ?_
      intro first m₁ l₁ _ h₁ _
      refine (counted_evaluate h₁).bind ?_
      intro second m₂ l₂ _ h₂ _
      exact .check h₂ fun _ heq => has_binary heq
  | logical node op left right =>
      refine (counted_evaluate h).bind ?_
      intro first m₁ l₁ _ h₁ hfirst
      split
      · exact .pure h₁ hfirst
      · exact counted_evaluate h₁
  | var target =>
      exact counted_lookUp h
  | assign target value =>
      refine (counted_evaluate h).bind ?_
      intro v m₁ l₁ _ h₁ hv
      refine (counted_assign h₁ hv).bind ?_
      intro _ m₂ l₂ hl₂ h₂ _
      exact .pure h₂ (hv.extends hl₂)
  | call node callee arguments =>
      refine (counted_evaluate h).bind ?_
      intro value m₁ l₁ _ h₁ hvalue
      refine (counted_evaluateAll h₁).bind ?_
      intro values m₂ l₂ hl₂ h₂ hvalues
      exact counted_call h₂ (hvalue.extends hl₂) hvalues
  | get id object name =>
      refine (counted_evaluate h).bind ?_
      intro value m₁ l₁ _ h₁ hvalue
      refine (counted_asInstance h₁ hvalue).bind ?_
      intro object m₂ l₂ _ h₂ hobject
      exact counted_property h₂ hobject
  | set id object name value =>
      refine (counted_evaluate h).bind ?_
      intro target m₁ l₁ _ h₁ htarget
      refine (counted_asInstance h₁ htarget).bind ?_
      intro object m₂ l₂ _ h₂ _
      refine (counted_evaluate h₂).bind ?_
      intro v m₃ l₃ _ h₃ hv
      refine (Counted.change (h₃.setField hv)).bind ?_
      intro _ m₄ l₄ hl₄ h₄ _
      exact .pure h₄ (hv.extends hl₄)
  | this node =>
      exact counted_lookUp h
  | super node name =>
      exact counted_superMethod h

/-! ## Classes -/

theorem counted_parentClass {parent : Option Reference} (h : k.Fits P m.store) :
    Counted setting P k m (parentClass frame parent) fun l superclass =>
      ∀ cls ∈ superclass, l.HasClass cls := by
  cases parent with
  | none =>
      exact .pure h fun _ hcls => nomatch hcls
  | some parent =>
      refine (counted_evaluate h).bind ?_
      intro value m₁ l₁ _ h₁ hvalue
      refine (counted_asClass h₁ hvalue).map ?_
      intro l cls hcls cls' hmem
      cases hmem
      exact hcls

theorem counted_methodFrame {superclass : Option Class} (h : k.Fits P m.store)
    (hsuper : ∀ cls ∈ superclass, k.HasClass cls) :
    Counted setting P k m (methodFrame frame superclass) fun _ _ => True := by
  cases superclass with
  | none =>
      exact .pure h trivial
  | some cls =>
      refine (counted_newScope h).bind ?_
      intro inner m₁ l₁ hl₁ h₁ _
      have hvalue : k.Has (.class cls) := hsuper cls rfl
      refine (counted_define h₁ (hvalue.extends hl₁)).bind ?_
      intro _ m₂ l₂ _ h₂ _
      exact .pure h₂ trivial

/-- The class that a declaration makes gets the next number, after its superclass has got one. -/
theorem counted_makeClass {d : ClassDecl} (hd : P d) (h : k.Fits P m.store) :
    Counted setting P k m (makeClass frame d.name d.parent d.methods) fun l made =>
      l.HasClass made.2 := by
  have hnil : k.Has .nil := trivial
  refine (counted_define h hnil).bind ?_
  intro _ m₁ l₁ _ h₁ _
  refine (counted_parentClass h₁).bind ?_
  intro superclass m₂ l₂ _ h₂ hsuper₂
  refine (counted_methodFrame h₂ hsuper₂).bind ?_
  intro inner m₃ l₃ hl₃ h₃ _
  -- A class is listed only behind its superclass, which has been got by now.
  have hsuper : ∀ cls ∈ superclass, l₃.HasClass cls :=
    fun cls hcls => (hsuper₂ cls hcls).extends hl₃
  let made (id : Nat) : Class := .make id d.name.name (closeMethods inner d.methods) superclass
  have hid : ∀ id, (made id).id = id := by
    intro id
    cases superclass <;> rfl
  have hdeclares : ∀ id, Census.Declares d (made id) := by
    intro id
    cases superclass <;> exact ⟨rfl, inner, rfl⟩
  have hparent : ∀ id parent, (made id).superclass? = some parent → l₃.HasClass parent := by
    intro id parent heq
    refine hsuper parent ?_
    cases superclass with
    | none => cases heq
    | some cls => exact heq
  rcases h₃.addClass (hid m₃.store.nextId) hd (hdeclares _) (hparent _) with ⟨hfits, hhas⟩
  have hcreate : Counted setting P l₃ m₃ (create Store.fresh) fun l id => l.HasClass (made id) :=
    .create (l₃.extends_addClass _) hfits hhas
  exact hcreate.bind fun id m₄ l₄ _ h₄ hmade => .pure h₄ hmade

theorem counted_declareClass {d : ClassDecl} (hd : P d) (h : k.Fits P m.store) :
    Counted setting P k m (declareClass frame d.name d.parent d.methods) fun _ _ => True := by
  refine (counted_makeClass hd h).bind ?_
  intro made m₁ l₁ _ h₁ hmade
  have hvalue : l₁.Has (.class made.2) := hmade
  exact .tryChange h₁ fun _ ht => h₁.define_orUndefined hvalue ht

/-! ## Statements -/

/-- What a round of a statement gives is listed, if it gives anything. -/
def HasRound (k : Census) (flow? : Option Flow) : Prop :=
  ∀ flow ∈ flow?, HasFlow k flow

theorem hasRound_some {flow : Flow} (h : HasFlow k flow) : HasRound k (some flow) := by
  intro flow' heq
  cases heq
  exact h

theorem hasFlow_normal : HasFlow k .normal :=
  fun _ heq => nomatch heq

/-- A statement that ends with the given step lets the next one follow. -/
theorem counted_normal (hx : Counted setting P k m x fun _ _ => True) :
    Counted setting P k m (x >>= fun _ => Pure.pure (some Flow.normal)) HasRound :=
  hx.bind fun _ _ _ _ h _ => .pure h (hasRound_some hasFlow_normal)

theorem counted_branch {s : Stmt} (h : k.Fits P m.store) :
    Counted setting P k m (some <$> execute frame s) HasRound :=
  (counted_execute h).map fun _ _ hflow => hasRound_some (hasFlow_of_gives hflow)

theorem counted_loopRound {condition : Expr} {body : Stmt} (h : k.Fits P m.store) :
    Counted setting P k m (loopRound frame condition body) HasRound := by
  refine (counted_evaluate h).bind ?_
  intro value m₁ l₁ _ h₁ _
  split
  · refine (counted_execute h₁).bind ?_
    intro flow m₂ l₂ _ h₂ hflow
    cases flow with
    | returned value => exact .pure h₂ (hasRound_some (hasFlow_of_gives hflow))
    | normal => exact .pure h₂ fun _ heq => nomatch heq
  · exact .pure h₁ (hasRound_some hasFlow_normal)

theorem counted_executeRound {s : Stmt} (hs : ∀ d : ClassDecl, s = d.statement → P d)
    (h : k.Fits P m.store) : Counted setting P k m (executeRound frame s) HasRound := by
  cases s with
  | expression e =>
      exact counted_normal ((counted_evaluate h).mono fun _ _ _ => trivial)
  | print e =>
      refine (counted_evaluate h).bind ?_
      intro value m₁ l₁ _ h₁ _
      exact counted_normal (.print h₁)
  | var name initial =>
      refine (counted_evaluateOption h).bind ?_
      intro value m₁ l₁ _ h₁ hvalue
      exact counted_normal (counted_define h₁ hvalue)
  | block body =>
      refine (counted_newScope h).bind ?_
      intro inner m₁ l₁ _ h₁ _
      exact (counted_executeAll h₁).map fun _ _ hflow => hasRound_some hflow
  | ifElse condition consequent alternative =>
      refine (counted_evaluate h).bind ?_
      intro value m₁ l₁ _ h₁ _
      split
      · exact counted_branch h₁
      · cases alternative with
        | none => exact .pure h₁ (hasRound_some hasFlow_normal)
        | some s => exact counted_branch h₁
  | «while» condition body =>
      exact counted_loopRound h
  | function decl =>
      refine (counted_makeFunction h).bind ?_
      intro value m₁ l₁ _ h₁ hvalue
      exact counted_normal (counted_define h₁ hvalue)
  | «return» keyword value =>
      refine (counted_evaluateOption h).bind ?_
      intro value m₁ l₁ _ h₁ hvalue
      refine .pure h₁ (hasRound_some ?_)
      intro v heq
      cases heq
      exact hvalue
  | «class» name parent methods =>
      have hd : P ⟨name, parent, methods⟩ := hs ⟨name, parent, methods⟩ rfl
      exact counted_normal (counted_declareClass hd h)

end Eval

/-- The class declaration that a task executes, if it executes one, has the property. -/
def Task.Declares (P : ClassDecl → Prop) (task : Task) : Prop :=
  ∀ frame d, task = .execute frame d.statement → P d

/-- A round of a task lists what it makes. -/
theorem Task.counted_round {setting : Setting} {P : ClassDecl → Prop} {k : Census} {m : Machine}
    {task : Task} (htask : task.Declares P) (h : k.Fits P m.store) :
    task.round.Counted setting P k m fun l result? => ∀ result ∈ result?, l.Gives task result := by
  cases task with
  | evaluate frame e =>
      refine (Eval.counted_valueOf h).map ?_
      intro l value hvalue value' heq
      cases heq
      exact hvalue
  | execute frame s =>
      refine (Eval.counted_executeRound (fun d heq => htask frame d (heq ▸ rfl)) h).mono ?_
      intro l flow? hround flow hmem
      exact (hround flow hmem).gives

end Lox
