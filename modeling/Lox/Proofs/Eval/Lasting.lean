import Lox.Proofs.Eval.Course
import Lox.Proofs.Store.Basic

/-!
# What only assignments to fields change

From question to question a course changes the store by operations of the store. What all of them
leave as it is, but the one that sets a field, is left by every round of every task that does not
assign to a field, and by every such assignment that fails.

* `Course.Climbs` says by what a course changes the store.
* `Store.Lasting` is what a relation of stores has to satisfy.

Main statement: `Task.climbs_round`.
-/

namespace Lox

variable {α β : Type}

/-- A relation between a store and a later one that every operation keeps, but the one that sets a
field. -/
structure Store.Lasting (R : Store → Store → Prop) : Prop where
  refl : ∀ s, R s s
  trans : ∀ s t u, R s t → R t u → R s u
  define : ∀ s f name value, R s (s.define f name value)
  addFrame : ∀ s outer, R s (s.addFrame outer).2
  fresh : ∀ s, R s s.fresh.2
  newInstance : ∀ s cls, R s (s.newInstance cls).2

/-- Up to its first question, and between an answer and the next question, a course changes the store
by `R`; between the last answer and its end as `E` says. -/
def Course.Climbs (R : Store → Store → Prop) (E : Store → Except Fault α → Store → Prop) :
    Store → Course α → Prop
  | s, .ended r m => E s r m.store
  | s, .ask _ m next => R s m.store ∧ ∀ r m', (next r m').Climbs R E m'.store

/-- A step changes the store by `R` throughout. -/
def Eval.Changes (setting : Setting) (R : Store → Store → Prop) (x : Eval α) : Prop :=
  ∀ m, (x setting m).Climbs R (fun s _ t => R s t) m.store

variable {R : Store → Store → Prop}

namespace Course.Climbs

variable {E : Store → Except Fault α → Store → Prop}

theorem mono {F : Store → Except Fault α → Store → Prop} {c : Course α} {s : Store}
    (h : c.Climbs R E s) (hEF : ∀ s r t, E s r t → F s r t) : c.Climbs R F s := by
  induction c generalizing s with
  | ended r m => exact hEF s r m.store h
  | ask task m next ih => exact ⟨h.1, fun r m' => ih r m' (h.2 r m')⟩

theorem since (hR : Store.Lasting R) {c : Course α} {s t : Store} (hst : R s t)
    (h : c.Climbs R (fun s _ t => R s t) t) : c.Climbs R (fun s _ t => R s t) s := by
  cases c with
  | ended r m => exact hR.trans s t m.store hst h
  | ask task m next => exact ⟨hR.trans s t m.store hst h.1, h.2⟩

theorem bind (hR : Store.Lasting R) {c : Course α} {f : α → Machine → Course β} {s : Store}
    (h : c.Climbs R (fun s _ t => R s t) s)
    (hf : ∀ a m, (f a m).Climbs R (fun s _ t => R s t) m.store) :
    (c.bind f).Climbs R (fun s _ t => R s t) s := by
  -- The store varies: after an answer changes are counted from the store that was left.
  induction c generalizing s with
  | ended r m =>
      cases r with
      | ok a => exact (hf a m).since hR h
      | error fault => exact h
  | ask task m next ih => exact ⟨h.1, fun r m' => ih r m' (h.2 r m')⟩

theorem atEnd {change : Machine → Machine} (hchange : ∀ m, (change m).store = m.store)
    {c : Course α} {s : Store} (h : c.Climbs R (fun s _ t => R s t) s) :
    (c.atEnd change).Climbs R (fun s _ t => R s t) s := by
  induction c generalizing s with
  | ended r m =>
      have hend : R s (change m).store := by
        rw [hchange]
        exact h
      exact hend
  | ask task m next ih => exact ⟨h.1, fun r m' => ih r m' (h.2 r m')⟩

end Course.Climbs

namespace Eval

variable {setting : Setting} {frame : FrameId}

namespace Changes

/-- A step that asks for nothing. -/
theorem of_ended {x : Eval α} (h : ∀ m, ∃ r m', x setting m = .ended r m' ∧ R m.store m'.store) :
    Changes setting R x := by
  intro m
  rcases h m with ⟨r, m', hx, hm⟩
  rw [hx]
  exact hm

theorem change {step : Store → Store} (h : ∀ s, R s (step s)) :
    Changes setting R (Eval.change step) :=
  fun m => h m.store

theorem create {step : Store → α × Store} (h : ∀ s, R s (step s).2) :
    Changes setting R (Eval.create step) :=
  fun m => h m.store

end Changes

variable (hR : Store.Lasting R)

include hR

namespace Changes

theorem pure (a : α) : Changes setting R (Pure.pure a) :=
  fun m => hR.refl m.store

theorem fail (cause : FaultCause) (place : Span) :
    Changes setting R (Eval.fail cause place : Eval α) :=
  fun m => hR.refl m.store

theorem bind {x : Eval α} {f : α → Eval β} (hx : Changes setting R x)
    (hf : ∀ a, Changes setting R (f a)) : Changes setting R (x >>= f) :=
  fun m => (hx m).bind hR fun a m' => hf a m'

theorem map {x : Eval α} (f : α → β) (hx : Changes setting R x) : Changes setting R (f <$> x) :=
  bind hR hx fun a => pure hR (f a)

theorem request (task : Task) : Changes setting R (Eval.request task) :=
  fun m => ⟨hR.refl m.store, fun _ m' => hR.refl m'.store⟩

theorem check (place : Span) (result : Except FaultCause α) :
    Changes setting R (Eval.check place result) := by
  cases result with
  | error cause => exact fail hR cause place
  | ok a => exact pure hR a

theorem read (place : Span) (look : Store → Except FaultCause α) :
    Changes setting R (Eval.read place look) := by
  refine of_ended fun m => ?_
  unfold Eval.read
  cases look m.store with
  | error cause => exact ⟨_, _, rfl, hR.refl m.store⟩
  | ok a => exact ⟨_, _, rfl, hR.refl m.store⟩

theorem tryChange (place : Span) {step : Store → Except FaultCause Store}
    (h : ∀ s t, step s = .ok t → R s t) : Changes setting R (Eval.tryChange place step) := by
  refine of_ended fun m => ?_
  unfold Eval.tryChange
  cases hstep : step m.store with
  | error cause => exact ⟨_, _, rfl, hR.refl m.store⟩
  | ok t => exact ⟨_, _, rfl, h m.store t hstep⟩

theorem readClock (place : Span) : Changes setting R (Eval.readClock place) := by
  refine of_ended fun m => ?_
  unfold Eval.readClock
  cases setting.clock m.readings with
  | error reason => exact ⟨_, _, rfl, hR.refl m.store⟩
  | ok seconds => exact ⟨_, _, rfl, hR.refl m.store⟩

theorem nested (place : Span) {x : Eval α} (hx : Changes setting R x) :
    Changes setting R (Eval.nested place x) := by
  intro m
  unfold Eval.nested
  split
  · exact hR.refl m.store
  · have hleave : ∀ m, (leave m).store = m.store := fun _ => rfl
    exact (hx { m with depth := m.depth + 1 }).atEnd hleave

end Changes

open Changes

/-! ## Variables -/

theorem changes_evaluateAll (es : List Expr) : Changes setting R (evaluateAll frame es) := by
  induction es with
  | nil => exact .pure hR []
  | cons e es ih =>
      exact bind hR (.request hR _) fun _ => bind hR ih fun _ => .pure hR _

theorem changes_evaluateOption (e? : Option Expr) :
    Changes setting R (evaluateOption frame e?) := by
  cases e? with
  | none => exact .pure hR _
  | some e => exact .request hR _

theorem changes_executeAll (ss : List Stmt) : Changes setting R (executeAll frame ss) := by
  induction ss with
  | nil => exact .pure hR _
  | cons s ss ih =>
      refine bind hR (.request hR _) ?_
      intro flow
      cases flow with
      | returned value => exact .pure hR _
      | normal => exact ih

theorem changes_lookUp (node : Node) (name : String) :
    Changes setting R (lookUp frame node name) := by
  refine bind hR (fun m => hR.refl m.store) ?_
  intro distance
  cases distance with
  | some distance => exact .read hR _ _
  | none => exact bind hR (fun m => hR.refl m.store) fun _ => .read hR _ _

/-- Where a name is changed in some frame, the store is changed by a definition. -/
theorem of_orUndefined {s t : Store} {name : String} {value : Value} {g? : Option FrameId}
    (ht : Store.orUndefined name (g?.map fun g => s.define g name value) = .ok t) : R s t := by
  cases g? with
  | none => cases ht
  | some g =>
      cases ht
      exact hR.define s g name value

theorem changes_assign (target : Reference) (value : Value) :
    Changes setting R (assign frame target value) := by
  refine bind hR (fun m => hR.refl m.store) ?_
  intro distance
  cases distance with
  | some distance => exact .tryChange hR _ fun _ _ ht => of_orUndefined hR ht
  | none =>
      exact bind hR (fun m => hR.refl m.store) fun _ => .tryChange hR _ fun _ _ ht =>
        of_orUndefined hR ht

theorem changes_newScope : Changes setting R (create fun store => store.newScope frame) :=
  .create fun s => hR.addFrame s _

theorem changes_define (name : String) (value : Value) :
    Changes setting R (change fun store => store.define frame name value) :=
  .change fun s => hR.define s frame name value

/-! ## Functions and instances -/

theorem changes_makeFunction (closure : Closure) : Changes setting R (makeFunction closure) :=
  bind hR (.create hR.fresh) fun _ => .pure hR _

theorem changes_bindMethod (method : Closure) (object : Instance) :
    Changes setting R (bindMethod method object) :=
  bind hR (changes_newScope hR) fun _ => bind hR (changes_define hR _ _) fun _ => .pure hR _

theorem changes_asInstance (place : Span) (cause : Value → FaultCause) (value : Value) :
    Changes setting R (asInstance place cause value) := by
  cases value with
  | «instance» object => exact .pure hR object
  | _ => exact .fail hR _ _

theorem changes_asClass (place : Span) (value : Value) :
    Changes setting R (asClass place value) := by
  cases value with
  | «class» cls => exact .pure hR cls
  | _ => exact .fail hR _ _

theorem changes_method (cls : Class) (object : Instance) (name : Ident) :
    Changes setting R (method cls object name) := by
  unfold method
  cases cls.method? name.name with
  | none => exact .fail hR _ _
  | some method => exact bind hR (changes_bindMethod hR _ _) fun _ => changes_makeFunction hR _

theorem changes_property (object : Instance) (name : Ident) :
    Changes setting R (property object name) := by
  intro m
  unfold property
  cases m.store.field? object name.name with
  | some value => exact hR.refl m.store
  | none => exact changes_method hR _ _ _ m

theorem changes_superMethod (node : Node) (name : Ident) :
    Changes setting R (superMethod frame node name) := by
  refine bind hR (fun m => hR.refl m.store) ?_
  intro distance
  cases distance with
  | none => exact .fail hR _ _
  | some distance =>
      refine bind hR (.read hR _ _) fun _ => bind hR (changes_asClass hR _ _) fun _ => ?_
      cases distance with
      | zero => exact .fail hR _ _
      | succ nearer =>
          exact bind hR (.read hR _ _) fun _ => bind hR (changes_asInstance hR _ _ _) fun _ =>
            changes_method hR _ _ _

/-! ## Calls -/

theorem changes_bindArguments (parameters : List Ident) (arguments : List Value) :
    Changes setting R (bindArguments frame parameters arguments) := by
  refine .change ?_
  -- Each argument is one definition, and `R` is transitive.
  induction parameters.zip arguments with
  | nil => exact hR.refl
  | cons pair pairs ih =>
      intro s
      exact hR.trans _ _ _ (hR.define s frame pair.1.name pair.2) (ih _)

theorem changes_callResult (closure : Closure) (flow : Flow) :
    Changes setting R (callResult closure flow) := by
  unfold callResult
  split
  · exact .read hR _ _
  · cases flow with
    | returned value => exact .pure hR value
    | normal => exact .pure hR _

theorem changes_run (closure : Closure) (arguments : List Value) :
    Changes setting R (run closure arguments) :=
  bind hR (changes_newScope hR) fun _ => bind hR (changes_bindArguments hR _ _) fun _ =>
    bind hR (changes_executeAll hR _) fun _ => changes_callResult hR _ _

theorem changes_invoke (place : Span) (callee : Value) (arguments : List Value) :
    Changes setting R (invoke place callee arguments) := by
  cases callee with
  | native id => exact .readClock hR place
  | function id closure => exact changes_run hR _ _
  | «class» cls =>
      refine bind hR (.create fun s => hR.newInstance s cls) fun object => ?_
      cases cls.method? initializerName with
      | none => exact .pure hR _
      | some method =>
          exact bind hR (changes_bindMethod hR _ _) fun _ => bind hR (changes_run hR _ _) fun _ =>
            .pure hR _
  | _ => exact .fail hR _ _

theorem changes_call (place : Span) (callee : Value) (arguments : List Value) :
    Changes setting R (call place callee arguments) := by
  unfold call
  split
  · exact .fail hR _ _
  · split
    · exact .nested hR _ (changes_invoke hR _ _ _)
    · exact .fail hR _ _

end Eval

/-- The task assigns to a field. -/
def Task.SetsField : Task → Prop
  | .evaluate _ (.set ..) => True
  | _ => False

namespace Eval

variable {setting : Setting} {frame : FrameId} (hR : Store.Lasting R)

include hR

open Changes

/-! ## Expressions and statements -/

theorem changes_valueOf {e : Expr} (h : ¬(Task.evaluate frame e).SetsField) :
    Changes setting R (valueOf frame e) := by
  cases e with
  | literal node value => exact .pure hR _
  | group node inner => exact .request hR _
  | unary node op operand => exact bind hR (.request hR _) fun _ => .check hR _ _
  | binary node op left right =>
      exact bind hR (.request hR _) fun _ => bind hR (.request hR _) fun _ => .check hR _ _
  | logical node op left right =>
      refine bind hR (.request hR _) fun first => ?_
      split
      · exact .pure hR first
      · exact .request hR _
  | var target => exact changes_lookUp hR _ _
  | assign target value =>
      exact bind hR (.request hR _) fun _ => bind hR (changes_assign hR _ _) fun _ => .pure hR _
  | call node callee arguments =>
      exact bind hR (.request hR _) fun _ => bind hR (changes_evaluateAll hR _) fun _ =>
        changes_call hR _ _ _
  | get id object name =>
      exact bind hR (.request hR _) fun _ => bind hR (changes_asInstance hR _ _ _) fun _ =>
        changes_property hR _ _
  -- This is the one expression that changes the store in a way that `R` need not allow.
  | set id object name value => exact absurd trivial h
  | this node => exact changes_lookUp hR _ _
  | super node name => exact changes_superMethod hR _ _

theorem changes_declareClass (name : Ident) (parent : Option Reference)
    (methods : List FunctionDecl) : Changes setting R (declareClass frame name parent methods) := by
  have hparent : Changes setting R (parentClass frame parent) := by
    cases parent with
    | none => exact .pure hR none
    | some parent => exact bind hR (.request hR _) fun _ => map hR _ (changes_asClass hR _ _)
  -- A frame is opened for the methods only if there is a superclass.
  have hframe : ∀ superclass, Changes setting R (methodFrame frame superclass) := by
    intro superclass
    cases superclass with
    | none => exact .pure hR frame
    | some cls =>
        exact bind hR (changes_newScope hR) fun _ => bind hR (changes_define hR _ _) fun _ =>
          .pure hR _
  have hmake : Changes setting R (makeClass frame name parent methods) :=
    bind hR (changes_define hR _ _) fun _ => bind hR hparent fun _ => bind hR (hframe _) fun _ =>
      bind hR (.create hR.fresh) fun _ => .pure hR _
  exact bind hR hmake fun _ => .tryChange hR _ fun _ _ ht => of_orUndefined hR ht

theorem changes_executeRound (s : Stmt) : Changes setting R (executeRound frame s) := by
  cases s with
  | expression e => exact bind hR (.request hR _) fun _ => .pure hR _
  | print e =>
      exact bind hR (.request hR _) fun _ => bind hR (fun m => hR.refl m.store) fun _ => .pure hR _
  | var name initial =>
      exact bind hR (changes_evaluateOption hR _) fun _ => bind hR (changes_define hR _ _) fun _ =>
        .pure hR _
  | block body => exact bind hR (changes_newScope hR) fun _ => map hR _ (changes_executeAll hR _)
  | ifElse condition consequent alternative =>
      refine bind hR (.request hR _) fun value => ?_
      split
      · exact map hR _ (.request hR _)
      · cases alternative with
        | none => exact .pure hR _
        | some s => exact map hR _ (.request hR _)
  | «while» condition body =>
      refine bind hR (.request hR _) fun value => ?_
      split
      · refine bind hR (.request hR _) fun flow => ?_
        cases flow with
        | returned value => exact .pure hR _
        | normal => exact .pure hR _
      · exact .pure hR _
  | function decl =>
      exact bind hR (changes_makeFunction hR _) fun _ => bind hR (changes_define hR _ _) fun _ =>
        .pure hR _
  | «return» keyword value => exact bind hR (changes_evaluateOption hR _) fun _ => .pure hR _
  | «class» name parent methods =>
      exact bind hR (changes_declareClass hR _ _ _) fun _ => .pure hR _

end Eval

/-- A round changes the store by `R`, unless it ends in a value that has been assigned to a field. -/
theorem Task.climbs_round (hR : Store.Lasting R) (setting : Setting) (task : Task) (m : Machine) :
    (task.round setting m).Climbs R
      (fun s r t => (∀ a, r = .ok (some a) → ¬task.SetsField) → R s t) m.store := by
  by_cases hset : task.SetsField
  · -- The store is changed besides only when the value has been got.
    cases task with
    | execute frame s => exact absurd hset id
    | evaluate frame e =>
        cases e with
        | set id target name value =>
            refine ⟨hR.refl _, ?_⟩
            intro r m₁
            cases r with
            | error fault => exact fun _ => hR.refl _
            | ok v =>
                cases v with
                | «instance» object =>
                    refine ⟨hR.refl _, ?_⟩
                    intro r' m₂
                    cases r' with
                    | error fault => exact fun _ => hR.refl _
                    | ok v' => exact fun h => absurd trivial (h v' rfl)
                | _ => exact fun _ => hR.refl _
        | _ => exact absurd hset id
  · have hchanges : task.round.Changes setting R := by
      cases task with
      | evaluate frame e => exact .map hR _ (Eval.changes_valueOf hR hset)
      | execute frame s => exact Eval.changes_executeRound hR s
    exact (hchanges m).mono fun _ _ _ h _ => h

end Lox
