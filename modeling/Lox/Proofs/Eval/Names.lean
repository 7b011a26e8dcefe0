import Lox.Proofs.Rename.Course

/-!
# Where names are bound

Evaluation binds a new name in three places: a declaration binds its name in the frame that it is
executed in, a call binds parameters in a frame that is new, and so are the frames that bind `this` and
`super`. An assignment changes what a name is bound to, in a frame that binds it already. So of the
frames that are there when a task is begun, only the one that it is done in gains names, and only those
that the task declares there. No frame loses a name.

* `Store.Extends` says so of two stores.
* `confining` is the contract: relative to a store, all tasks stay within what one frame may gain.
* `Eval.Confined` is what a step has to keep, and there is one lemma for each step.

Main statements: `confining_kept` and `Task.Reaches.extends`.
-/

namespace Lox

/-! ## Stores -/

namespace Store

/-- Of the frames of a store only `f` has gained names, no others than `ks`, and all names are kept. -/
structure Extends (s t : Store) (f : FrameId) (ks : List String) : Prop extends s.Gains t f ks where
  kept : ∀ g, ∀ k ∈ s.names g, k ∈ t.names g

namespace Extends

variable {s t : Store} {f g : FrameId} {ks : List String} {name : String} {value : Value}

theorem refl (s : Store) : s.Extends s f ks :=
  ⟨.refl, fun _ _ hk => hk⟩

/-- A frame that may not gain names binds the names that it bound before. -/
theorem mem_names_iff (h : s.Extends t f ks) (hg : g < s.frames.size) (hother : g ≠ f ∨ ks = []) :
    name ∈ t.names g ↔ name ∈ s.names g := by
  refine ⟨fun hname => ?_, h.kept g name⟩
  rcases h.names g hg name hname with hold | ⟨hown, hmember⟩
  · exact hold
  · rcases hother with hne | hnil
    · exact absurd hown hne
    · rw [hnil] at hmember
      cases hmember

theorem of_frames {u : Store} (h : s.Extends t f ks) (hframes : u.frames = t.frames) :
    s.Extends u f ks := by
  have hnames : ∀ g, u.names g = t.names g := by
    intro g
    rw [Store.names, Store.names, bindings, bindings, hframes]
  refine ⟨⟨hframes ▸ h.size, ?_⟩, ?_⟩
  · intro g hg k hk
    rw [hnames] at hk
    exact h.names g hg k hk
  · intro g k hk
    rw [hnames]
    exact h.kept g k hk

theorem addFrame {outer : List FrameId} (h : s.Extends t f ks) :
    s.Extends (t.addFrame outer).2 f ks := by
  have hnames : ∀ g, (t.addFrame outer).2.names g = t.names g := by
    intro g
    rw [Store.names, Store.names, bindings_addFrame]
  refine ⟨⟨?_, ?_⟩, ?_⟩
  · rw [size_addFrame]
    exact Nat.le_succ_of_le h.size
  · intro g hg k hk
    rw [hnames] at hk
    exact h.names g hg k hk
  · intro g k hk
    rw [hnames]
    exact h.kept g k hk

/-- A name may be bound in a frame that is new, in the frame that may gain it, and where it is bound. -/
theorem define (h : s.Extends t f ks)
    (hname : s.frames.size ≤ g ∨ g = f ∧ name ∈ ks ∨ name ∈ t.names g) :
    s.Extends (t.define g name value) f ks := by
  have hgains : t.Gains (t.define g name value) g [name] := .define
  refine ⟨⟨Nat.le_trans h.size hgains.size, ?_⟩, ?_⟩
  · -- A name that was there before the definition, or the new one in one of the three frames.
    intro g' hg' k hk
    rcases hgains.names g' (Nat.lt_of_lt_of_le hg' h.size) k hk with hold | ⟨rfl, hnew⟩
    · exact h.names g' hg' k hold
    · rw [List.mem_singleton.mp hnew]
      rcases hname with hfresh | howned | hbound
      · exact absurd hg' (Nat.not_lt_of_le hfresh)
      · exact .inr howned
      · exact h.names g' hg' name hbound
  · intro g' k hk
    have hold := h.kept g' k hk
    rw [Store.mem_names_iff] at hold ⊢
    rw [value?_define]
    split
    · rfl
    · exact hold

theorem assign {u : Store} (h : s.Extends t f ks) (hassign : t.assign g name value = .ok u) :
    s.Extends u f ks := by
  rcases exists_of_assign hassign with ⟨holder, hbound, rfl⟩
  exact h.define (.inr (.inr hbound))

theorem assignAt {u : Store} {d : Nat} (h : s.Extends t f ks)
    (hassign : t.assignAt g d name value = .ok u) : s.Extends u f ks := by
  rcases exists_of_assignAt hassign with ⟨holder, hbound, rfl⟩
  exact h.define (.inr (.inr hbound))

end Extends

end Store

/-! ## The contract -/

/-- The names that a task declares in its frame. -/
def Task.declarations : Task → List String
  | .evaluate _ _ => []
  | .execute _ s => s.declarations.map Ident.name

/-- A frame may gain names: it is not among the first `size` frames, or it is `f` and may gain them. -/
def MayGain (size : Nat) (f : FrameId) (ks : List String) (frame : FrameId) (names : List String) :
    Prop :=
  ∀ name ∈ names, size ≤ frame ∨ frame = f ∧ name ∈ ks

/-- The contract by which, of the frames of a store, only `f` gains names, and no others than `ks`. -/
def confining (base : Store) (f : FrameId) (ks : List String) : Contract where
  before task m :=
    base.Extends m.store f ks ∧ MayGain base.frames.size f ks task.frame task.declarations
  after _ _ _ m' := base.Extends m'.store f ks

/-- What a step does to the store stays within what `f` may gain, and its result is as `Q` says. -/
def Eval.Confined {α : Type} (setting : Setting) (base : Store) (f : FrameId) (ks : List String)
    (x : Eval α) (Q : α → Prop) : Prop :=
  ∀ m, base.Extends m.store f ks → (x setting m).Meets setting (confining base f ks) fun r m' =>
    base.Extends m'.store f ks ∧ ∀ a, r = .ok a → Q a

namespace Eval

variable {α β : Type} {setting : Setting} {base : Store} {f frame : FrameId} {ks : List String}
  {Q : α → Prop} {x : Eval α} {place : Span}

/-! ## Rules -/

namespace Confined

theorem pure {a : α} (hq : Q a) : Confined setting base f ks (Pure.pure a) Q := by
  refine fun m h => ⟨h, ?_⟩
  rintro b ⟨⟩
  exact hq

theorem fail {cause : FaultCause} : Confined setting base f ks (Eval.fail cause place) Q :=
  fun _ h => ⟨h, nofun⟩

theorem bind {g : α → Eval β} {T : β → Prop} (hx : Confined setting base f ks x Q)
    (hg : ∀ a, Q a → Confined setting base f ks (g a) T) : Confined setting base f ks (x >>= g) T := by
  intro m h
  refine Course.Meets.bind ((hx m h).mono ?_)
  rintro r m' ⟨hextends, hresult⟩
  cases r with
  | error fault => exact ⟨hextends, nofun⟩
  | ok a => exact hg a (hresult a rfl) m' hextends

theorem map {g : α → β} (hx : Confined setting base f ks x Q) :
    Confined setting base f ks (g <$> x) fun _ => True :=
  hx.bind fun _ _ => .pure trivial

/-- A step that ends at once and leaves the store as it is. -/
theorem still (h : ∀ m, ∃ r m', x setting m = .ended r m' ∧ m'.store = m.store) :
    Confined setting base f ks x fun _ => True := by
  intro m hextends
  rcases h m with ⟨r, m', hx, hstore⟩
  rw [hx]
  refine ⟨?_, fun _ _ => trivial⟩
  rw [hstore]
  exact hextends

theorem check {result : Except FaultCause α} :
    Confined setting base f ks (Eval.check place result) fun _ => True := by
  cases result with
  | error cause => exact .fail
  | ok a => exact .pure trivial

theorem read {look : Store → Except FaultCause α} :
    Confined setting base f ks (Eval.read place look) fun _ => True := by
  refine .still fun m => ?_
  unfold Eval.read
  cases look m.store with
  | error cause => exact ⟨_, m, rfl, rfl⟩
  | ok a => exact ⟨_, m, rfl, rfl⟩

theorem print (line : String) : Confined setting base f ks (Eval.print line) fun _ => True :=
  .still fun _ => ⟨_, _, rfl, rfl⟩

theorem distance? (id : Nat) : Confined setting base f ks (Eval.distance? id) fun _ => True :=
  .still fun m => ⟨_, m, rfl, rfl⟩

theorem globals : Confined setting base f ks Eval.globals fun _ => True :=
  .still fun m => ⟨_, m, rfl, rfl⟩

theorem readClock : Confined setting base f ks (Eval.readClock place) fun _ => True := by
  refine .still fun m => ?_
  unfold Eval.readClock
  cases setting.clock m.readings with
  | error reason => exact ⟨_, _, rfl, rfl⟩
  | ok seconds => exact ⟨_, _, rfl, rfl⟩

theorem change {step : Store → Store}
    (hstep : ∀ s, base.Extends s f ks → base.Extends (step s) f ks) :
    Confined setting base f ks (Eval.change step) fun _ => True :=
  fun m h => ⟨hstep m.store h, fun _ _ => trivial⟩

theorem tryChange {step : Store → Except FaultCause Store}
    (hstep : ∀ s t, base.Extends s f ks → step s = .ok t → base.Extends t f ks) :
    Confined setting base f ks (Eval.tryChange place step) fun _ => True := by
  intro m h
  unfold Eval.tryChange
  cases hresult : step m.store with
  | error cause => exact ⟨h, fun _ _ => trivial⟩
  | ok t => exact ⟨hstep m.store t h hresult, fun _ _ => trivial⟩

theorem create {step : Store → α × Store}
    (hstep : ∀ s, base.Extends s f ks → base.Extends (step s).2 f ks ∧ Q (step s).1) :
    Confined setting base f ks (Eval.create step) Q := by
  intro m h
  refine ⟨(hstep m.store h).1, ?_⟩
  rintro a ⟨⟩
  exact (hstep m.store h).2

theorem nested (hx : Confined setting base f ks x Q) :
    Confined setting base f ks (Eval.nested place x) Q := by
  intro m h
  unfold Eval.nested
  split
  · exact ⟨h, nofun⟩
  · exact Course.Meets.atEnd (hx _ h)

end Confined

/-! ## Tasks -/

theorem confined_evaluate (e : Expr) :
    Confined setting base f ks (evaluate frame e) fun _ => True :=
  fun _ h => ⟨⟨h, fun _ hnil => nomatch hnil⟩, fun _ _ _ hafter => ⟨hafter, fun _ _ => trivial⟩⟩

theorem confined_execute {s : Stmt}
    (hnames : MayGain base.frames.size f ks frame (s.declarations.map Ident.name)) :
    Confined setting base f ks (execute frame s) fun _ => True :=
  fun _ h => ⟨⟨h, hnames⟩, fun _ _ _ hafter => ⟨hafter, fun _ _ => trivial⟩⟩

theorem confined_evaluateAll (es : List Expr) :
    Confined setting base f ks (evaluateAll frame es) fun _ => True := by
  induction es with
  | nil => exact .pure trivial
  | cons e es ih => exact (confined_evaluate e).bind fun _ _ => ih.bind fun _ _ => .pure trivial

theorem confined_evaluateOption (e? : Option Expr) :
    Confined setting base f ks (evaluateOption frame e?) fun _ => True := by
  cases e? with
  | none => exact .pure trivial
  | some e => exact confined_evaluate e

/-- Statements in a frame that is new may declare what they like. -/
theorem confined_executeAll (hframe : base.frames.size ≤ frame) (ss : List Stmt) :
    Confined setting base f ks (executeAll frame ss) fun _ => True := by
  induction ss with
  | nil =>
      exact .pure trivial
  | cons s ss ih =>
      refine (confined_execute fun _ _ => .inl hframe).bind ?_
      intro flow _
      cases flow with
      | returned value => exact .pure trivial
      | normal => exact ih

/-! ## Variables, functions and instances -/

theorem confined_lookUp {node : Node} {name : String} :
    Confined setting base f ks (lookUp frame node name) fun _ => True := by
  refine (Confined.distance? _).bind ?_
  intro distance _
  cases distance with
  | some distance => exact .read
  | none => exact Confined.globals.bind fun _ _ => .read

theorem confined_assign {target : Reference} {value : Value} :
    Confined setting base f ks (assign frame target value) fun _ => True := by
  refine (Confined.distance? _).bind ?_
  intro distance _
  cases distance with
  | some distance => exact .tryChange fun _ _ h hassign => h.assignAt hassign
  | none =>
      refine Confined.globals.bind fun _ _ => ?_
      exact .tryChange fun _ _ h hassign => h.assign hassign

/-- A frame that is added is new. -/
theorem confined_newScope :
    Confined setting base f ks (create fun store => store.newScope frame)
      (base.frames.size ≤ ·) :=
  .create fun _ h => ⟨h.addFrame, h.size⟩

theorem confined_define {name : String} {value : Value}
    (hname : base.frames.size ≤ frame ∨ frame = f ∧ name ∈ ks) :
    Confined setting base f ks (change fun store => store.define frame name value) fun _ => True :=
  .change fun _ h => h.define (hname.imp_right .inl)

theorem confined_fresh : Confined setting base f ks (create Store.fresh) fun _ => True :=
  .create fun _ h => ⟨h.of_frames rfl, trivial⟩

theorem confined_setField {object : Instance} {name : String} {value : Value} :
    Confined setting base f ks (change fun store => store.setField object name value) fun _ => True :=
  .change fun _ h => h.of_frames rfl

theorem confined_makeFunction (closure : Closure) :
    Confined setting base f ks (makeFunction closure) fun _ => True :=
  confined_fresh.bind fun _ _ => .pure trivial

theorem confined_bindMethod (method : Closure) (object : Instance) :
    Confined setting base f ks (bindMethod method object) fun _ => True :=
  confined_newScope.bind fun _ hframe => (confined_define (.inl hframe)).bind fun _ _ => .pure trivial

theorem confined_asInstance {cause : Value → FaultCause} (value : Value) :
    Confined setting base f ks (asInstance place cause value) fun _ => True := by
  cases value with
  | «instance» object => exact .pure trivial
  | _ => exact .fail

theorem confined_asClass (value : Value) :
    Confined setting base f ks (asClass place value) fun _ => True := by
  cases value with
  | «class» cls => exact .pure trivial
  | _ => exact .fail

theorem confined_method {cls : Class} {object : Instance} {name : Ident} :
    Confined setting base f ks (method cls object name) fun _ => True := by
  unfold method
  cases cls.method? name.name with
  | none => exact .fail
  | some method => exact (confined_bindMethod _ _).bind fun _ _ => confined_makeFunction _

theorem confined_property {object : Instance} {name : Ident} :
    Confined setting base f ks (property object name) fun _ => True := by
  intro m h
  unfold property
  cases m.store.field? object name.name with
  | none => exact confined_method m h
  | some value => exact ⟨h, fun _ _ => trivial⟩

theorem confined_superMethod {node : Node} {name : Ident} :
    Confined setting base f ks (superMethod frame node name) fun _ => True := by
  refine (Confined.distance? _).bind ?_
  intro distance _
  cases distance with
  | none =>
      exact .fail
  | some distance =>
      refine Confined.read.bind fun value _ => ?_
      refine (confined_asClass value).bind fun cls _ => ?_
      cases distance with
      | zero =>
          exact .fail
      | succ nearer =>
          refine Confined.read.bind fun receiver _ => ?_
          exact (confined_asInstance receiver).bind fun _ _ => confined_method

/-! ## Calls -/

theorem confined_bindArguments (hframe : base.frames.size ≤ frame) (parameters : List Ident)
    (arguments : List Value) :
    Confined setting base f ks (bindArguments frame parameters arguments) fun _ => True := by
  refine .change ?_
  induction parameters.zip arguments with
  | nil => exact fun _ h => h
  | cons pair pairs ih => exact fun s h => ih _ (h.define (.inl hframe))

theorem confined_callResult {closure : Closure} {flow : Flow} :
    Confined setting base f ks (callResult closure flow) fun _ => True := by
  unfold callResult
  split
  · exact .read
  · cases flow with
    | returned value => exact .pure trivial
    | normal => exact .pure trivial

/-- A body runs in a frame that is new, so its declarations are none of the caller's. -/
theorem confined_run {closure : Closure} {arguments : List Value} :
    Confined setting base f ks (run closure arguments) fun _ => True := by
  refine confined_newScope.bind fun inner hinner => ?_
  refine (confined_bindArguments hinner _ _).bind fun _ _ => ?_
  exact (confined_executeAll hinner _).bind fun _ _ => confined_callResult

theorem confined_invoke {callee : Value} {arguments : List Value} :
    Confined setting base f ks (invoke place callee arguments) fun _ => True := by
  cases callee with
  | native id =>
      exact .readClock
  | function id closure =>
      exact confined_run
  | «class» cls =>
      have hcreate : Confined setting base f ks (create fun store => store.newInstance cls)
          fun _ => True :=
        .create fun _ h => ⟨h.of_frames rfl, trivial⟩
      refine hcreate.bind fun object _ => ?_
      cases cls.method? initializerName with
      | none => exact .pure trivial
      | some method =>
          refine (confined_bindMethod method object).bind fun initializer _ => ?_
          exact confined_run.bind fun _ _ => .pure trivial
  | _ =>
      exact .fail

theorem confined_call {callee : Value} {arguments : List Value} :
    Confined setting base f ks (call place callee arguments) fun _ => True := by
  unfold call
  split
  · exact .fail
  · split
    · exact .nested confined_invoke
    · exact .fail

/-! ## Expressions and statements -/

theorem confined_valueOf (e : Expr) :
    Confined setting base f ks (valueOf frame e) fun _ => True := by
  cases e with
  | literal node value =>
      exact .pure trivial
  | group node inner =>
      exact confined_evaluate inner
  | unary node op operand =>
      exact (confined_evaluate operand).bind fun _ _ => .check
  | binary node op left right =>
      refine (confined_evaluate left).bind fun _ _ => ?_
      exact (confined_evaluate right).bind fun _ _ => .check
  | logical node op left right =>
      refine (confined_evaluate left).bind fun first _ => ?_
      split
      · exact .pure trivial
      · exact confined_evaluate right
  | var target =>
      exact confined_lookUp
  | assign target value =>
      refine (confined_evaluate value).bind fun _ _ => ?_
      exact confined_assign.bind fun _ _ => .pure trivial
  | call node callee arguments =>
      refine (confined_evaluate callee).bind fun value _ => ?_
      exact (confined_evaluateAll arguments).bind fun _ _ => confined_call
  | get id object name =>
      refine (confined_evaluate object).bind fun value _ => ?_
      exact (confined_asInstance value).bind fun _ _ => confined_property
  | set id object name value =>
      refine (confined_evaluate object).bind fun target _ => ?_
      refine (confined_asInstance target).bind fun _ _ => ?_
      refine (confined_evaluate value).bind fun _ _ => ?_
      exact confined_setField.bind fun _ _ => .pure trivial
  | this node =>
      exact confined_lookUp
  | super node name =>
      exact confined_superMethod

theorem confined_parentClass (parent : Option Reference) :
    Confined setting base f ks (parentClass frame parent) fun _ => True := by
  cases parent with
  | none => exact .pure trivial
  | some reference =>
      exact (confined_evaluate (.var reference)).bind fun value _ => (confined_asClass value).map

theorem confined_methodFrame (superclass : Option Class) :
    Confined setting base f ks (methodFrame frame superclass) fun _ => True := by
  cases superclass with
  | none => exact .pure trivial
  | some cls =>
      refine confined_newScope.bind fun inner hinner => ?_
      exact (confined_define (.inl hinner)).bind fun _ _ => .pure trivial

theorem confined_declareClass {name : Ident} {parent : Option Reference}
    {methods : List FunctionDecl} (hname : base.frames.size ≤ frame ∨ frame = f ∧ name.name ∈ ks) :
    Confined setting base f ks (declareClass frame name parent methods) fun _ => True := by
  have hmake : Confined setting base f ks (makeClass frame name parent methods) fun _ => True := by
    refine (confined_define hname).bind fun _ _ => ?_
    refine (confined_parentClass parent).bind fun superclass _ => ?_
    refine (confined_methodFrame superclass).bind fun _ _ => ?_
    exact confined_fresh.bind fun _ _ => .pure trivial
  exact hmake.bind fun _ _ => .tryChange fun _ _ h hassign => h.assign hassign

/-- What is done in one round for a statement binds its own declarations in its frame. -/
theorem confined_executeRound {s : Stmt}
    (hnames : MayGain base.frames.size f ks frame (s.declarations.map Ident.name)) :
    Confined setting base f ks (executeRound frame s) fun _ => True := by
  cases s with
  | expression e =>
      exact (confined_evaluate e).bind fun _ _ => .pure trivial
  | print e =>
      refine (confined_evaluate e).bind fun value _ => ?_
      exact (Confined.print _).bind fun _ _ => .pure trivial
  | var name initial =>
      refine (confined_evaluateOption initial).bind fun _ _ => ?_
      exact (confined_define (hnames _ List.mem_cons_self)).bind fun _ _ => .pure trivial
  | block body =>
      exact confined_newScope.bind fun inner hinner => (confined_executeAll hinner body).map
  | ifElse condition consequent alternative =>
      -- A branch runs in the frame of the statement, so what it declares counts as declared by both.
      rw [Stmt.declarations, List.map_append] at hnames
      refine (confined_evaluate condition).bind fun value _ => ?_
      split
      · exact (confined_execute fun k hk => hnames k (List.mem_append_left _ hk)).map
      · cases alternative with
        | none => exact .pure trivial
        | some s => exact (confined_execute fun k hk => hnames k (List.mem_append_right _ hk)).map
  | «while» condition body =>
      have hbody : MayGain base.frames.size f ks frame (body.declarations.map Ident.name) := hnames
      refine (confined_evaluate condition).bind fun value _ => ?_
      split
      · refine (confined_execute hbody).bind fun flow _ => ?_
        cases flow with
        | returned value => exact .pure trivial
        | normal => exact .pure trivial
      · exact .pure trivial
  | function decl =>
      refine (confined_makeFunction _).bind fun _ _ => ?_
      exact (confined_define (hnames _ List.mem_cons_self)).bind fun _ _ => .pure trivial
  | «return» keyword value =>
      exact (confined_evaluateOption value).bind fun _ _ => .pure trivial
  | «class» name parent methods =>
      exact (confined_declareClass (hnames _ List.mem_cons_self)).bind fun _ _ => .pure trivial

end Eval

/-- Every round of every task keeps the contract. -/
theorem confining_kept (setting : Setting) (base : Store) (f : FrameId) (ks : List String)
    (B : Task → Machine → Prop) : (confining base f ks).Kept setting B := by
  rintro task m - ⟨hextends, hnames⟩
  have hround : task.round.Confined setting base f ks fun _ => True := by
    cases task with
    | evaluate frame e => exact (Eval.confined_valueOf e).map
    | execute frame s => exact Eval.confined_executeRound hnames
  refine (hround m hextends).mono ?_
  rintro result m' ⟨hextends', -⟩
  rcases result with fault | _ | value
  · exact hextends'
  · exact ⟨⟨hextends', hnames⟩, fun _ _ hafter => hafter⟩
  · exact hextends'

/-! ## What a task comes to -/

/-- A machine that a task comes to, if it is begun on `m`: a task is begun on it on the way, or has ended
on it, which may be the task itself. -/
inductive Task.Reaches (setting : Setting) (task : Task) (m : Machine) : Machine → Prop
  | begun {task' : Task} {m' : Machine} :
      (Eval.request task setting m).Begins setting task' m' → Reaches setting task m m'
  | ended {task' : Task} {m₁ m' : Machine} {result : Except Fault task'.Result} :
      (Eval.request task setting m).Begins setting task' m₁ → task'.Ends setting m₁ result m' →
        Reaches setting task m m'

theorem Task.Ends.reaches {setting : Setting} {task : Task} {m m' : Machine}
    {result : Except Fault task.Result} (h : task.Ends setting m result m') :
    task.Reaches setting m m' :=
  .ended (.asked .now) h

/-- Wherever a task comes to, of the frames that were there when it was begun only its own has gained
names, and only those that it declares. -/
theorem Task.Reaches.extends {setting : Setting} {task : Task} {m m' : Machine}
    (h : task.Reaches setting m m') : m.store.Extends m'.store task.frame task.declarations := by
  -- The contract is taken relative to the store on which the task is begun.
  have hkept := confining_kept setting m.store task.frame task.declarations
    ((Eval.request task setting m).Begins setting)
  have hbefore : (confining m.store task.frame task.declarations).before task m :=
    ⟨.refl m.store, fun _ hk => .inr ⟨rfl, hk⟩⟩
  have hmeets : (Eval.request task setting m).Meets setting
      (confining m.store task.frame task.declarations) fun _ _ => True :=
    ⟨hbefore, fun _ _ _ _ => trivial⟩
  cases h with
  | begun hbegun => exact (hkept.begins hmeets hbegun).1
  | ended hbegun hends =>
      exact hkept.ends (Course.closed_begins _) hbegun (hkept.begins hmeets hbegun) hends

end Lox
