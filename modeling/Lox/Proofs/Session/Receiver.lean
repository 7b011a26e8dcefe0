import Lox.Proofs.Eval.Additions
import Lox.Proofs.Scope.Own
import Lox.Proofs.Session.Super

/-!
# Receivers and captured superclasses

The frame that is added for a bound method binds `this` to the instance, and the frame that is added
for a class with a superclass binds `super` to that class. Neither binds anything else, at no later
time.

Main statement: `Session.History.sealed_frames`.
-/

namespace Lox

/-- A machine that a run comes to: a task is begun on it, or has ended on it, or the run has. -/
inductive Run.Reaches (r : Run) : Machine → Prop
  | begun {task : Task} {m : Machine} : r.Begins task m → Reaches r m
  | ended {task : Task} {m m' : Machine} {result : Except Fault task.Result} :
      r.Begins task m → task.Ends r.setting m result m' → Reaches r m'
  | done {result : Except Fault Unit} {m : Machine} :
      r.course.Ends r.setting result m → Reaches r m

namespace World.Explains

variable {W : World} {r : Run} {m m' : Machine} {task : Task} {f : FrameId} {t : Store}

/-! ## The moments of a run -/

theorem rises (h : W.Explains r) (task : Task) (m : Machine) (hbegun : r.Begins task m) :
    (task.round r.setting m).Rises r.setting .any Growth m := by
  refine (rises_round h.describes hbegun (h.before hbegun)).any ?_
  intro task' m₁ r₁ m₂ hasks hends
  exact h.after (.inside hbegun hasks) hends

theorem steady (h : W.Explains r) :
    (r.course.start r.machine).Steady r.setting (r.course.Begins r.setting) Growth := by
  refine ⟨⟨h.safe.rises.any ?_, fun _ _ hasks => .asked hasks⟩, trivial⟩
  intro task m₁ r₁ m₂ hasks hends
  exact h.after (.asked hasks) hends

/-- The moments of a run come in one order, and the store grows from each to the next. -/
theorem since (h : W.Explains r) {a b : Moment Unit}
    (ha : Moment.Follows r.setting (r.course.start r.machine) a)
    (hfollows : Moment.Follows r.setting a b) : Growth a.since b.since :=
  Moment.Follows.since r.course.closed_begins h.rises (fun _ => .refl _) Growth.trans
    (h.steady.follows r.course.closed_begins h.rises ha) hfollows

theorem head (h : W.Explains r) {a b : Moment Unit}
    (ha : Moment.Follows r.setting (r.course.start r.machine) a)
    (hfollows : Moment.Follows r.setting a b) : b = a ∨ Growth a.head b.since :=
  Moment.Follows.head r.course.closed_begins h.rises (fun _ => .refl _) Growth.trans
    (h.steady.follows r.course.closed_begins h.rises ha) hfollows

/-- What is done at a moment lets the store grow. -/
theorem since_head (h : W.Explains r) {a : Moment Unit}
    (ha : Moment.Follows r.setting (r.course.start r.machine) a) : Growth a.since a.head :=
  (h.steady.follows r.course.closed_begins h.rises ha).course.rises.head

/-- A frame that a round has added is there when the run has ended. -/
theorem grows_of_adds_done (h : W.Explains r) (hbegun : r.Begins task m)
    (hadds : task.Adds r.setting m f t) {result : Except Fault Unit}
    (hends : r.course.Ends r.setting result m') : t.Grows m'.store := by
  rcases hbegun.moment r.machine with ⟨β, next, below, hround⟩
  rcases hadds next below with ⟨a, hfollows, hsize, hgrows⟩
  have ha := hround.trans hfollows
  rcases hends.follows r.machine .nothing with ⟨since', hlast⟩
  have hdone := h.since_head hlast
  rcases Moment.Follows.total ha hlast with hafter | hbefore
  · rcases h.head ha hafter with heq | hgrowth
    · rw [← heq] at hgrows
      exact hgrows
    · exact hgrows.trans (Store.Grows.trans hgrowth hdone)
  · rcases Relation.ReflTransGen.cases_head hbefore with heq | ⟨b, hleads, -⟩
    · rw [← heq] at hgrows
      exact hgrows
    · cases hleads

/-- A frame that a round has added is there wherever the run has come to so many frames. -/
theorem grows_of_adds (h : W.Explains r) (hbegun : r.Begins task m)
    (hadds : task.Adds r.setting m f t) (hreaches : r.Reaches m')
    (hf : f < m'.store.frames.size) : t.Grows m'.store := by
  suffices hmoment : (∃ b : Moment Unit,
      Moment.Follows r.setting (r.course.start r.machine) b ∧ b.since = m') ∨
        ∃ result, r.course.Ends r.setting result m' by
    rcases hmoment with ⟨b, hb, rfl⟩ | ⟨result, hends⟩
    · rcases hbegun.moment r.machine with ⟨β, next, below, hround⟩
      rcases hadds next below with ⟨a, hfollows, hsize, hgrows⟩
      have ha := hround.trans hfollows
      rcases Moment.Follows.total ha hb with hafter | hbefore
      · rcases h.head ha hafter with rfl | hgrowth
        · exact absurd hf (Nat.not_lt_of_le hsize)
        · exact hgrows.trans hgrowth
      · have hle : b.since.store.frames.size ≤ a.since.store.frames.size :=
          (h.since hb hbefore).size
        exact absurd hf (Nat.not_lt_of_le (Nat.le_trans hle hsize))
    · exact h.grows_of_adds_done hbegun hadds hends
  cases hreaches with
  | begun hbegun' =>
      rcases hbegun'.moment r.machine with ⟨β, next, below, hround⟩
      exact .inl ⟨_, hround, rfl⟩
  | ended hbegun' hends =>
      rcases hbegun'.moment r.machine with ⟨β, next, below, hround⟩
      rcases hends with ⟨fuel, hperform⟩
      exact .inl ⟨_, hround.trans (Moment.follows_of_perform hperform), rfl⟩
  | done hends => exact .inr ⟨_, hends⟩

/-- A run changes the store that it begins on only by letting it grow. -/
theorem grows (h : W.Explains r) (hreaches : r.Reaches m) : r.machine.store.Grows m.store := by
  cases hreaches with
  | begun hbegun =>
      rcases hbegun.moment r.machine with ⟨β, next, below, hround⟩
      exact h.since .refl hround
  | ended hbegun hends =>
      rcases hbegun.moment r.machine with ⟨β, next, below, hround⟩
      rcases hends with ⟨fuel, hperform⟩
      exact h.since .refl (hround.trans (Moment.follows_of_perform hperform))
  | done hends => exact (h.ended hends).2

/-! ## The frames that a run adds -/

theorem adds_of_binds (h : W.Explains r) {method : Closure} {object : Instance}
    (hbinds : r.Binds method object f) :
    ∃ task m t, r.Begins task m ∧ f < t.frames.size ∧ W.Receives t f method object ∧
      task.Adds r.setting m f t := by
  rcases hbinds with ⟨task, m, hbegun, hbinds⟩
  rcases World.adds_of_binds h.describes r.course.closed_begins (fun _ _ => h.before) hbegun hbinds with
    ⟨t, hf, hreceives, hadds⟩
  exact ⟨task, m, t, hbegun, hf, hreceives, hadds⟩

end World.Explains

/-- In a run a frame is added that binds a name to a value and nothing else: `this` for a method that
is bound to an instance, or `super` for a class that is made with a superclass. -/
inductive Run.Seals (r : Run) : FrameId → String → Value → Prop
  | this {method : Closure} {object : Instance} {f : FrameId} :
      r.Binds method object f → Seals r f thisName (.instance object)
  | super {d : ClassDecl} {f : FrameId} {cls parent : Class} :
      r.Makes d f cls → cls.superclass? = some parent → Seals r f superName (.class parent)

theorem Run.Seals.reserved {r : Run} {f : FrameId} {name : String} {v : Value}
    (h : r.Seals f name v) : Keyword.ofText? name ≠ none := by
  cases h with
  | this => decide
  | super => decide

theorem World.Explains.adds_of_seals {W : World} {r : Run} (h : W.Explains r) {f : FrameId}
    {name : String} {v : Value} (hseals : r.Seals f name v) :
    ∃ task m t, r.Begins task m ∧ f < t.frames.size ∧ t.bindings f = [(name, v)] ∧
      task.Adds r.setting m f t := by
  cases hseals with
  | this hbinds =>
      rcases h.adds_of_binds hbinds with ⟨task, m, t, hbegun, hf, hreceives, hadds⟩
      exact ⟨task, m, t, hbegun, hf, hreceives.bindings, hadds⟩
  | super hmakes hparent =>
      rcases hmakes with ⟨outer, m, m', hbegun, hends⟩
      rcases World.adds_of_makes h.describes r.course.closed_begins (fun _ _ => h.before) hbegun hends
        hparent with ⟨t, hf, hbindings, hadds⟩
      exact ⟨_, m, t, hbegun, hf, hbindings, hadds⟩

namespace Session

variable {runs : List Run} {s : Session} {clock : Nat → Except String Float} {text : List Char}
  {r r₀ : Run} {m : Machine} {f : FrameId}

/-- What a run has added is there in the session afterwards. -/
theorem History.grows_of_adds (h : History runs s) {W : World} (hholds : W.Holds runs)
    (hroot : W.root = s.globals) (hr₀ : r₀ ∈ runs) {task : Task} {t : Store}
    (hbegun : r₀.Begins task m) (hadds : task.Adds r₀.setting m f t) :
    t.Grows s.machine.store := by
  rcases (h.fits hholds hroot).2 r₀ hr₀ with ⟨hexplains, result, m', hends, hgrows⟩
  exact (hexplains.grows_of_adds_done hbegun hadds hends).trans hgrows

/-- What a run has added is there wherever a later run comes to, or the run itself afterwards. -/
theorem History.grows_of_adds_running (h : History runs s) (hr : s.running? clock text = some r)
    (hr₀ : r₀ ∈ runs ++ [r]) {task : Task} {m₀ : Machine} {t : Store}
    (hbegun : r₀.Begins task m₀) (hadds : task.Adds r₀.setting m₀ f t)
    (hreaches : r.Reaches m) (hf : f < m.store.frames.size) : t.Grows m.store := by
  have hexplains := h.explains_ofRuns hr
  rcases List.mem_append.mp hr₀ with hr₀ | hr₀
  · have hgrows := h.grows_of_adds (h.holds hr).left rfl hr₀ hbegun hadds
    rw [← (accepts_of_running? hr).machine] at hgrows
    exact hgrows.trans (hexplains.grows hreaches)
  · rw [List.mem_singleton] at hr₀
    subst hr₀
    exact hexplains.grows_of_adds hbegun hadds hreaches hf

/-- A run that is in the history with the run at hand is explained. -/
theorem History.explains_mem (h : History runs s) (hr : s.running? clock text = some r)
    (hr₀ : r₀ ∈ runs ++ [r]) : (World.ofRuns (runs ++ [r]) s.globals).Explains r₀ := by
  rcases List.mem_append.mp hr₀ with hr₀ | hr₀
  · exact ((h.fits (h.holds hr).left rfl).2 r₀ hr₀).1
  · rw [List.mem_singleton] at hr₀
    subst hr₀
    exact h.explains_ofRuns hr

/-- A method that was bound receives its instance wherever a run comes to. -/
theorem History.receives (h : History runs s) (hr : s.running? clock text = some r)
    (hr₀ : r₀ ∈ runs ++ [r]) {method : Closure} {object : Instance}
    (hbinds : r₀.Binds method object f) (hreaches : r.Reaches m) (hf : f < m.store.frames.size) :
    (World.ofRuns (runs ++ [r]) s.globals).Receives m.store f method object := by
  rcases (h.explains_mem hr hr₀).adds_of_binds hbinds with ⟨task, m₀, t, hbegun, -, hreceives, hadds⟩
  exact hreceives.grows (h.grows_of_adds_running hr hr₀ hbegun hadds hreaches hf)

/-- A `this` that stands in a bound method, and in no class inside it, leads to the frame of the
method. -/
theorem History.getAt_this (h : History runs s) (hr : s.running? clock text = some r)
    {method : Closure} {object : Instance} {g : FrameId} {node : Node}
    (hreceives : (World.ofRuns (runs ++ [r]) s.globals).Receives m.store f method object)
    (hbegun : r.Begins (.evaluate g (.this node)) m) (hchain : f ∈ m.store.chain g)
    (howns : FunctionDecl.Owns method.declaration (.this node)) :
    ∃ near, r.setting.locals.distance? node.id = some near ∧
      m.store.getAt g near thisName = .ok (.instance object) := by
  have hresolved := h.resolved hr
  rcases h.before hr hbegun with ⟨hfits, owner, scopes', hvisits, hstands'⟩
  rcases hreceives.stands with ⟨d, scopes, hstands, hknows⟩
  rw [Scopes.enterClass_eq] at hstands hknows
  rcases Stmt.within_visitsRoutine (Scopes.within_enter_self _) method.declaration
    hknows.parameters hknows.sound.sound _ howns with ⟨scopes'', hwithin, hmem⟩
  have hv := hvisits _ (Expr.mem_parts_self _)
  have heq := hresolved.unique _ hv _ (hknows.visits _ hmem) rfl
  cases heq
  rcases hwithin.distance?_this with ⟨near, hnear, hlength⟩
  refine ⟨near, (hresolved.distance _ hv).trans hnear, ?_⟩
  -- The frames inside that of the method are those of the scopes inside the one for `this`.
  rcases hfits.nested g hstands'.frames.inside f hchain with ⟨-, inner, hinner⟩
  have hlength' : inner.length = near := by
    have hg := hstands'.frames.length
    rw [← hinner, List.length_append, hstands.frames.length, hlength] at hg
    omega
  have hancestor : m.store.ancestor? g near = some f := by
    rw [Store.ancestor?_eq, ← hinner, List.getElem?_append_right (by omega), hlength',
      Nat.sub_self]
    rfl
  rw [Store.getAt, hancestor, Option.bind_some, hreceives.value?]
  rfl

/-- The frame that was added for a bound method binds `this` to the instance, the one that was added
for a class with a superclass binds `super` to that class, and neither binds anything else, wherever
a run comes to from then on. So each `this` that stands in a method, and in no class inside it, gives
the instance that the method was bound to, in all frames inside that of the method. -/
theorem History.sealed_frames (h : History runs s) :
    (∀ r₀ ∈ runs, ∀ f name v, r₀.Seals f name v →
      f < s.machine.store.frames.size ∧ s.machine.store.bindings f = [(name, v)]) ∧
    ∀ clock text r, s.running? clock text = some r → ∀ r₀ ∈ runs ++ [r],
      (∀ f name v, r₀.Seals f name v → ∀ m, r.Reaches m → f < m.store.frames.size →
        m.store.bindings f = [(name, v)]) ∧
      ∀ method object f, r₀.Binds method object f →
        ∀ g node m, r.Begins (.evaluate g (.this node)) m → f ∈ m.store.chain g →
          FunctionDecl.Owns method.declaration (.this node) →
            (Task.evaluate g (.this node)).Ends r.setting m (.ok (.instance object)) m := by
  refine ⟨?_, ?_⟩
  · intro r₀ hr₀ f name v hseals
    have hholds := h.holds_ofRuns
    rcases ((h.fits hholds rfl).2 r₀ hr₀).1.adds_of_seals hseals with
      ⟨task, m, t, hbegun, hf, hbindings, hadds⟩
    have hgrows := h.grows_of_adds hholds rfl hr₀ hbegun hadds
    exact ⟨Nat.lt_of_lt_of_le hf hgrows.size, hgrows.single hseals.reserved hbindings⟩
  · intro clock text r hr r₀ hr₀
    refine ⟨?_, ?_⟩
    · intro f name v hseals m hreaches hf
      rcases (h.explains_mem hr hr₀).adds_of_seals hseals with
        ⟨task, m₀, t, hbegun, -, hbindings, hadds⟩
      have hgrows := h.grows_of_adds_running hr hr₀ hbegun hadds hreaches hf
      exact hgrows.single hseals.reserved hbindings
    · intro method object f hbinds g node m hbegun hchain howns
      rcases h.before hr hbegun with ⟨hfits, owner, scopes, -, hstands⟩
      have hf := (hfits.nested g hstands.frames.inside f hchain).1
      have hreceives := h.receives hr hr₀ hbinds (.begun hbegun) hf
      rcases h.getAt_this hr hreceives hbegun hchain howns with ⟨near, hdistance, hvalue⟩
      refine .of_round ⟨0, ?_⟩
      have hvalueOf := Eval.valueOf_of_reads? (e := .this node) rfl hdistance hvalue
      change ((Eval.valueOf g (.this node) r.setting m).bind _).run _ = _
      rw [hvalueOf]
      rfl

/-! ## A class whose initializer reads `this` -/

/-- An initializer that reads `this`. -/
def constructingInit : FunctionDecl :=
  ⟨⟨"init", 8, 4⟩, [], [.expression (.this ⟨0, 15, 4⟩)]⟩

/-- The declaration of the class with the initializer. -/
def constructingClass : Stmt :=
  .class ⟨"A", 6, 1⟩ none [constructingInit]

/-- The class that the declaration makes. -/
def constructingValue : Class :=
  .root 1 "A" [("init", ⟨constructingInit, 0, true⟩)]

/-- A call of the class. -/
def constructingCall : Expr :=
  .call ⟨2, 24, 1⟩ (.var ⟨1, "A", 22, 1⟩) []

/-- A call of the initializer of the new instance. -/
def repeatingCall : Expr :=
  .call ⟨4, 31, 1⟩ (.get 3 constructingCall ⟨"init", 26, 4⟩) []

/-- The run of the declaration and the calls. -/
def constructingRun : Run :=
  ⟨⟨[(0, 1)], 0, fun _ => .error "no clock"⟩, Session.empty.machine,
    [constructingClass, .expression repeatingCall]⟩

theorem running?_constructingRun :
    Session.empty.running? (fun _ => .error "no clock")
      "class A\x7binit()\x7bthis;\x7d\x7dA().init();".toList = some constructingRun := by
  with_unfolding_all rfl

/-- The machine after the declaration. -/
def constructingMachine : Machine :=
  machineOf #[⟨[], [("clock", .native 0), ("A", .class constructingValue)]⟩] #[] 2 0

/-- The machine on which the body of the initializer runs at first, and the one after the call of the
class. -/
def constructedMachine (depth : Nat) : Machine :=
  machineOf #[⟨[], [("clock", .native 0), ("A", .class constructingValue)]⟩,
    ⟨[0], [("this", .instance ⟨0, constructingValue⟩)]⟩, ⟨[1, 0], []⟩] #[[]] 2 depth

theorem begins_repeatingCall :
    constructingRun.Begins (.evaluate 0 repeatingCall) constructingMachine := by
  have hclass : Task.Ends constructingRun.setting (.execute 0 constructingClass)
      Session.empty.machine (.ok .normal) constructingMachine :=
    ⟨2, rfl⟩
  have hstatement : constructingRun.Begins (.execute 0 (.expression repeatingCall))
      constructingMachine :=
    .asked (.later hclass .now)
  exact .inside hstatement .now

theorem begins_constructingCall :
    constructingRun.Begins (.evaluate 0 constructingCall) constructingMachine := by
  have hget : constructingRun.Begins
      (.evaluate 0 (.get 3 constructingCall ⟨"init", 26, 4⟩)) constructingMachine :=
    .inside begins_repeatingCall .now
  exact .inside hget .now

theorem ends_constructingClass :
    Task.Ends constructingRun.setting (.evaluate 0 (.var ⟨1, "A", 22, 1⟩)) constructingMachine
      (.ok (.class constructingValue)) constructingMachine :=
  ⟨2, rfl⟩

theorem begins_constructingThis :
    constructingRun.Begins (.evaluate 2 (.this ⟨0, 15, 4⟩)) (constructedMachine 1) := by
  have hbody : constructingRun.Begins (.execute 2 (.expression (.this ⟨0, 15, 4⟩)))
      (constructedMachine 1) :=
    .inside begins_constructingCall (.later ends_constructingClass .now)
  exact .inside hbody .now

theorem binds_constructingRun :
    constructingRun.Binds ⟨constructingInit, 0, true⟩ ⟨0, constructingValue⟩ 1 := by
  have harguments : (Eval.evaluateAll 0 []).Ends constructingRun.setting constructingMachine (.ok [])
      constructingMachine :=
    ⟨0, rfl⟩
  exact ⟨_, _, begins_constructingCall,
    .construction ends_constructingClass harguments rfl (by decide) rfl⟩

theorem sealed_frames_constructingRun :
    (constructedMachine 1).store.bindings 1 =
        [(thisName, .instance ⟨0, constructingValue⟩)] ∧
      (Task.evaluate 2 (.this ⟨0, 15, 4⟩)).Ends constructingRun.setting (constructedMachine 1)
        (.ok (.instance ⟨0, constructingValue⟩)) (constructedMachine 1) := by
  rcases History.empty.sealed_frames.2 _ _ _ running?_constructingRun constructingRun (by simp) with
    ⟨hbindings, hthis⟩
  refine ⟨?_, ?_⟩
  · exact hbindings 1 _ _ (.this binds_constructingRun) _ (.begun begins_constructingThis) (by decide)
  · exact hthis _ _ 1 binds_constructingRun 2 _ _ begins_constructingThis (by decide) (by
      simp [FunctionDecl.Owns, constructingInit, Stmt.ownRoutine, Stmt.expressions, Stmt.operands,
        Expr.parts, Stmt.own, Stmt.ownAll])

end Session

end Lox
