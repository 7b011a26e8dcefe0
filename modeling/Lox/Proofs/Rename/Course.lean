import Lox.Proofs.Eval.Safety
import Lox.Proofs.Rename.Frames
import Lox.Proofs.Scope.Accepted

/-!
# Courses with a new name for a variable

`Course.Undoes` compares two courses, question by question: the second does the same as the first when
the old name is put back. That is so only if no frame comes to bind both names, so each task that is
asked for has to be ready, and of the tasks that have ended the world of the program and the names that
frames bind are known. There is one rule for each primitive step of evaluation.

A fault may be another fault after the change, as what it says may show a name.

Main statement: `Course.Undoes.run`.
-/

namespace Lox

variable {α β γ δ : Type}

/-! ## Machines and tasks -/

def Machine.undo (n : Alias) (m : Machine) : Machine :=
  { m with store := m.store.undo n }

def Flow.rename (ρ : Renaming) : Flow → Flow
  | .normal => .normal
  | .returned value => .returned (value.rename ρ)

def Task.undo (n : Alias) : Task → Task
  | .evaluate frame e => .evaluate frame (e.rename n.back)
  | .execute frame s => .execute frame (s.rename n.back)

/-- What a task gives, with the old name put back. -/
def Task.undoResult (n : Alias) : (task : Task) → task.Result → (task.undo n).Result
  | .evaluate _ _, value => Value.rename n.back value
  | .execute _ _, flow => Flow.rename n.back flow

namespace Task

/-- The frame a task is done in. -/
def frame : Task → FrameId
  | .evaluate frame _ => frame
  | .execute frame _ => frame

/-- The name that the frame of a task may gain. -/
def declared : Task → List String
  | .evaluate _ _ => []
  | .execute _ s => s.declared

/-- The expressions that are evaluated in the frame of a task, if it evaluates one. -/
def parts : Task → List Expr
  | .evaluate _ e => e.parts
  | .execute _ _ => []

/-- A task can be done with the old name put back: no frame comes to bind both names, neither now nor
when a variable is declared whose initializer is evaluated. -/
structure Ready (W : World) (n : Alias) (task : Task) (s : Store) : Prop where
  inside : task.frame < s.frames.size
  clear : n.Clear W.root s
  admits : n.Admits W.root s task.frame task.declared
  initialized : ∀ e ∈ task.parts, ∀ name initial, .var name (some initial) ∈ W.statements →
    e ∈ initial.parts → n.Apart (name.name :: s.names task.frame)

end Task

/-! ## Courses -/

/-- The second course asks for the same tasks as the first, with the old name put back, and ends in the
same way. A result of the first course is as `Q` says. -/
inductive Course.Undoes (W : World) (n : Alias) (k : α → β) (Q : α → Machine → Prop) :
    Course α → Course β → Prop
  | ok {a : α} {m : Machine} : n.Clear W.root m.store → Q a m →
      Undoes W n k Q (.ended (.ok a) m) (.ended (.ok (k a)) (m.undo n))
  | error {fault fault' : Fault} {m : Machine} : n.Clear W.root m.store →
      Undoes W n k Q (.ended (.error fault) m) (.ended (.error fault') (m.undo n))
  | ask {task : Task} {m : Machine} {next : Except Fault task.Result → Machine → Course α}
      {next' : Except Fault (task.undo n).Result → Machine → Course β} :
      task.Ready W n m.store →
      (∀ a m', W.contract.after task m (.ok a) m' → n.Clear W.root m'.store →
        m.store.Gains m'.store task.frame task.declared →
          Undoes W n k Q (next (.ok a) m') (next' (.ok (task.undoResult n a)) (m'.undo n))) →
      (∀ fault fault' m', n.Clear W.root m'.store →
        Undoes W n k Q (next (.error fault) m') (next' (.error fault') (m'.undo n))) →
          Undoes W n k Q (.ask task m next) (.ask (task.undo n) (m.undo n) next')

/-- The second outcome is the first one with the old name put back, if not both are faults. -/
inductive Outcome.Undoes (W : World) (n : Alias) (k : α → β) (Q : α → Machine → Prop) :
    Outcome α → Outcome β → Prop
  | ok {a : α} {m : Machine} : n.Clear W.root m.store → Q a m →
      Undoes W n k Q (.ended (.ok a) m) (.ended (.ok (k a)) (m.undo n))
  | error {fault fault' : Fault} {m : Machine} : n.Clear W.root m.store →
      Undoes W n k Q (.ended (.error fault) m) (.ended (.error fault') (m.undo n))
  | timeout : Undoes W n k Q .timeout .timeout

theorem Outcome.Undoes.mono {W : World} {n : Alias} {k : α → β} {Q R : α → Machine → Prop}
    {o : Outcome α} {o' : Outcome β} (h : o.Undoes W n k Q o') (hq : ∀ a m, Q a m → R a m) :
    o.Undoes W n k R o' := by
  cases h with
  | ok hclear hqa => exact .ok hclear (hq _ _ hqa)
  | error hclear => exact .error hclear
  | timeout => exact .timeout

namespace Course.Undoes

variable {W : World} {n : Alias} {k : α → β} {h : γ → δ} {Q : α → Machine → Prop}
  {R : γ → Machine → Prop} {c : Course α} {c' : Course β}

theorem bind {next : α → Machine → Course γ} {next' : β → Machine → Course δ}
    (hc : c.Undoes W n k Q c')
    (hnext : ∀ a m, n.Clear W.root m.store → Q a m →
      (next a m).Undoes W n h R (next' (k a) (m.undo n))) :
    (c.bind next).Undoes W n h R (c'.bind next') := by
  induction hc with
  | ok hclear hq => exact hnext _ _ hclear hq
  | error hclear => exact .error hclear
  | ask hready _ _ ihok iherror => exact .ask hready ihok iherror

theorem mono {Q' : α → Machine → Prop} (hc : c.Undoes W n k Q c') (hq : ∀ a m, Q a m → Q' a m) :
    c.Undoes W n k Q' c' := by
  induction hc with
  | ok hclear hqa => exact .ok hclear (hq _ _ hqa)
  | error hclear => exact .error hclear
  | ask hready _ _ ihok iherror => exact .ask hready ihok iherror

theorem atEnd {Q' : α → Machine → Prop} {change : Machine → Machine}
    (hchange : ∀ m, change (m.undo n) = (change m).undo n)
    (hstore : ∀ m, (change m).store = m.store) (hc : c.Undoes W n k Q c')
    (hq : ∀ a m, Q a m → Q' a (change m)) :
    (c.atEnd change).Undoes W n k Q' (c'.atEnd change) := by
  induction hc with
  | @ok a m hclear hqa =>
      rw [Course.atEnd, Course.atEnd, hchange]
      exact .ok ((hstore m).symm ▸ hclear) (hq a m hqa)
  | @error fault fault' m hclear =>
      rw [Course.atEnd, Course.atEnd, hchange]
      exact .error ((hstore m).symm ▸ hclear)
  | ask hready _ _ ihok iherror => exact .ask hready ihok iherror

/-- If the tasks end in the same way, then so do the courses. The world knows how the tasks of the
first course end. -/
theorem run {setting : Setting} {answer' : (task : Task) → Machine → Outcome task.Result}
    {fuel : Nat} {P : Except Fault α → Machine → Prop}
    (hanswer : ∀ task m, c.Asks setting task m → W.contract.before task m → task.Ready W n m.store →
      (perform setting fuel task m).Undoes W n (task.undoResult n)
        (fun _ m' => m.store.Gains m'.store task.frame task.declared)
        (answer' (task.undo n) (m.undo n)))
    (hafter : ∀ task m r m', c.Asks setting task m → W.contract.before task m →
      perform setting fuel task m = .ended r m' → W.contract.after task m r m')
    (hmeets : c.Meets setting W.contract P) (hc : c.Undoes W n k Q c') :
    (c.run (perform setting fuel)).Undoes W n k Q (c'.run answer') := by
  induction hc with
  | ok hclear hq => exact .ok hclear hq
  | error hclear => exact .error hclear
  | @ask task m next next' hready _ _ ihok iherror =>
      have hsame := hanswer task m .now hmeets.1 hready
      simp only [Course.run]
      -- The two tasks end in results, in faults, or not at all.
      generalize hfirst : perform setting fuel task m = first at hsame
      generalize answer' (task.undo n) (m.undo n) = second at hsame
      cases hsame with
      | timeout => exact .timeout
      | @ok a m' hclear hgains =>
          have hends : task.Ends setting m (.ok a) m' := ⟨fuel, hfirst⟩
          have hpost := hafter task m _ m' .now hmeets.1 hfirst
          refine ihok a m' hpost hclear hgains ?_ ?_ (hmeets.2 _ _ hends hpost)
          · exact fun task' m₁ hasks => hanswer task' m₁ (.later hends hasks)
          · exact fun task' m₁ r m₂ hasks => hafter task' m₁ r m₂ (.later hends hasks)
      | @error fault fault' m' hclear =>
          have hends : task.Ends setting m (.error fault) m' := ⟨fuel, hfirst⟩
          have hpost := hafter task m _ m' .now hmeets.1 hfirst
          refine iherror fault fault' m' hclear ?_ ?_ (hmeets.2 _ _ hends hpost)
          · exact fun task' m₁ hasks => hanswer task' m₁ (.later hends hasks)
          · exact fun task' m₁ r m₂ hasks => hafter task' m₁ r m₂ (.later hends hasks)

end Course.Undoes

/-! ## Primitive steps -/

/-- The second step does the same on the machine with the old name put back as the first step does on
`m`. A result of the first step is as `Q` says. -/
def Eval.Undoes (W : World) (n : Alias) (setting : Setting) (m : Machine) (k : α → β)
    (Q : α → Machine → Prop) (x : Eval α) (x' : Eval β) : Prop :=
  (x setting m).Undoes W n k Q (x' setting (m.undo n))

namespace Eval

variable {W : World} {n : Alias} {setting : Setting} {m : Machine} {k : α → β} {h : γ → δ}
  {Q : α → Machine → Prop} {R : γ → Machine → Prop}

namespace Undoes

theorem bind {x : Eval α} {x' : Eval β} {y : α → Eval γ} {y' : β → Eval δ}
    (hx : x.Undoes W n setting m k Q x')
    (hy : ∀ a m', n.Clear W.root m'.store → Q a m' →
      (y a).Undoes W n setting m' h R (y' (k a))) :
    (x >>= y).Undoes W n setting m h R (x' >>= y') :=
  Course.Undoes.bind hx hy

theorem pure {a : α} {b : β} (hclear : n.Clear W.root m.store) (hab : b = k a) (hq : Q a m) :
    Undoes W n setting m k Q (Pure.pure a) (Pure.pure b) := by
  subst hab
  exact .ok hclear hq

theorem map {x : Eval α} {x' : Eval β} {f : α → γ} {f' : β → δ}
    (hx : x.Undoes W n setting m k Q x') (hf : ∀ a, f' (k a) = h (f a))
    (hq : ∀ a m', Q a m' → R (f a) m') :
    (f <$> x).Undoes W n setting m h R (f' <$> x') :=
  hx.bind fun a m' hclear hqa => .pure hclear (hf a) (hq a m' hqa)

theorem mono {x : Eval α} {x' : Eval β} {Q' : α → Machine → Prop}
    (hx : x.Undoes W n setting m k Q x') (hq : ∀ a m', Q a m' → Q' a m') :
    x.Undoes W n setting m k Q' x' :=
  Course.Undoes.mono hx hq

end Undoes

theorem undoes_request {task : Task} (hready : task.Ready W n m.store) :
    (request task).Undoes W n setting m (task.undoResult n)
      (fun a m' => W.contract.after task m (.ok a) m' ∧
        m.store.Gains m'.store task.frame task.declared)
      (request (task.undo n)) := by
  refine .ask hready ?_ ?_
  · exact fun a m' hafter hclear hgains => .ok hclear ⟨hafter, hgains⟩
  · exact fun fault fault' m' hclear => .error hclear

theorem undoes_fail {cause cause' : FaultCause} {place place' : Span}
    (hclear : n.Clear W.root m.store) :
    (fail cause place).Undoes W n setting m k Q (fail cause' place') :=
  .error hclear

theorem undoes_check {place : Span} {r : Except FaultCause α} {r' : Except FaultCause β}
    (hclear : n.Clear W.root m.store) (hr : Corresponds k r r') (hq : ∀ a, Q a m) :
    (check place r).Undoes W n setting m k Q (check place r') := by
  cases hr with
  | ok a => exact .ok hclear (hq a)
  | error cause cause' => exact .error hclear

/-- A look at the store changes nothing. -/
theorem undoes_read {place : Span} {look : Store → Except FaultCause α}
    {look' : Store → Except FaultCause β} (hclear : n.Clear W.root m.store)
    (hlook : Corresponds k (look m.store) (look' (m.store.undo n))) :
    (read place look).Undoes W n setting m k (fun _ m' => m' = m) (read place look') := by
  unfold Eval.Undoes read
  rw [show (m.undo n).store = m.store.undo n from rfl]
  generalize look m.store = r at hlook
  generalize look' (m.store.undo n) = r' at hlook
  cases hlook with
  | ok a => exact .ok hclear rfl
  | error cause cause' => exact .error hclear

theorem undoes_change {step step' : Store → Store}
    (hstep : step' (m.store.undo n) = (step m.store).undo n)
    (hclear : n.Clear W.root (step m.store)) :
    (change step).Undoes W n setting m id (fun _ m' => m' = { m with store := step m.store })
      (change step') := by
  have hundo : { m.undo n with store := step' (m.store.undo n) } =
      ({ m with store := step m.store } : Machine).undo n :=
    congrArg (Machine.mk · m.depth m.readings m.printed) hstep
  unfold Eval.Undoes change
  rw [show (m.undo n).store = m.store.undo n from rfl, hundo]
  exact .ok hclear rfl

theorem undoes_tryChange {place : Span} {step step' : Store → Except FaultCause Store}
    (hclear : n.Clear W.root m.store)
    (hstep : Corresponds (Store.undo n) (step m.store) (step' (m.store.undo n)))
    (hstep' : ∀ t, step m.store = .ok t → n.Clear W.root t) :
    (tryChange place step).Undoes W n setting m id
      (fun _ m' => ∃ t, step m.store = .ok t ∧ m' = { m with store := t })
      (tryChange place step') := by
  unfold Eval.Undoes tryChange
  rw [show (m.undo n).store = m.store.undo n from rfl]
  generalize step m.store = r at hstep hstep'
  generalize step' (m.store.undo n) = r' at hstep
  cases hstep with
  | ok t => exact .ok (hstep' t rfl) ⟨t, rfl, rfl⟩
  | error cause cause' => exact .error hclear

theorem undoes_create {step : Store → α × Store} {step' : Store → β × Store}
    (hstep : step' (m.store.undo n) = (step m.store).map k (Store.undo n))
    (hclear : n.Clear W.root (step m.store).2) :
    (create step).Undoes W n setting m k
      (fun a m' => a = (step m.store).1 ∧ m' = { m with store := (step m.store).2 })
      (create step') := by
  unfold Eval.Undoes create
  simp only [show (m.undo n).store = m.store.undo n from rfl, hstep]
  exact .ok hclear ⟨rfl, rfl⟩

theorem undoes_print {line line' : String} (hclear : n.Clear W.root m.store)
    (hline : line' = line) :
    (print line).Undoes W n setting m id (fun _ m' => m'.store = m.store) (print line') := by
  subst hline
  exact .ok hclear rfl

theorem undoes_distance? {number : Nat} (hclear : n.Clear W.root m.store) :
    (distance? number).Undoes W n setting m id
      (fun d m' => m' = m ∧ d = setting.locals.distance? number) (distance? number) :=
  .ok hclear ⟨rfl, rfl⟩

theorem undoes_globals (hclear : n.Clear W.root m.store) :
    globals.Undoes W n setting m id (fun root m' => m' = m ∧ root = setting.globals) globals :=
  .ok hclear ⟨rfl, rfl⟩

theorem undoes_readClock {place : Span} (hclear : n.Clear W.root m.store) :
    (readClock place).Undoes W n setting m (Value.rename n.back)
      (fun _ m' => m'.store = m.store) (readClock place) := by
  unfold Eval.Undoes readClock
  rw [show (m.undo n).readings = m.readings from rfl]
  cases setting.clock m.readings with
  | ok seconds => exact .ok hclear rfl
  | error reason => exact .error hclear

theorem undoes_nested {place : Span} {x : Eval α} {x' : Eval β} (hclear : n.Clear W.root m.store)
    (hstore : ∀ a m₁ m₂, m₁.store = m₂.store → Q a m₁ → Q a m₂)
    (hx : x.Undoes W n setting { m with depth := m.depth + 1 } k Q x') :
    (nested place x).Undoes W n setting m k Q (nested place x') := by
  unfold Eval.Undoes nested
  rw [show (m.undo n).depth = m.depth from rfl]
  split
  · exact .error hclear
  · exact Course.Undoes.atEnd (fun _ => rfl) (fun _ => rfl) hx fun a m' hqa => hstore a m' _ rfl hqa

end Eval

end Lox
