import Lox.Eval.Basic
import Lox.Proofs.Relabel.Store

/-!
# Courses with other numbers and places

`Course.Mirrors` compares two courses, question by question, and `Eval.Mirrors` two steps on all
machines: the second does the same as the first after a change of the numbers and places in all trees.
There is one rule for each primitive step of evaluation.

Main statement: `Course.Mirrors.run`.
-/

namespace Lox

variable {α β γ δ : Type}

/-! ## Machines and tasks -/

/-- A machine with other numbers and places in its store, on which lines have been printed before. -/
def Machine.relabel (f : Relabel) (m : Machine) : Machine :=
  ⟨m.store.relabel f, m.depth, m.readings, m.printed ++ f.before⟩

theorem Machine.relabel_printing (before : List String) (m : Machine) :
    m.relabel (.printing before) = { m with printed := m.printed ++ before } := by
  simp only [relabel, Store.relabel_printing]
  rfl

def Flow.relabel (f : Relabel) : Flow → Flow
  | .normal => .normal
  | .returned value => .returned (value.relabel f)

def Task.relabel (f : Relabel) : Task → Task
  | .evaluate frame e => .evaluate frame (e.relabel f)
  | .execute frame s => .execute frame (s.relabel f)

/-- What a task gives, after a change. -/
def Task.relabelResult (f : Relabel) : (task : Task) → task.Result → (task.relabel f).Result
  | .evaluate _ _, value => Value.relabel f value
  | .execute _ _, flow => Flow.relabel f flow

/-- How evaluation ends, after a change. -/
def Outcome.relabel (f : Relabel) (g : α → β) : Outcome α → Outcome β
  | .ended r m => .ended (Fault.relabelOr f g r) (m.relabel f)
  | .timeout => .timeout

/-! ## Courses -/

/-- The second course asks for the same tasks as the first, after a change, and ends in the same
way. -/
inductive Course.Mirrors (f : Relabel) (g : α → β) : Course α → Course β → Prop
  | ended (r : Except Fault α) (m : Machine) :
      Mirrors f g (.ended r m) (.ended (Fault.relabelOr f g r) (m.relabel f))
  | ask {task : Task} {m : Machine} {next : Except Fault task.Result → Machine → Course α}
      {next' : Except Fault (task.relabel f).Result → Machine → Course β} :
      (∀ r m', Mirrors f g (next r m')
        (next' (Fault.relabelOr f (task.relabelResult f) r) (m'.relabel f))) →
        Mirrors f g (.ask task m next) (.ask (task.relabel f) (m.relabel f) next')

namespace Course

variable {f : Relabel} {g : α → β} {h : γ → δ} {c : Course α} {c' : Course β}

theorem Mirrors.bind {next : α → Machine → Course γ} {next' : β → Machine → Course δ}
    (hc : c.Mirrors f g c')
    (hnext : ∀ a m, (next a m).Mirrors f h (next' (g a) (m.relabel f))) :
    (c.bind next).Mirrors f h (c'.bind next') := by
  induction hc with
  | ended r m =>
      cases r with
      | ok a =>
          exact hnext a m
      | error fault =>
          exact .ended (.error fault) m
  | ask _ ih =>
      exact .ask ih

theorem Mirrors.atEnd {change : Machine → Machine}
    (hchange : ∀ m, change (m.relabel f) = (change m).relabel f) (hc : c.Mirrors f g c') :
    (c.atEnd change).Mirrors f g (c'.atEnd change) := by
  induction hc with
  | ended r m =>
      simp only [Course.atEnd, hchange]
      exact .ended r (change m)
  | ask _ ih =>
      exact .ask ih

/-- If the tasks end in the same way, then so do the courses. -/
theorem Mirrors.run {answer answer' : (task : Task) → Machine → Outcome task.Result}
    (hanswer : ∀ task m, answer' (task.relabel f) (m.relabel f) =
      (answer task m).relabel f (task.relabelResult f)) (hc : c.Mirrors f g c') :
    c'.run answer' = (c.run answer).relabel f g := by
  induction hc with
  | ended r m =>
      rfl
  | @ask task m next next' _ ih =>
      simp only [Course.run, hanswer]
      cases answer task m with
      | ended r m' =>
          exact ih r m'
      | timeout =>
          rfl

end Course

/-! ## Primitive steps -/

/-- In the second setting the distances are recorded under the new numbers. -/
structure Setting.Mirrors (f : Relabel) (setting setting' : Setting) : Prop where
  distance : ∀ id, setting'.locals.distance? (f.number id) = setting.locals.distance? id
  globals : setting'.globals = setting.globals
  clock : setting'.clock = setting.clock

/-- The second step does the same as the first, after a change. -/
def Eval.Mirrors (f : Relabel) (setting setting' : Setting) (g : α → β) (x : Eval α) (x' : Eval β) :
    Prop :=
  ∀ m, (x setting m).Mirrors f g (x' setting' (m.relabel f))

namespace Eval

variable {f : Relabel} {setting setting' : Setting} {g : α → β} {h : γ → δ}

theorem Mirrors.pure {a : α} {b : β} (hab : b = g a) :
    Mirrors f setting setting' g (pure a) (pure b) := by
  intro m
  subst hab
  exact .ended (.ok a) m

theorem Mirrors.bind {x : Eval α} {x' : Eval β} {y : α → Eval γ} {y' : β → Eval δ}
    (hx : x.Mirrors f setting setting' g x')
    (hy : ∀ a, (y a).Mirrors f setting setting' h (y' (g a))) :
    (x >>= y).Mirrors f setting setting' h (x' >>= y') := by
  intro m
  exact (hx m).bind hy

theorem Mirrors.map {x : Eval α} {x' : Eval β} {k : α → γ} {k' : β → δ}
    (hx : x.Mirrors f setting setting' g x') (hk : ∀ a, k' (g a) = h (k a)) :
    (k <$> x).Mirrors f setting setting' h (k' <$> x') :=
  hx.bind fun a => .pure (hk a)

theorem mirrors_request (task : Task) :
    (request task).Mirrors f setting setting' (task.relabelResult f)
      (request (task.relabel f)) := by
  intro m
  exact .ask fun r m' => .ended r m'

theorem mirrors_fail {cause cause' : FaultCause} {place place' : Span}
    (hcause : cause' = cause.relabel f) (hplace : place' = f.place place) :
    (fail cause place).Mirrors f setting setting' g (fail cause' place') := by
  intro m
  subst hcause hplace
  exact .ended (.error ⟨cause, place⟩) m

theorem mirrors_check {place : Span} {r : Except FaultCause α} {r' : Except FaultCause β}
    (hr : r' = FaultCause.relabelOr f g r) :
    (check place r).Mirrors f setting setting' g (check (f.place place) r') := by
  subst hr
  cases r with
  | ok a =>
      exact .pure rfl
  | error cause =>
      exact mirrors_fail rfl rfl

theorem mirrors_read {place : Span} {look : Store → Except FaultCause α}
    {look' : Store → Except FaultCause β}
    (hlook : ∀ s, look' (s.relabel f) = FaultCause.relabelOr f g (look s)) :
    (read place look).Mirrors f setting setting' g (read (f.place place) look') := by
  intro m
  unfold read
  simp only [show (m.relabel f).store = m.store.relabel f from rfl, hlook]
  cases look m.store with
  | ok a =>
      exact .ended (.ok a) m
  | error cause =>
      exact .ended (.error ⟨cause, place⟩) m

theorem mirrors_change {step step' : Store → Store}
    (hstep : ∀ s, step' (s.relabel f) = (step s).relabel f) :
    (change step).Mirrors f setting setting' id (change step') := by
  intro m
  unfold change
  simp only [show (m.relabel f).store = m.store.relabel f from rfl, hstep]
  exact .ended (.ok ()) { m with store := step m.store }

theorem mirrors_tryChange {place : Span} {step step' : Store → Except FaultCause Store}
    (hstep : ∀ s, step' (s.relabel f) = FaultCause.relabelOr f (Store.relabel f) (step s)) :
    (tryChange place step).Mirrors f setting setting' id (tryChange (f.place place) step') := by
  intro m
  unfold tryChange
  simp only [show (m.relabel f).store = m.store.relabel f from rfl, hstep]
  cases step m.store with
  | ok store =>
      exact .ended (.ok ()) { m with store }
  | error cause =>
      exact .ended (.error ⟨cause, place⟩) m

theorem mirrors_create {step : Store → α × Store} {step' : Store → β × Store}
    (hstep : ∀ s, step' (s.relabel f) = (step s).map g (Store.relabel f)) :
    (create step).Mirrors f setting setting' g (create step') := by
  intro m
  unfold create
  simp only [show (m.relabel f).store = m.store.relabel f from rfl, hstep]
  exact .ended (.ok (step m.store).1) { m with store := (step m.store).2 }

theorem mirrors_print {line line' : String} (hline : line' = line) :
    (print line).Mirrors f setting setting' id (print line') := by
  intro m
  subst hline
  exact .ended (.ok ()) { m with printed := line' :: m.printed }

theorem mirrors_distance? (hsetting : setting.Mirrors f setting') (number : Nat) :
    (distance? number).Mirrors f setting setting' id (distance? (f.number number)) := by
  intro m
  unfold distance?
  simp only [hsetting.distance]
  exact .ended (.ok (setting.locals.distance? number)) m

theorem mirrors_globals (hsetting : setting.Mirrors f setting') :
    globals.Mirrors f setting setting' id globals := by
  intro m
  unfold globals
  simp only [hsetting.globals]
  exact .ended (.ok setting.globals) m

theorem mirrors_readClock (hsetting : setting.Mirrors f setting') (place : Span) :
    (readClock place).Mirrors f setting setting' (Value.relabel f)
      (readClock (f.place place)) := by
  intro m
  unfold readClock
  simp only [hsetting.clock, show (m.relabel f).readings = m.readings from rfl]
  cases setting.clock m.readings with
  | ok seconds =>
      exact .ended (.ok (Value.number seconds)) { m with readings := m.readings + 1 }
  | error reason =>
      exact .ended (.error ⟨.nativeFailure Store.clockName reason, place⟩)
        { m with readings := m.readings + 1 }

theorem Mirrors.nested {place : Span} {x : Eval α} {x' : Eval β}
    (hx : x.Mirrors f setting setting' g x') :
    (nested place x).Mirrors f setting setting' g (nested (f.place place) x') := by
  intro m
  unfold Eval.nested
  simp only [show (m.relabel f).depth = m.depth from rfl]
  split
  · exact .ended (.error ⟨.stackOverflow, place⟩) m
  · exact (hx { m with depth := m.depth + 1 }).atEnd fun _ => rfl

end Eval

end Lox
