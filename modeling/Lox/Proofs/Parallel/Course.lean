import Lox.Eval.Basic
import Lox.Proofs.Parallel.Store

/-!
# Courses of two runs

`Course.Parallels` compares two courses, question by question: both ask for parallel tasks on parallel
machines, go on in parallel after parallel answers, and end in parallel. On the way the pairing of the
frames grows. `Eval.Parallels` compares two steps on all parallel machines; there is one rule for each
primitive step of evaluation.

Main statement: `Course.Parallels.run`.
-/

namespace Lox

variable {α β γ δ : Type}

/-! ## Machines, tasks and results -/

/-- Two machines that differ only in frames and in the numbers of code. -/
structure Machine.Parallels (T : Tracks) (P : Pairing) (m m' : Machine) : Prop where
  store : m.store.Parallels T P m'.store
  root : P none T.first.globals T.first.globals
  depth : m'.depth = m.depth
  readings : m'.readings = m.readings
  printed : m'.printed = m.printed

/-- Two statements end alike. -/
inductive Flow.Parallels (T : Tracks) (P : Pairing) : Flow → Flow → Prop
  | normal : Parallels T P .normal .normal
  | returned {v v' : Value} : v.Parallels T P v' → Parallels T P (.returned v) (.returned v')

/-- Two tasks that do the same in frames that stand for each other. -/
inductive Task.Parallels (T : Tracks) (P : Pairing) : Task → Task → Prop
  | evaluate {k : Hollow} {f f' : FrameId} {e e' : Expr} :
      P k f f' → e.Parallels T k e' → Parallels T P (.evaluate f e) (.evaluate f' e')
  | execute {k : Hollow} {f f' : FrameId} {s s' : Stmt} :
      P k f f' → s.Parallels T k s' → Parallels T P (.execute f s) (.execute f' s')

/-- What two tasks give is parallel. -/
def Task.Yields (T : Tracks) (P : Pairing) : (task task' : Task) → task.Result → task'.Result → Prop
  | .evaluate _ _, .evaluate _ _, v, v' => Value.Parallels T P v v'
  | .execute _ _, .execute _ _, w, w' => Flow.Parallels T P w w'
  | _, _, _, _ => False

/-- Two results, or two faults that are reported alike. -/
inductive Fault.ParallelsOr (R : α → β → Prop) : Except Fault α → Except Fault β → Prop
  | ok {a : α} {b : β} : R a b → ParallelsOr R (.ok a) (.ok b)
  | error {fault fault' : Fault} :
      fault.Parallels fault' → ParallelsOr R (.error fault) (.error fault')

variable {T : Tracks} {P Q : Pairing} {R : Pairing → α → β → Prop} {S : Pairing → γ → δ → Prop}

theorem Machine.Parallels.withStore {m m' : Machine} {s s' : Store} (h : m.Parallels T P m')
    (hle : P ≤ Q) (hs : s.Parallels T Q s') :
    Machine.Parallels T Q { m with store := s } { m' with store := s' } :=
  ⟨hs, hle _ _ _ h.root, h.depth, h.readings, h.printed⟩

/-! ## Courses and outcomes -/

/-- The second course asks for parallel tasks and ends in parallel to the first. All frames that stand
for each other at the beginning go on doing so. -/
inductive Course.Parallels (T : Tracks) (R : Pairing → α → β → Prop) :
    Pairing → Course α → Course β → Prop
  | ended {P Q : Pairing} {r : Except Fault α} {r' : Except Fault β} {m m' : Machine} :
      P ≤ Q → Fault.ParallelsOr (R Q) r r' → m.Parallels T Q m' →
        Parallels T R P (.ended r m) (.ended r' m')
  | ask {P Q : Pairing} {task task' : Task} {m m' : Machine}
      {next : Except Fault task.Result → Machine → Course α}
      {next' : Except Fault task'.Result → Machine → Course β} :
      P ≤ Q → task.Parallels T Q task' → m.Parallels T Q m' →
      (∀ Q' r r' n n', Q ≤ Q' → Fault.ParallelsOr (task.Yields T Q' task') r r' →
        Machine.Parallels T Q' n n' → Parallels T R Q' (next r n) (next' r' n')) →
          Parallels T R P (.ask task m next) (.ask task' m' next')

/-- The second outcome is parallel to the first, and neither is one if the other is none. -/
inductive Outcome.Parallels (T : Tracks) (R : Pairing → α → β → Prop) (P : Pairing) :
    Outcome α → Outcome β → Prop
  | ended {Q : Pairing} {r : Except Fault α} {r' : Except Fault β} {m m' : Machine} :
      P ≤ Q → Fault.ParallelsOr (R Q) r r' → m.Parallels T Q m' →
        Parallels T R P (.ended r m) (.ended r' m')
  | timeout : Parallels T R P .timeout .timeout

theorem Outcome.Parallels.since {o : Outcome α} {o' : Outcome β} (h : o.Parallels T R Q o')
    (hle : P ≤ Q) : o.Parallels T R P o' := by
  cases h with
  | ended hle' hr hm => exact .ended (hle.trans hle') hr hm
  | timeout => exact .timeout

namespace Course.Parallels

variable {c : Course α} {c' : Course β}

theorem since (h : c.Parallels T R Q c') (hle : P ≤ Q) : c.Parallels T R P c' := by
  cases h with
  | ended hle' hr hm => exact .ended (hle.trans hle') hr hm
  | ask hle' htask hm hnext => exact .ask (hle.trans hle') htask hm hnext

theorem bind {next : α → Machine → Course γ} {next' : β → Machine → Course δ}
    (hc : c.Parallels T R P c')
    (hnext : ∀ Q a b m m', P ≤ Q → R Q a b → m.Parallels T Q m' →
      (next a m).Parallels T S Q (next' b m')) :
    (c.bind next).Parallels T S P (c'.bind next') := by
  induction hc with
  | @ended P Q r r' m m' hle hr hm =>
      cases hr with
      | ok hab => exact (hnext Q _ _ m m' hle hab hm).since hle
      | error hfault => exact .ended hle (.error hfault) hm
  | ask hle htask hm _ ih =>
      refine .ask hle htask hm ?_
      intro Q' r r' n n' hle' hr hn
      refine ih Q' r r' n n' hle' hr hn ?_
      exact fun Q'' a b m m' hle'' => hnext Q'' a b m m' ((hle.trans hle').trans hle'')

theorem atEnd {change : Machine → Machine}
    (hchange : ∀ Q m m', m.Parallels T Q m' → (change m).Parallels T Q (change m'))
    (hc : c.Parallels T R P c') : (c.atEnd change).Parallels T R P (c'.atEnd change) := by
  induction hc with
  | ended hle hr hm => exact .ended hle hr (hchange _ _ _ hm)
  | ask hle htask hm _ ih => exact .ask hle htask hm ih

/-- If the tasks end in parallel, then so do the courses. -/
theorem run {answer answer' : (task : Task) → Machine → Outcome task.Result}
    (hanswer : ∀ Q task task' m m', task.Parallels T Q task' → m.Parallels T Q m' →
      (answer task m).Parallels T (fun Q' => task.Yields T Q' task') Q (answer' task' m'))
    (hc : c.Parallels T R P c') :
    (c.run answer).Parallels T R P (c'.run answer') := by
  induction hc with
  | ended hle hr hm => exact .ended hle hr hm
  | @ask P Q task task' m m' next next' hle htask hm _ ih =>
      have hsame := hanswer Q task task' m m' htask hm
      simp only [Course.run]
      generalize answer task m = o at hsame
      generalize answer' task' m' = o' at hsame
      cases hsame with
      | @ended Q' r r' n n' hle' hr hn =>
          exact (ih Q' r r' n n' hle' hr hn).since (hle.trans hle')
      | timeout => exact .timeout

end Course.Parallels

/-! ## Steps -/

/-- On parallel machines the two steps take parallel courses. -/
def Eval.Parallels (T : Tracks) (P : Pairing) (R : Pairing → α → β → Prop) (x : Eval α)
    (x' : Eval β) : Prop :=
  ∀ Q m m', P ≤ Q → Machine.Parallels T Q m m' →
    (x T.first m).Parallels T R Q (x' T.second m')

/-- The results of steps that give nothing. -/
def Eval.Nothing (_ : Pairing) (_ _ : Unit) : Prop :=
  True

namespace Eval

open FaultCause (ParallelsOr)

namespace Parallels

variable {x : Eval α} {x' : Eval β}

theorem mono (h : x.Parallels T P R x') (hle : P ≤ Q) : x.Parallels T Q R x' :=
  fun Q' m m' hle' => h Q' m m' (hle.trans hle')

theorem bind {y : α → Eval γ} {y' : β → Eval δ} (hx : x.Parallels T P R x')
    (hy : ∀ Q a b, P ≤ Q → R Q a b → (y a).Parallels T Q S (y' b)) :
    (x >>= y).Parallels T P S (x' >>= y') := by
  intro Q m m' hle hm
  refine Course.Parallels.bind (hx Q m m' hle hm) ?_
  exact fun Q' a b n n' hle' hab => hy Q' a b (hle.trans hle') hab Q' n n' (le_refl Q')

theorem pure {a : α} {b : β} (h : ∀ Q, P ≤ Q → R Q a b) :
    Parallels T P R (Pure.pure a) (Pure.pure b) :=
  fun Q _ _ hle hm => .ended (le_refl Q) (.ok (h Q hle)) hm

theorem map {f : α → γ} {f' : β → δ} (hx : x.Parallels T P R x')
    (hf : ∀ Q a b, R Q a b → S Q (f a) (f' b)) : (f <$> x).Parallels T P S (f' <$> x') := by
  intro Q m m' hle hm
  refine Course.Parallels.bind (hx Q m m' hle hm) ?_
  exact fun Q' a b n n' _ hab hn => .ended (le_refl Q') (.ok (hf Q' a b hab)) hn

end Parallels

/-! ### Primitive steps -/

theorem parallels_request {task task' : Task} (h : ∀ Q, P ≤ Q → task.Parallels T Q task') :
    (request task).Parallels T P (fun Q => task.Yields T Q task') (request task') := by
  intro Q m m' hle hm
  refine .ask (le_refl Q) (h Q hle) hm ?_
  exact fun Q' r r' n n' _ hr hn => .ended (le_refl Q') hr hn

theorem parallels_fail {cause cause' : FaultCause} {place : Span} (h : cause.Parallels cause') :
    (fail cause place).Parallels T P R (fail cause' place) :=
  fun Q _ _ _ hm => .ended (le_refl Q) (.error ⟨rfl, h⟩) hm

theorem parallels_check {place : Span} {r : Except FaultCause α} {r' : Except FaultCause β}
    (h : ∀ Q, P ≤ Q → ParallelsOr (R Q) r r') :
    (check place r).Parallels T P R (check place r') := by
  intro Q m m' hle hm
  cases h Q hle with
  | ok hab => exact .ended (le_refl Q) (.ok hab) hm
  | error hcause => exact .ended (le_refl Q) (.error ⟨rfl, hcause⟩) hm

theorem parallels_read {place : Span} {look : Store → Except FaultCause α}
    {look' : Store → Except FaultCause β}
    (h : ∀ Q s s', P ≤ Q → s.Parallels T Q s' → ParallelsOr (R Q) (look s) (look' s')) :
    (read place look).Parallels T P R (read place look') := by
  intro Q m m' hle hm
  have hlook := h Q m.store m'.store hle hm.store
  unfold read
  generalize look m.store = r at hlook
  generalize look' m'.store = r' at hlook
  cases hlook with
  | ok hab => exact .ended (le_refl Q) (.ok hab) hm
  | error hcause => exact .ended (le_refl Q) (.error ⟨rfl, hcause⟩) hm

theorem parallels_change {step step' : Store → Store}
    (h : ∀ Q s s', P ≤ Q → s.Parallels T Q s' → (step s).Parallels T Q (step' s')) :
    (change step).Parallels T P Nothing (change step') :=
  fun Q _ _ hle hm =>
    .ended (le_refl Q) (.ok trivial) (hm.withStore (le_refl Q) (h Q _ _ hle hm.store))

theorem parallels_tryChange {place : Span} {step step' : Store → Except FaultCause Store}
    (h : ∀ Q s s', P ≤ Q → s.Parallels T Q s' →
      ParallelsOr (Store.Parallels T Q) (step s) (step' s')) :
    (tryChange place step).Parallels T P Nothing (tryChange place step') := by
  intro Q m m' hle hm
  have hstep := h Q m.store m'.store hle hm.store
  unfold tryChange
  generalize step m.store = r at hstep
  generalize step' m'.store = r' at hstep
  cases hstep with
  | ok hs => exact .ended (le_refl Q) (.ok trivial) (hm.withStore (le_refl Q) hs)
  | error hcause => exact .ended (le_refl Q) (.error ⟨rfl, hcause⟩) hm

theorem parallels_create {step : Store → α × Store} {step' : Store → β × Store}
    (h : ∀ Q s s', P ≤ Q → s.Parallels T Q s' →
      ∃ Q', Q ≤ Q' ∧ R Q' (step s).1 (step' s').1 ∧ (step s).2.Parallels T Q' (step' s').2) :
    (create step).Parallels T P R (create step') := by
  intro Q m m' hle hm
  rcases h Q m.store m'.store hle hm.store with ⟨Q', hle', hab, hs⟩
  exact .ended hle' (.ok hab) (hm.withStore hle' hs)

theorem parallels_print {line line' : String} (h : line' = line) :
    (print line).Parallels T P Nothing (print line') := by
  subst h
  exact fun Q _ _ _ hm => .ended (le_refl Q) (.ok trivial)
    ⟨hm.store, hm.root, hm.depth, hm.readings, congrArg (line' :: ·) hm.printed⟩

theorem parallels_distance? (id id' : Nat) :
    (distance? id).Parallels T P
      (fun _ d d' => d = T.first.locals.distance? id ∧ d' = T.locals.distance? id')
      (distance? id') :=
  fun Q _ _ _ hm => .ended (le_refl Q) (.ok ⟨rfl, rfl⟩) hm

theorem parallels_globals : globals.Parallels T P (fun Q f f' => Q none f f') globals :=
  fun Q _ _ _ hm => .ended (le_refl Q) (.ok hm.root) hm

theorem parallels_readClock {place : Span} :
    (readClock place).Parallels T P (Value.Parallels T) (readClock place) := by
  intro Q m m' _ hm
  have hlater : Machine.Parallels T Q { m with readings := m.readings + 1 }
      { m' with readings := m'.readings + 1 } :=
    ⟨hm.store, hm.root, hm.depth, congrArg (· + 1) hm.readings, hm.printed⟩
  unfold readClock
  rw [show T.second.clock = T.first.clock from rfl, hm.readings]
  rw [hm.readings] at hlater
  cases T.first.clock m.readings with
  | ok seconds => exact .ended (le_refl Q) (.ok (.number seconds)) hlater
  | error reason => exact .ended (le_refl Q) (.error ⟨rfl, .refl _⟩) hlater

theorem parallels_nested {place : Span} {x : Eval α} {x' : Eval β} (hx : x.Parallels T P R x') :
    (nested place x).Parallels T P R (nested place x') := by
  intro Q m m' hle hm
  unfold nested
  rw [hm.depth]
  split
  · exact .ended (le_refl Q) (.error ⟨rfl, .refl _⟩) hm
  · refine Course.Parallels.atEnd ?_ (hx Q _ _ hle ⟨hm.store, hm.root, rfl, hm.readings, hm.printed⟩)
    exact fun Q' n n' hn =>
      ⟨hn.store, hn.root, congrArg (· - 1) hn.depth, hn.readings, hn.printed⟩

end Eval

end Lox
