import Lox.Eval.Basic

/-!
# Courses of evaluation

The laws of courses and of their runs, what a run begins, and the rule by which a property of all
tasks is proved: it is checked for one round of each task, where the tasks that the round asks for
may be assumed to behave.

* `Task.Ends` and `Eval.Ends` say how a task or a step ends, whatever the fuel; `perform_mono` says
  that fuel makes no other difference.
* `Course.Begins` holds of the tasks that are begun in a course, also if the course never ends.
* `Contract.Kept` is the check of one round; `Contract.Kept.ends` and `Contract.Kept.begins` are the
  rule.
-/

namespace Lox

variable {α β γ : Type} {setting : Setting}

/-! ## Laws -/

namespace Course

theorem bind_assoc (c : Course α) (f : α → Machine → Course β)
    (g : β → Machine → Course γ) :
    (c.bind f).bind g = c.bind fun a m => (f a m).bind g := by
  induction c with
  | ended result m =>
      cases result <;> rfl
  | ask task m next ih =>
      simp only [bind, ih]

end Course

namespace Outcome

/-- Goes on with the result of an outcome, if it has one. -/
def bind : Outcome α → (α → Machine → Outcome β) → Outcome β
  | .ended (.ok a) m, next => next a m
  | .ended (.error fault) m, _ => .ended (.error fault) m
  | .timeout, _ => .timeout

end Outcome

/-- Running a course with an appended part is running the course and then the part. -/
theorem Course.run_bind (answer : (task : Task) → Machine → Outcome task.Result)
    (c : Course α) (f : α → Machine → Course β) :
    (c.bind f).run answer = (c.run answer).bind fun a m => (f a m).run answer := by
  induction c with
  | ended result m =>
      cases result <;> rfl
  | ask task m next ih =>
      simp only [Course.bind, Course.run]
      cases answer task m with
      | ended result m' =>
          exact ih result m'
      | timeout =>
          rfl

namespace Eval

theorem bind_apply (x : Eval α) (f : α → Eval β) (m : Machine) :
    (x >>= f) setting m = (x setting m).bind fun a m => f a setting m :=
  rfl

theorem pure_apply (a : α) (m : Machine) :
    (pure a : Eval α) setting m = .ended (.ok a) m :=
  rfl

end Eval

/-! ## Fuel -/

theorem Course.run_mono {f g : (task : Task) → Machine → Outcome task.Result}
    (hfg : ∀ task m r m', f task m = .ended r m' → g task m = .ended r m')
    {c : Course α} {r : Except Fault α} {m : Machine} :
    c.run f = .ended r m → c.run g = .ended r m := by
  induction c with
  | ended result m' =>
      intro h
      exact h
  | ask task m' next ih =>
      intro h
      simp only [Course.run] at h ⊢
      cases hf : f task m' with
      | ended result m'' =>
          rw [hf] at h
          rw [hfg task m' result m'' hf]
          exact ih result m'' h
      | timeout =>
          rw [hf] at h
          cases h

theorem perform_succ_mono {fuel : Nat} :
    ∀ {task : Task} {m m' : Machine} {r : Except Fault task.Result},
      perform setting fuel task m = .ended r m' →
        perform setting (fuel + 1) task m = .ended r m' := by
  induction fuel with
  | zero =>
      intro task m m' r h
      cases h
  | succ fuel ih =>
      intro task m m' r h
      rw [perform] at h ⊢
      cases hrun : (task.round setting m).run (perform setting fuel) with
      | timeout =>
          rw [hrun] at h
          cases h
      | ended result m₁ =>
          -- The round ends as before, since the tasks that it asks for do. If another round follows,
          -- it has one unit of fuel less, so the induction covers it as well.
          have hmono : (task.round setting m).run (perform setting (fuel + 1)) =
              .ended result m₁ :=
            Course.run_mono (fun task m r m' => ih) hrun
          rw [hrun] at h
          rw [hmono]
          rcases result with fault | _ | result
          · exact h
          · exact ih h
          · exact h

/-- More fuel does not change how a task ends. -/
theorem perform_mono {fuel more : Nat} (hle : fuel ≤ more) {task : Task} {m m' : Machine}
    {r : Except Fault task.Result} (h : perform setting fuel task m = .ended r m') :
    perform setting more task m = .ended r m' := by
  induction hle with
  | refl =>
      exact h
  | step _ ih =>
      exact perform_succ_mono ih

theorem run_perform_mono {fuel more : Nat} (hle : fuel ≤ more) {c : Course α}
    {r : Except Fault α} {m : Machine} (h : c.run (perform setting fuel) = .ended r m) :
    c.run (perform setting more) = .ended r m :=
  Course.run_mono (fun _ _ _ _ => perform_mono hle) h

/-- A task that is begun on `m` ends in `r` and leaves `m'`. -/
def Task.Ends (setting : Setting) (task : Task) (m : Machine) (r : Except Fault task.Result)
    (m' : Machine) : Prop :=
  ∃ fuel, perform setting fuel task m = .ended r m'

/-- A course ends in `r` and leaves `m`. -/
def Course.Ends (setting : Setting) (c : Course α) (r : Except Fault α) (m : Machine) : Prop :=
  ∃ fuel, c.run (perform setting fuel) = .ended r m

/-- A step that is begun on `m` ends in `r` and leaves `m'`. -/
def Eval.Ends (setting : Setting) (x : Eval α) (m : Machine) (r : Except Fault α)
    (m' : Machine) : Prop :=
  (x setting m).Ends setting r m'

/-- A course ends in one way only. -/
theorem Course.Ends.unique {c : Course α} {m₁ m₂ : Machine} {r₁ r₂ : Except Fault α}
    (h₁ : c.Ends setting r₁ m₁) (h₂ : c.Ends setting r₂ m₂) : r₁ = r₂ ∧ m₁ = m₂ := by
  rcases h₁ with ⟨fuel₁, h₁⟩
  rcases h₂ with ⟨fuel₂, h₂⟩
  -- With the larger amount of fuel both runs are the same run.
  have h₁' := run_perform_mono (Nat.le_max_left fuel₁ fuel₂) h₁
  have h₂' := run_perform_mono (Nat.le_max_right fuel₁ fuel₂) h₂
  rw [h₁'] at h₂'
  cases h₂'
  exact ⟨rfl, rfl⟩

theorem Task.Ends.ask {task : Task} {m m' m'' : Machine}
    {next : Except Fault task.Result → Machine → Course α} {r : Except Fault task.Result}
    {r' : Except Fault α} (htask : task.Ends setting m r m')
    (hnext : (next r m').Ends setting r' m'') : (Course.ask task m next).Ends setting r' m'' := by
  rcases htask with ⟨fuel₁, h₁⟩
  rcases hnext with ⟨fuel₂, h₂⟩
  refine ⟨max fuel₁ fuel₂, ?_⟩
  rw [Course.run, perform_mono (Nat.le_max_left fuel₁ fuel₂) h₁]
  exact run_perform_mono (Nat.le_max_right fuel₁ fuel₂) h₂

/-- A step and then the step its result asks for end as the second one does. -/
theorem Eval.Ends.bind {x : Eval α} {f : α → Eval β} {m m' m'' : Machine} {a : α}
    {r : Except Fault β} (hx : x.Ends setting m (.ok a) m') (hf : (f a).Ends setting m' r m'') :
    (x >>= f).Ends setting m r m'' := by
  rcases hx with ⟨fuel₁, h₁⟩
  rcases hf with ⟨fuel₂, h₂⟩
  refine ⟨max fuel₁ fuel₂, ?_⟩
  rw [Eval.bind_apply, Course.run_bind, run_perform_mono (Nat.le_max_left fuel₁ fuel₂) h₁]
  exact run_perform_mono (Nat.le_max_right fuel₁ fuel₂) h₂

theorem Eval.Ends.bind_error {x : Eval α} {f : α → Eval β} {fault : Fault} {m m' : Machine}
    (hx : x.Ends setting m (.error fault) m') : (x >>= f).Ends setting m (.error fault) m' := by
  rcases hx with ⟨fuel, h⟩
  refine ⟨fuel, ?_⟩
  rw [Eval.bind_apply, Course.run_bind, h]
  rfl

/-- A step that goes on after another one ends with the fault of the first one or as the second one
does. -/
theorem Eval.Ends.of_bind {x : Eval α} {f : α → Eval β} {m m' : Machine} {r : Except Fault β}
    (h : (x >>= f).Ends setting m r m') :
    (∃ fault, r = .error fault ∧ x.Ends setting m (.error fault) m') ∨
      ∃ a m₁, x.Ends setting m (.ok a) m₁ ∧ (f a).Ends setting m₁ r m' := by
  rcases h with ⟨fuel, h⟩
  rw [Eval.bind_apply, Course.run_bind] at h
  cases hrun : (x setting m).run (perform setting fuel) with
  | timeout =>
      rw [hrun] at h
      cases h
  | ended result m₁ =>
      rw [hrun] at h
      cases result with
      | error fault =>
          cases h
          exact .inl ⟨fault, rfl, fuel, hrun⟩
      | ok a =>
          exact .inr ⟨a, m₁, ⟨fuel, hrun⟩, fuel, h⟩

/-- A course whose end is changed ends where it did before. -/
theorem Course.Ends.of_atEnd {c : Course α} {change : Machine → Machine} {r : Except Fault α}
    {m : Machine} (h : (c.atEnd change).Ends setting r m) :
    ∃ m', c.Ends setting r m' ∧ m = change m' := by
  rcases h with ⟨fuel, hrun⟩
  induction c with
  | ended result m' =>
      cases hrun
      exact ⟨m', ⟨0, rfl⟩, rfl⟩
  | ask task m₁ next ih =>
      simp only [Course.atEnd, Course.run] at hrun
      cases hanswer : perform setting fuel task m₁ with
      | timeout =>
          rw [hanswer] at hrun
          cases hrun
      | ended result m₂ =>
          rw [hanswer] at hrun
          rcases ih result m₂ hrun with ⟨m', ⟨fuel', hends⟩, heq⟩
          -- The answer and the rest may have needed different amounts of fuel.
          refine ⟨m', ⟨max fuel fuel', ?_⟩, heq⟩
          rw [Course.run, perform_mono (Nat.le_max_left fuel fuel') hanswer]
          exact run_perform_mono (Nat.le_max_right fuel fuel') hends

theorem Task.Ends.request {task : Task} {m m' : Machine} {r : Except Fault task.Result}
    (h : task.Ends setting m r m') : (Eval.request task).Ends setting m r m' :=
  h.ask ⟨0, rfl⟩

theorem Task.Ends.of_request {task : Task} {m m' : Machine} {r : Except Fault task.Result}
    (h : (Eval.request task).Ends setting m r m') : task.Ends setting m r m' := by
  rcases h with ⟨fuel, h⟩
  refine ⟨fuel, ?_⟩
  simp only [Eval.request, Course.run] at h
  cases hperform : perform setting fuel task m with
  | timeout =>
      rw [hperform] at h
      cases h
  | ended result m₁ =>
      rw [hperform] at h
      exact h

/-- A task ends with a round that gives a result. -/
theorem Task.Ends.of_round {task : Task} {m m' : Machine} {r : task.Result}
    (h : task.round.Ends setting m (.ok (some r)) m') : task.Ends setting m (.ok r) m' := by
  rcases h with ⟨fuel, h⟩
  refine ⟨fuel + 1, ?_⟩
  rw [perform, h]

/-- A task ends with a round that fails. -/
theorem Task.Ends.of_round_error {task : Task} {m m' : Machine} {fault : Fault}
    (h : task.round.Ends setting m (.error fault) m') : task.Ends setting m (.error fault) m' := by
  rcases h with ⟨fuel, h⟩
  refine ⟨fuel + 1, ?_⟩
  rw [perform, h]

/-- An expression is evaluated by what is done for its value. -/
theorem Task.Ends.of_valueOf {frame : FrameId} {e : Expr} {m m' : Machine} {r : Except Fault Value}
    (h : (Eval.valueOf frame e).Ends setting m r m') :
    (Task.evaluate frame e).Ends setting m r m' := by
  cases r with
  | ok v =>
      have hround : (Task.evaluate frame e).round.Ends setting m (.ok (some v)) m' :=
        Eval.Ends.bind h ⟨0, rfl⟩
      exact .of_round hround
  | error fault =>
      have hround : (Task.evaluate frame e).round.Ends setting m (.error fault) m' :=
        Eval.Ends.bind_error h
      exact .of_round_error hround

/-! ## What is begun -/

/-- A course, followed on its way, asks for a task on a machine. -/
inductive Course.Asks (setting : Setting) : Course α → Task → Machine → Prop
  | now {task : Task} {m : Machine} {next : Except Fault task.Result → Machine → Course α} :
      Asks setting (.ask task m next) task m
  | later {task task' : Task} {m m' m'' : Machine}
      {next : Except Fault task.Result → Machine → Course α} {r : Except Fault task.Result} :
      task.Ends setting m r m' → Asks setting (next r m') task' m'' →
        Asks setting (.ask task m next) task' m''

/-- A course that is continued asks for the same tasks first. -/
theorem Course.Asks.bind_left {c : Course α} {f : α → Machine → Course β} {task : Task}
    {m : Machine} (h : c.Asks setting task m) : (c.bind f).Asks setting task m := by
  induction h with
  | now => exact .now
  | later hends _ ih => exact .later hends ih

/-- And then for those of the second part. -/
theorem Course.Asks.bind_right {c : Course α} {f : α → Machine → Course β} {task : Task} {a : α}
    {m m' : Machine} (hends : c.Ends setting (.ok a) m') (h : (f a m').Asks setting task m) :
    (c.bind f).Asks setting task m := by
  rcases hends with ⟨fuel, hrun⟩
  induction c with
  | ended result m₁ =>
      cases hrun
      exact h
  | ask task' m₁ next ih =>
      simp only [Course.run] at hrun
      cases hanswer : perform setting fuel task' m₁ with
      | timeout =>
          rw [hanswer] at hrun
          cases hrun
      | ended result m₂ =>
          rw [hanswer] at hrun
          exact .later ⟨fuel, hanswer⟩ (ih result m₂ hrun)

theorem Course.Asks.atEnd {c : Course α} {change : Machine → Machine} {task : Task} {m : Machine}
    (h : c.Asks setting task m) : (c.atEnd change).Asks setting task m := by
  induction h with
  | now => exact .now
  | later hends _ ih => exact .later hends ih

/-- A round of a task is begun in a course: the course asks for the task, or the task is asked for in
a round that is begun, or it is a loop and goes round once more. -/
inductive Course.Begins (setting : Setting) (c : Course α) : Task → Machine → Prop
  | asked {task : Task} {m : Machine} : c.Asks setting task m → Begins setting c task m
  | inside {task task' : Task} {m m' : Machine} :
      Begins setting c task m → (task.round setting m).Asks setting task' m' →
        Begins setting c task' m'
  | again {task : Task} {m m' : Machine} :
      Begins setting c task m → task.round.Ends setting m (.ok none) m' →
        Begins setting c task m'

/-- What holds of a task holds of every task that is begun in its rounds. -/
structure Closed (setting : Setting) (B : Task → Machine → Prop) : Prop where
  inside : ∀ {task task' m m'}, B task m → (task.round setting m).Asks setting task' m' →
    B task' m'
  again : ∀ {task m m'}, B task m → task.round.Ends setting m (.ok none) m' → B task m'

theorem Course.closed_begins (c : Course α) : Closed setting (c.Begins setting) :=
  ⟨fun hbegun hasks => .inside hbegun hasks, fun hbegun hround => .again hbegun hround⟩

/-! ## Contracts -/

/-- What may be assumed when a task is begun, and what is promised when it has ended. -/
structure Contract where
  before : Task → Machine → Prop
  after : (task : Task) → Machine → Except Fault task.Result → Machine → Prop

/-- A course asks for tasks only as the contract allows, and ends as `Q` says, if the tasks end as
the contract promises. -/
def Course.Meets (setting : Setting) (C : Contract) (Q : Except Fault α → Machine → Prop) :
    Course α → Prop
  | .ended r m => Q r m
  | .ask task m next =>
      C.before task m ∧
        ∀ r m', task.Ends setting m r m' → C.after task m r m' → (next r m').Meets setting C Q

/-- What a course changes before its first question, between an answer and the next question, and
before its end is a change by `R`, if the tasks end as the contract promises. -/
def Course.Rises (setting : Setting) (C : Contract) (R : Machine → Machine → Prop) :
    Machine → Course α → Prop
  | since, .ended _ m => R since m
  | since, .ask task m next =>
      R since m ∧ ∀ r m', task.Ends setting m r m' → C.after task m r m' →
        (next r m').Rises setting C R m'

/-- How a round of a task has to end. If another round follows, it may be begun, and what is promised
of it is promised of the task. -/
def Contract.RoundEnds (C : Contract) (task : Task) (m : Machine) :
    Except Fault (Option task.Result) → Machine → Prop
  | .error fault, m' => C.after task m (.error fault) m'
  | .ok (some result), m' => C.after task m (.ok result) m'
  | .ok none, m' => C.before task m' ∧ ∀ r m'', C.after task m' r m'' → C.after task m r m''

/-- A contract is kept by every round of the tasks in `B`. -/
def Contract.Kept (C : Contract) (setting : Setting) (B : Task → Machine → Prop) : Prop :=
  ∀ task m, B task m → C.before task m →
    (task.round setting m).Meets setting C (C.RoundEnds task m)

namespace Course

variable {C : Contract}

theorem Meets.mono {Q R : Except Fault α → Machine → Prop} {c : Course α}
    (h : c.Meets setting C Q) (hQR : ∀ r m, Q r m → R r m) : c.Meets setting C R := by
  induction c with
  | ended result m =>
      exact hQR result m h
  | ask task m next ih =>
      refine ⟨h.1, ?_⟩
      intro r m' hended hafter
      exact ih r m' (h.2 r m' hended hafter)

/-- A contract may be replaced by one that allows at least as much and promises at least as much. -/
theorem Meets.weaken {D : Contract} {Q : Except Fault α → Machine → Prop} {c : Course α}
    (h : c.Meets setting C Q) (hbefore : ∀ task m, C.before task m → D.before task m)
    (hafter : ∀ task m r m', D.after task m r m' → C.after task m r m') :
    c.Meets setting D Q := by
  induction c with
  | ended result m =>
      exact h
  | ask task m next ih =>
      refine ⟨hbefore task m h.1, ?_⟩
      intro r m' hended hd
      exact ih r m' (h.2 r m' hended (hafter task m r m' hd))

theorem Meets.bind {Q : Except Fault β → Machine → Prop} {c : Course α}
    {f : α → Machine → Course β}
    (h : c.Meets setting C fun
      | .ok a, m => (f a m).Meets setting C Q
      | .error fault, m => Q (.error fault) m) :
    (c.bind f).Meets setting C Q := by
  induction c with
  | ended result m =>
      cases result with
      | ok a => exact h
      | error fault => exact h
  | ask task m next ih =>
      refine ⟨h.1, ?_⟩
      intro r m' hended hafter
      exact ih r m' (h.2 r m' hended hafter)

theorem Meets.atEnd {Q : Except Fault α → Machine → Prop} {c : Course α}
    {change : Machine → Machine} (h : c.Meets setting C fun r m => Q r (change m)) :
    (c.atEnd change).Meets setting C Q := by
  induction c with
  | ended result m =>
      exact h
  | ask task m next ih =>
      refine ⟨h.1, ?_⟩
      intro r m' hended hafter
      exact ih r m' (h.2 r m' hended hafter)

theorem Rises.since {R : Machine → Machine → Prop} (htrans : ∀ a b c, R a b → R b c → R a c)
    {c : Course α} {m m' : Machine} (hm : R m m') (h : c.Rises setting C R m') :
    c.Rises setting C R m := by
  cases c with
  | ended result m'' => exact htrans m m' m'' hm h
  | ask task m'' next => exact ⟨htrans m m' m'' hm h.1, h.2⟩

theorem Rises.bind {R : Machine → Machine → Prop} (htrans : ∀ a b c, R a b → R b c → R a c)
    {c : Course α} {f : α → Machine → Course β} {m : Machine} (h : c.Rises setting C R m)
    (hf : c.Meets setting C fun
      | .ok a, m' => (f a m').Rises setting C R m'
      | .error _, _ => True) :
    (c.bind f).Rises setting C R m := by
  induction c generalizing m with
  | ended result m' =>
      cases result with
      | ok a =>
          -- The first part ends without a question here, so what it changed belongs to the first
          -- change of the second part.
          have hm : R m m' := h
          exact Rises.since htrans hm hf
      | error fault => exact h
  | ask task m' next ih =>
      refine ⟨h.1, ?_⟩
      intro r m'' hended hafter
      exact ih r m'' (h.2 r m'' hended hafter) (hf.2 r m'' hended hafter)

/-- A second part that only changes the result changes no machine. -/
theorem Rises.map {R : Machine → Machine → Prop} {c : Course α} {f : α → Machine → Course β}
    {m : Machine} (h : c.Rises setting C R m) (hf : ∀ a m', ∃ r, f a m' = .ended r m') :
    (c.bind f).Rises setting C R m := by
  induction c generalizing m with
  | ended result m' =>
      cases result with
      | ok a =>
          rcases hf a m' with ⟨r, hr⟩
          rw [Course.bind, hr]
          exact h
      | error fault => exact h
  | ask task m' next ih =>
      refine ⟨h.1, ?_⟩
      intro r m'' hended hafter
      exact ih r m'' (h.2 r m'' hended hafter)

theorem Rises.atEnd {R : Machine → Machine → Prop} {c : Course α} {change : Machine → Machine}
    (hchange : ∀ a b, R a b → R a (change b)) {m : Machine} (h : c.Rises setting C R m) :
    (c.atEnd change).Rises setting C R m := by
  induction c generalizing m with
  | ended result m' =>
      exact hchange m m' h
  | ask task m' next ih =>
      refine ⟨h.1, ?_⟩
      intro r m'' hended hafter
      exact ih r m'' (h.2 r m'' hended hafter)

/-- Where a course is considered to end, it does end there. -/
theorem Meets.and_ends {Q : Except Fault α → Machine → Prop} {c : Course α}
    (h : c.Meets setting C Q) : c.Meets setting C fun r m => c.Ends setting r m ∧ Q r m := by
  induction c with
  | ended result m =>
      exact ⟨⟨0, rfl⟩, h⟩
  | ask task m next ih =>
      refine ⟨h.1, ?_⟩
      intro r m' hended hafter
      refine (ih r m' (h.2 r m' hended hafter)).mono ?_
      intro r' m'' hpost
      rcases hpost with ⟨hends, hq⟩
      exact ⟨hended.ask hends, hq⟩

/-- A run of a course that meets a contract ends as it should. -/
theorem Meets.run {Q : Except Fault α → Machine → Prop} {c : Course α} {fuel : Nat}
    (hends : ∀ task m r m', c.Asks setting task m → C.before task m →
      perform setting fuel task m = .ended r m' → C.after task m r m')
    (hmeets : c.Meets setting C Q) {r : Except Fault α} {m : Machine}
    (hrun : c.run (perform setting fuel) = .ended r m) : Q r m := by
  induction c with
  | ended result m' =>
      cases hrun
      exact hmeets
  | ask task m' next ih =>
      simp only [Course.run] at hrun
      cases hanswer : perform setting fuel task m' with
      | timeout =>
          rw [hanswer] at hrun
          cases hrun
      | ended result m'' =>
          rw [hanswer] at hrun
          have hended : task.Ends setting m' result m'' := ⟨fuel, hanswer⟩
          have hafter : C.after task m' result m'' :=
            hends task m' result m'' .now hmeets.1 hanswer
          -- What is asked for in the rest is asked for in the whole course.
          refine ih result m'' ?_ (hmeets.2 result m'' hended hafter) hrun
          intro task' m₁ r₁ m₂ hasks
          exact hends task' m₁ r₁ m₂ (.later hended hasks)

/-- A course comes to an end if all tasks do that it may ask for. -/
theorem Meets.stops {Q : Except Fault α → Machine → Prop} {c : Course α}
    (hmeets : c.Meets setting C Q)
    (hends : ∀ task m, C.before task m → ∃ r m', task.Ends setting m r m' ∧ C.after task m r m') :
    ∃ r m, c.Ends setting r m ∧ Q r m := by
  induction c with
  | ended result m =>
      exact ⟨result, m, ⟨0, rfl⟩, hmeets⟩
  | ask task m next ih =>
      rcases hends task m hmeets.1 with ⟨r, m', hended, hafter⟩
      rcases ih r m' (hmeets.2 r m' hended hafter) with ⟨r', m'', hends', hq⟩
      exact ⟨r', m'', hended.ask hends', hq⟩

/-- The tasks a course asks for may be begun. -/
theorem Meets.asks {Q : Except Fault α → Machine → Prop} {c : Course α}
    (hends : ∀ task m r m', c.Asks setting task m → C.before task m →
      task.Ends setting m r m' → C.after task m r m')
    (hmeets : c.Meets setting C Q) {task : Task} {m : Machine} (hasks : c.Asks setting task m) :
    C.before task m := by
  induction hasks with
  | now =>
      exact hmeets.1
  | later hended _ ih =>
      refine ih ?_ (hmeets.2 _ _ hended (hends _ _ _ _ .now hmeets.1 hended))
      intro task' m₁ r₁ m₂ hasks'
      exact hends task' m₁ r₁ m₂ (.later hended hasks')

end Course

namespace Contract

variable {C : Contract} {B : Task → Machine → Prop}

theorem Kept.perform (hkept : C.Kept setting B) (hclosed : Closed setting B) {fuel : Nat} :
    ∀ {task : Task} {m m' : Machine} {r : Except Fault task.Result}, B task m →
      C.before task m → perform setting fuel task m = .ended r m' → C.after task m r m' := by
  induction fuel with
  | zero =>
      intro task m m' r _ _ h
      cases h
  | succ fuel ih =>
      intro task m m' r hB hbefore h
      have hmeets : (task.round setting m).Meets setting C (C.RoundEnds task m) :=
        hkept task m hB hbefore
      rw [Lox.perform] at h
      cases hrun : (task.round setting m).run (Lox.perform setting fuel) with
      | timeout =>
          rw [hrun] at h
          cases h
      | ended result m₁ =>
          -- The tasks of the round run with less fuel, so they end as promised.
          have hround : C.RoundEnds task m result m₁ := by
            refine hmeets.run ?_ hrun
            intro task' m₂ r₂ m₃ hasks hbefore'
            exact ih (hclosed.inside hB hasks) hbefore'
          rw [hrun] at h
          rcases result with fault | _ | result
          · cases h
            exact hround
          · exact hround.2 r m' (ih (hclosed.again hB ⟨fuel, hrun⟩) hround.1 h)
          · cases h
            exact hround

/-- A task that keeps its contract ends as promised. -/
theorem Kept.ends (hkept : C.Kept setting B) (hclosed : Closed setting B) {task : Task}
    {m m' : Machine} {r : Except Fault task.Result} (hB : B task m)
    (hbefore : C.before task m) (hended : task.Ends setting m r m') :
    C.after task m r m' := by
  rcases hended with ⟨fuel, h⟩
  exact hkept.perform hclosed hB hbefore h

/-- Every task that is begun in a course that meets the contract may be begun. -/
theorem Kept.begins {c : Course α} {Q : Except Fault α → Machine → Prop}
    (hkept : C.Kept setting (c.Begins setting)) (hmeets : c.Meets setting C Q)
    {task : Task} {m : Machine} (hbegun : c.Begins setting task m) : C.before task m := by
  induction hbegun with
  | asked hasks =>
      -- That tasks end as promised is known already for all fuel, so the induction is only on how the
      -- task comes to be begun.
      refine hmeets.asks ?_ hasks
      intro task' m₁ r₁ m₂ hasks' hbefore hended
      exact hkept.ends c.closed_begins (.asked hasks') hbefore hended
  | inside hbegun hasks ih =>
      refine (hkept _ _ hbegun ih).asks ?_ hasks
      intro task' m₁ r₁ m₂ hasks' hbefore hended
      exact hkept.ends c.closed_begins (.inside hbegun hasks') hbefore hended
  | @again task' m₀ m₁ hbegun hround ih =>
      rcases hround with ⟨fuel, hrun⟩
      have hends : C.RoundEnds task' m₀ (.ok none) m₁ := by
        refine (hkept task' m₀ hbegun ih).run ?_ hrun
        intro task'' m₂ r₂ m₃ hasks' hbefore hperform
        exact hkept.perform c.closed_begins (.inside hbegun hasks') hbefore hperform
      exact hends.1

/-- A course that meets the contract ends as it should. -/
theorem Kept.course_ends {c : Course α} {Q : Except Fault α → Machine → Prop}
    (hkept : C.Kept setting (c.Begins setting)) (hmeets : c.Meets setting C Q)
    {r : Except Fault α} {m : Machine} (hended : c.Ends setting r m) : Q r m := by
  rcases hended with ⟨fuel, hrun⟩
  refine hmeets.run ?_ hrun
  intro task m₁ r₁ m₂ hasks hbefore hperform
  exact hkept.perform c.closed_begins (.asked hasks) hbefore hperform

end Contract

end Lox
