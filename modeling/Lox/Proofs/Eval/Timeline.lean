import Mathlib.Logic.Relation
import Lox.Proofs.Eval.Course

/-!
# The order of events

A run goes through one sequence of moments: from a question to the round of the task that is asked
for, and from the end of a round to the course that has asked. So of two tasks that are begun in a
run one is begun first, and what never decreases from moment to moment tells which.

* `Moment.next?` is the next moment.
* `Task.Ends.before` and `Course.Begins.moment` lead from the way a task ends and from what is begun
  to moments.
* `Moment.Follows.since` says that what holds of all changes between questions holds of the changes
  between any two moments.
-/

namespace Lox

variable {α β : Type} {setting : Setting}

/-- The machine of a course at its end or at its first question. -/
def Course.head : Course α → Machine
  | .ended _ m => m
  | .ask _ m _ => m

/-- What waits for the course at hand to end: nothing, or a round of a task with the course that has
asked for the task, and what waits for that. -/
inductive Waiting (α : Type) : Type → Type 1
  | nothing : Waiting α α
  | round {β : Type} (task : Task) (next : Except Fault task.Result → Machine → Course β)
      (below : Waiting α β) : Waiting α (Option task.Result)

/-- A moment of a run: the course at hand, the machine that it has got or begun on, and what waits for
its end. -/
structure Moment (α : Type) where
  Result : Type
  since : Machine
  course : Course Result
  waiting : Waiting α Result

/-- Goes on when the course at hand has ended. -/
def Waiting.resume (setting : Setting) : {β : Type} → Waiting α β → Except Fault β → Machine →
    Option (Moment α)
  | _, .nothing, _, _ => none
  | _, .round _ next below, .error fault, m => some ⟨_, m, next (.error fault) m, below⟩
  | _, .round task next below, .ok none, m =>
      some ⟨_, m, task.round setting m, .round task next below⟩
  | _, .round _ next below, .ok (some result), m => some ⟨_, m, next (.ok result) m, below⟩

namespace Moment

/-- The machine at the end of the course or at its first question. -/
def head (a : Moment α) : Machine :=
  a.course.head

/-- The next moment. -/
def next? (setting : Setting) : Moment α → Option (Moment α)
  | ⟨_, _, .ask task m next, waiting⟩ =>
      some ⟨_, m, task.round setting m, .round task next waiting⟩
  | ⟨_, _, .ended result m, waiting⟩ => waiting.resume setting result m

/-- One moment comes next after another. -/
def Leads (setting : Setting) (a b : Moment α) : Prop :=
  a.next? setting = some b

/-- A moment is another one or comes after it. -/
def Follows (setting : Setting) : Moment α → Moment α → Prop :=
  Relation.ReflTransGen (Leads setting)

/-- Of two moments of one run one follows the other. -/
theorem Follows.total {start a b : Moment α} (ha : Follows setting start a)
    (hb : Follows setting start b) : Follows setting a b ∨ Follows setting b a := by
  -- A moment leads to one other moment at most.
  refine Relation.ReflTransGen.total_of_right_unique ?_ ha hb
  intro c d e hd he
  rw [Leads] at hd he
  rw [hd] at he
  exact Option.some.inj he

/-- A course goes on from where it was left. -/
theorem Leads.since {a b : Moment α} (h : Leads setting a b) : b.since = a.head := by
  rcases a with ⟨β, since, course, waiting⟩
  cases course with
  | ask task m next =>
      cases h
      rfl
  | ended result m =>
      cases waiting with
      | nothing => cases h
      | round task next below =>
          rcases result with fault | _ | result
          · cases h
            rfl
          · cases h
            rfl
          · cases h
            rfl

end Moment

/-! ## From tasks to moments -/

/-- A loop ends as its next round does. -/
theorem Task.Ends.again {task : Task} {m m' m'' : Machine} {r : Except Fault task.Result}
    (hround : task.round.Ends setting m (.ok none) m') (h : task.Ends setting m' r m'') :
    task.Ends setting m r m'' := by
  rcases hround with ⟨fuel₁, h₁⟩
  rcases h with ⟨fuel₂, h₂⟩
  refine ⟨max fuel₁ fuel₂ + 1, ?_⟩
  rw [perform, run_perform_mono (Nat.le_max_left fuel₁ fuel₂) h₁]
  exact perform_mono (Nat.le_max_right fuel₁ fuel₂) h₂

namespace Moment

theorem follows_of_run {fuel : Nat}
    (hperform : ∀ {task : Task} {m m' : Machine} {r : Except Fault task.Result} {β : Type}
      {since : Machine} {next : Except Fault task.Result → Machine → Course β}
      {waiting : Waiting α β}, perform setting fuel task m = .ended r m' →
        Follows setting ⟨_, since, .ask task m next, waiting⟩ ⟨_, m', next r m', waiting⟩)
    {c : Course β} {r : Except Fault β} {m since : Machine} {waiting : Waiting α β}
    (h : c.run (perform setting fuel) = .ended r m) :
    ∃ since', Follows setting ⟨_, since, c, waiting⟩ ⟨_, since', .ended r m, waiting⟩ := by
  induction c generalizing since with
  | ended result m' =>
      cases h
      exact ⟨since, .refl⟩
  | ask task m' next ih =>
      simp only [Course.run] at h
      cases hanswer : perform setting fuel task m' with
      | timeout =>
          rw [hanswer] at h
          cases h
      | ended result m'' =>
          rw [hanswer] at h
          rcases ih result m'' h with ⟨since', hfollows⟩
          exact ⟨since', (hperform hanswer).trans hfollows⟩

theorem follows_of_perform {fuel : Nat} : ∀ {task : Task} {m m' : Machine}
    {r : Except Fault task.Result} {β : Type}
    {next : Except Fault task.Result → Machine → Course β} {waiting : Waiting α β},
    perform setting fuel task m = .ended r m' →
      Follows setting ⟨_, m, task.round setting m, .round task next waiting⟩
        ⟨_, m', next r m', waiting⟩ := by
  induction fuel with
  | zero =>
      intro task m m' r β next waiting h
      cases h
  | succ fuel ih =>
      intro task m m' r β next waiting h
      rw [perform] at h
      cases hrun : (task.round setting m).run (perform setting fuel) with
      | timeout =>
          rw [hrun] at h
          cases h
      | ended result m₁ =>
          -- The tasks of the round run with less fuel, so for them the induction applies.
          have hround : ∃ since', Follows setting
              ⟨_, m, task.round setting m, .round task next waiting⟩
              ⟨_, since', .ended result m₁, .round task next waiting⟩ := by
            refine follows_of_run ?_ hrun
            intro task' m₂ m₃ r' β' since next' waiting' h'
            exact .head rfl (ih h')
          rcases hround with ⟨since', hround⟩
          rw [hrun] at h
          rcases result with fault | _ | result
          · cases h
            exact hround.tail rfl
          · exact (hround.tail rfl).trans (ih h)
          · cases h
            exact hround.tail rfl

end Moment

/-- From the question for a task a run comes to where the answer is used. -/
theorem Task.Ends.follows {task : Task} {m m' since : Machine} {r : Except Fault task.Result}
    {next : Except Fault task.Result → Machine → Course β} {waiting : Waiting α β}
    (h : task.Ends setting m r m') :
    Moment.Follows setting ⟨_, since, .ask task m next, waiting⟩ ⟨_, m', next r m', waiting⟩ := by
  rcases h with ⟨fuel, h⟩
  exact .head rfl (Moment.follows_of_perform h)

/-- A course that ends comes to its end. -/
theorem Course.Ends.follows {c : Course β} {r : Except Fault β} {m : Machine}
    (h : c.Ends setting r m) (since : Machine) (waiting : Waiting α β) :
    ∃ since', Moment.Follows setting ⟨_, since, c, waiting⟩
      ⟨_, since', .ended r m, waiting⟩ := by
  rcases h with ⟨fuel, h⟩
  exact Moment.follows_of_run (fun hperform => Task.Ends.follows ⟨fuel, hperform⟩) h

/-- A course comes to the questions that it asks. -/
theorem Course.Asks.follows {c : Course β} {task : Task} {m since : Machine}
    {waiting : Waiting α β} (h : c.Asks setting task m) :
    ∃ since' next, Moment.Follows setting ⟨_, since, c, waiting⟩
      ⟨_, since', .ask task m next, waiting⟩ := by
  induction h generalizing since with
  | now =>
      exact ⟨since, _, .refl⟩
  | later hends _ ih =>
      rcases ih with ⟨since', next, hfollows⟩
      exact ⟨since', next, hends.follows.trans hfollows⟩

/-- The first moment of a course. -/
def Course.start (c : Course α) (m : Machine) : Moment α :=
  ⟨α, m, c, .nothing⟩

/-- The moment when a round of a task is begun. -/
def Moment.ofRound (setting : Setting) (task : Task) (m : Machine)
    (next : Except Fault task.Result → Machine → Course β) (below : Waiting α β) : Moment α :=
  ⟨_, m, task.round setting m, .round task next below⟩

/-- What is begun in a course is begun at some moment. -/
theorem Course.Begins.moment {c : Course α} {task : Task} {m : Machine}
    (h : c.Begins setting task m) (since : Machine) :
    ∃ (β : Type) (next : Except Fault task.Result → Machine → Course β) (below : Waiting α β),
      Moment.Follows setting (c.start since) (.ofRound setting task m next below) := by
  -- The induction is on how the round comes to be begun, not on fuel: a run need not end.
  induction h with
  | asked hasks =>
      rcases hasks.follows with ⟨since', next, hfollows⟩
      exact ⟨_, next, _, hfollows.tail rfl⟩
  | inside _ hasks ih =>
      rcases ih with ⟨β, next, below, hfollows⟩
      rcases hasks.follows with ⟨since', next', hfollows'⟩
      exact ⟨_, next', _, (hfollows.trans hfollows').tail rfl⟩
  | again _ hround ih =>
      rcases ih with ⟨β, next, below, hfollows⟩
      rcases Course.Ends.follows hround _ _ with ⟨since', hfollows'⟩
      exact ⟨_, next, below, (hfollows.trans hfollows').tail rfl⟩

/-! ## What never decreases -/

/-- The contract that asks and promises nothing. -/
def Contract.any : Contract :=
  ⟨fun _ _ => True, fun _ _ _ _ => True⟩

/-- Up to its first question or its end, a course changes the machine by `R`. -/
theorem Course.Rises.head {C : Contract} {R : Machine → Machine → Prop} {c : Course α}
    {since : Machine} (h : c.Rises setting C R since) : R since c.head := by
  cases c with
  | ended result m => exact h
  | ask task m next => exact h.1

/-- What a contract promises need not be assumed where it is kept. -/
theorem Course.Rises.any {C : Contract} {R : Machine → Machine → Prop} {c : Course α}
    {since : Machine} (h : c.Rises setting C R since)
    (hafter : ∀ task m r m', c.Asks setting task m → task.Ends setting m r m' →
      C.after task m r m') : c.Rises setting .any R since := by
  induction c generalizing since with
  | ended result m =>
      exact h
  | ask task m next ih =>
      refine ⟨h.1, ?_⟩
      intro r m' hends _
      refine ih r m' (h.2 r m' hends (hafter task m r m' .now hends)) ?_
      intro task' m₁ r₁ m₂ hasks
      exact hafter task' m₁ r₁ m₂ (.later hends hasks)

section

variable {B : Task → Machine → Prop} {R : Machine → Machine → Prop}

/-- A course that asks for tasks in `B` only, and changes machines by `R` only. -/
structure Course.Steady (setting : Setting) (B : Task → Machine → Prop)
    (R : Machine → Machine → Prop) (since : Machine) (c : Course α) : Prop where
  rises : c.Rises setting .any R since
  asks : ∀ task m, c.Asks setting task m → B task m

/-- What waits for a course goes on steadily. -/
def Waiting.Steady (setting : Setting) (B : Task → Machine → Prop) (R : Machine → Machine → Prop) :
    {β : Type} → Waiting α β → Course β → Prop
  | _, .nothing, _ => True
  | _, .round task next below, c =>
      -- The task was asked for on `m₁`, and the round at hand was begun on `m₀`.
      ∃ m₁ m₀, B task m₀ ∧ (∀ r m', task.Ends setting m₀ r m' → task.Ends setting m₁ r m') ∧
        (∀ r m', c.Ends setting r m' → task.round.Ends setting m₀ r m') ∧
          ∀ r m', task.Ends setting m₁ r m' →
            (next r m').Steady setting B R m' ∧ below.Steady setting B R (next r m')

/-- A moment from which the run goes on steadily. -/
structure Moment.Steady (setting : Setting) (B : Task → Machine → Prop)
    (R : Machine → Machine → Prop) (a : Moment α) : Prop where
  course : a.course.Steady setting B R a.since
  waiting : a.waiting.Steady setting B R a.course

theorem Waiting.Steady.of_ends {waiting : Waiting α β} {c c' : Course β}
    (h : waiting.Steady setting B R c) (hends : ∀ r m, c'.Ends setting r m → c.Ends setting r m) :
    waiting.Steady setting B R c' := by
  cases waiting with
  | nothing =>
      trivial
  | round task next below =>
      rcases h with ⟨m₁, m₀, hB, htask, hround, hnext⟩
      exact ⟨m₁, m₀, hB, htask, fun r m' hc => hround r m' (hends r m' hc), hnext⟩

theorem Moment.Steady.next (hclosed : Closed setting B)
    (hrises : ∀ task m, B task m → (task.round setting m).Rises setting .any R m)
    {a b : Moment α} (h : a.Steady setting B R) (hnext : Leads setting a b) :
    b.Steady setting B R := by
  have hround : ∀ {task : Task} {m : Machine}, B task m →
      (task.round setting m).Steady setting B R m :=
    fun hB => ⟨hrises _ _ hB, fun _ _ hasks => hclosed.inside hB hasks⟩
  rcases a with ⟨β, since, course, waiting⟩
  rcases h with ⟨⟨hcourse, hasks⟩, hwaiting⟩
  cases course with
  | ask task m next =>
      cases hnext
      have hB : B task m := hasks task m .now
      refine ⟨hround hB, m, m, hB, fun _ _ hends => hends, fun _ _ hends => hends, ?_⟩
      intro r m' hends
      refine ⟨⟨hcourse.2 r m' hends trivial, fun _ _ h => hasks _ _ (.later hends h)⟩, ?_⟩
      exact hwaiting.of_ends fun _ _ h => hends.ask h
  | ended result m =>
      cases waiting with
      | nothing =>
          cases hnext
      | round task next below =>
          rcases hwaiting with ⟨m₁, m₀, hB, htask, hends, hanswer⟩
          have hended : task.round.Ends setting m₀ result m := hends result m ⟨0, rfl⟩
          -- How the round has ended decides whether the answer is used or another round is begun.
          rcases result with fault | _ | result
          · cases hnext
            rcases hanswer _ m (htask _ m (.of_round_error hended)) with ⟨hc, hbelow⟩
            exact ⟨hc, hbelow⟩
          · cases hnext
            have hagain : B task m := hclosed.again hB hended
            exact ⟨hround hagain, m₁, m, hagain, fun r m' h => htask r m' (Task.Ends.again hended h),
              fun _ _ h => h, hanswer⟩
          · cases hnext
            rcases hanswer _ m (htask _ m (.of_round hended)) with ⟨hc, hbelow⟩
            exact ⟨hc, hbelow⟩

theorem Moment.Steady.follows (hclosed : Closed setting B)
    (hrises : ∀ task m, B task m → (task.round setting m).Rises setting .any R m)
    {a b : Moment α} (h : a.Steady setting B R) (hfollows : Follows setting a b) :
    b.Steady setting B R := by
  induction hfollows with
  | refl => exact h
  | tail _ hleads ih => exact ih.next hclosed hrises hleads

variable (hclosed : Closed setting B)
  (hrises : ∀ task m, B task m → (task.round setting m).Rises setting .any R m)
  (hrefl : ∀ m, R m m) (htrans : ∀ a b c, R a b → R b c → R a c)

include hclosed hrises hrefl htrans

/-- From moment to moment a machine changes by `R`. -/
theorem Moment.Follows.since {a b : Moment α} (h : a.Steady setting B R)
    (hfollows : Follows setting a b) : R a.since b.since := by
  induction hfollows with
  | refl =>
      exact hrefl a.since
  | tail hfollows hleads ih =>
      refine htrans _ _ _ ih ?_
      -- In one step the machine changes only as far as the next question or the end.
      rw [hleads.since]
      exact (h.follows hclosed hrises hfollows).course.rises.head

/-- A moment that follows another one is the same, or comes after what the course there changes. -/
theorem Moment.Follows.head {a b : Moment α} (h : a.Steady setting B R)
    (hfollows : Follows setting a b) : b = a ∨ R a.head b.since := by
  rcases Relation.ReflTransGen.cases_head hfollows with rfl | ⟨c, hleads, hfollows⟩
  · exact .inl rfl
  · refine .inr ?_
    rw [← hleads.since]
    exact Moment.Follows.since hclosed hrises hrefl htrans (h.next hclosed hrises hleads) hfollows

end

end Lox
