import Lox.Proofs.Eval.Counting

/-!
# The census from moment to moment

What has been made up to a moment of a run is listed at that moment, and so is every value that has
been seen up to then. This does not need that the run comes to an end.

Main statement: `Moment.Counted.shown`.
-/

namespace Lox

variable {α β : Type}

/-- What the course at hand has to give. -/
def Waiting.Expects : {β : Type} → Waiting α β → Census → β → Prop
  | _, .nothing, _, _ => True
  | _, .round task _ _, k, result? => ∀ result ∈ result?, k.Gives task result

/-- What waits for a course goes on listing what it makes. -/
def Waiting.Counted (P : ClassDecl → Prop) (k : Census) : {β : Type} → Waiting α β → Prop
  | _, .nothing => True
  | _, .round task next below => task.Declares P ∧ Waiting.Counted P k below ∧
      ∀ r m l, k.Extends l → l.Fits P m.store → (∀ a, r = .ok a → l.Gives task a) →
        ∃ l', l.Extends l' ∧ (next r m).Counted P below.Expects l'

/-- A moment from which on everything that is made is listed. -/
structure Moment.Counted (P : ClassDecl → Prop) (k : Census) (a : Moment α) : Prop where
  course : a.course.Counted P a.waiting.Expects k
  waiting : a.waiting.Counted P k

theorem Waiting.Counted.extends {P : ClassDecl → Prop} {k l : Census} {waiting : Waiting α β}
    (h : waiting.Counted P k) (hl : k.Extends l) : waiting.Counted P l := by
  induction waiting with
  | nothing => trivial
  | round task next below ih =>
      refine ⟨h.1, ih h.2.1, ?_⟩
      intro r m l' hl'
      exact h.2.2 r m l' (hl.trans hl')

namespace Moment

variable {setting : Setting} {P : ClassDecl → Prop} {k : Census} {a b : Moment α}

/-- A round that is begun on a machine, where something waits for it. -/
theorem counted_round {task : Task} {m : Machine}
    {next : Except Fault task.Result → Machine → Course β} {below : Waiting α β}
    (h : k.Fits P m.store) (hwaiting : (Waiting.round task next below).Counted P k) :
    ∃ l, k.Extends l ∧ (Moment.ofRound setting task m next below).Counted P l := by
  have hcounted : task.round.Counted setting P k m fun l result? =>
      ∀ result ∈ result?, l.Gives task result := Task.counted_round hwaiting.1 h
  rcases hcounted with ⟨l, hl, hround⟩
  exact ⟨l, hl, hround, hwaiting.extends hl⟩

/-- The list only gets longer. -/
theorem Counted.next (h : a.Counted P k) (hleads : Leads setting a b)
    (hasks : ∀ task m, a.course.Asks setting task m → task.Declares P) :
    ∃ l, k.Extends l ∧ b.Counted P l := by
  rcases a with ⟨β, since, course, waiting⟩
  rcases h with ⟨hcourse, hwaiting⟩
  cases course with
  | ask task m next =>
      cases hleads
      exact counted_round hcourse.1 ⟨hasks task m .now, hwaiting, hcourse.2⟩
  | ended result m =>
      cases waiting with
      | nothing =>
          cases hleads
      | round task next below =>
          rcases hwaiting with ⟨htask, hbelow, hnext⟩
          -- What waits goes on with a fault or a result. A round that has neither is begun again.
          rcases result with fault | _ | result
          · cases hleads
            rcases hnext (.error fault) m k (.refl k) hcourse.1 fun _ heq => nomatch heq with
              ⟨l, hl, hcounted⟩
            exact ⟨l, hl, hcounted, hbelow.extends hl⟩
          · cases hleads
            exact counted_round hcourse.1 ⟨htask, hbelow, hnext⟩
          · cases hleads
            have hgives : ∀ a, (.ok result : Except Fault task.Result) = .ok a → k.Gives task a := by
              intro a heq
              cases heq
              exact hcourse.2 _ rfl result rfl
            rcases hnext (.ok result) m k (.refl k) hcourse.1 hgives with ⟨l, hl, hcounted⟩
            exact ⟨l, hl, hcounted, hbelow.extends hl⟩

/-- The moment that comes so many moments later, if the run goes on so long. -/
def after? (setting : Setting) (a : Moment α) : Nat → Option (Moment α)
  | 0 => some a
  | n + 1 => (a.after? setting n).bind (next? setting)

theorem Follows.after (h : Follows setting a b) : ∃ n, a.after? setting n = some b := by
  induction h with
  | refl =>
      exact ⟨0, rfl⟩
  | tail _ hleads ih =>
      rcases ih with ⟨n, hn⟩
      refine ⟨n + 1, ?_⟩
      rw [after?, hn]
      exact hleads

theorem follows_of_after : ∀ {n : Nat} {b : Moment α}, a.after? setting n = some b →
    Follows setting a b := by
  intro n
  induction n with
  | zero =>
      intro b h
      cases h
      exact .refl
  | succ n ih =>
      intro c h
      rcases Option.bind_eq_some_iff.mp h with ⟨b, hb, hleads⟩
      exact (ih hb).tail hleads

/-- Nothing comes after a last moment. -/
theorem le_of_after {n i : Nat} {c : Moment α} (hb : a.after? setting n = some b)
    (hlast : b.next? setting = none) (hc : a.after? setting i = some c) : i ≤ n := by
  refine Nat.le_of_not_lt fun hlt => ?_
  have hnone : ∀ d, a.after? setting (n + 1 + d) = none := by
    intro d
    induction d with
    | zero => rw [Nat.add_zero, after?, hb, Option.bind_some, hlast]
    | succ d ih => rw [← Nat.add_assoc, after?, ih, Option.bind_none]
  have hi := hnone (i - (n + 1))
  rw [Nat.add_sub_of_le hlt, hc] at hi
  cases hi

/-- A value can be seen at a moment, so it is listed wherever all is listed that is made. -/
def Shows (a : Moment α) (v : Value) : Prop :=
  ∀ P k, a.Counted P k → k.Has v

/-- At each moment, all that has been shown so far is listed. -/
theorem Counted.shown (h : a.Counted P k)
    (hasks : ∀ b, Follows setting a b → ∀ task m, b.course.Asks setting task m → task.Declares P) :
    ∀ {n : Nat} {b : Moment α}, a.after? setting n = some b → ∃ l, k.Extends l ∧ b.Counted P l ∧
      ∀ i ≤ n, ∀ c, a.after? setting i = some c → ∀ v, c.Shows v → l.Has v := by
  intro n
  induction n with
  | zero =>
      intro b hb
      cases hb
      refine ⟨k, .refl k, h, ?_⟩
      intro i hi c hc v hv
      rw [Nat.le_zero.mp hi] at hc
      cases hc
      exact hv P k h
  | succ n ih =>
      intro c hc
      rcases Option.bind_eq_some_iff.mp hc with ⟨b, hb, hleads⟩
      rcases ih hb with ⟨l, hl, hcounted, hshown⟩
      rcases hcounted.next hleads (hasks b (follows_of_after hb)) with ⟨l', hl', hcounted'⟩
      refine ⟨l', hl.trans hl', hcounted', ?_⟩
      -- Earlier moments have shown what the shorter list has, and the last one shows what `l'` has.
      intro i hi d hd v hv
      rcases Nat.le_succ_iff.mp hi with hi | rfl
      · exact (hshown i hi d hd v hv).extends hl'
      · rw [hc] at hd
        cases hd
        exact hv P l' hcounted'

/-- The result of a task is shown when it has been got. -/
theorem follows_given {fuel : Nat} : ∀ {task : Task} {m m' : Machine} {result : task.Result}
    {next : Except Fault task.Result → Machine → Course β} {below : Waiting α β},
    perform setting fuel task m = .ended (.ok result) m' →
      ∃ since, Follows setting (.ofRound setting task m next below)
        ⟨_, since, .ended (.ok (some result)) m', .round task next below⟩ := by
  induction fuel with
  | zero =>
      intro task m m' result next below h
      cases h
  | succ fuel ih =>
      intro task m m' result next below h
      rw [perform] at h
      cases hrun : (task.round setting m).run (perform setting fuel) with
      | timeout =>
          rw [hrun] at h
          cases h
      | ended result' m₁ =>
          have hends : (task.round setting m).Ends setting result' m₁ := ⟨fuel, hrun⟩
          rcases hends.follows m (.round task next below) with ⟨since, hround⟩
          rw [hrun] at h
          rcases result' with fault | _ | result'
          · cases h
          · rcases ih h with ⟨since', hfollows⟩
            exact ⟨since', (hround.tail rfl).trans hfollows⟩
          · cases h
            exact ⟨since, hround⟩

/-- A moment goes on where another one has stopped, unless it is the first. -/
theorem since_eq_head (h : Follows setting a b) :
    b = a ∨ ∃ c, Follows setting a c ∧ c.head = b.since := by
  rcases Relation.ReflTransGen.cases_tail h with heq | ⟨c, hc, hleads⟩
  · exact .inl heq
  · exact .inr ⟨c, hc, hleads.since.symm⟩

end Moment

end Lox
