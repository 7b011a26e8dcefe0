import Lox.Proofs.Eval.Lasting
import Lox.Proofs.Eval.Timeline

/-!
# What is written to fields

An assignment to a field writes when its instance and its value have been got. Nothing else writes: no
call, no declaration, no assignment that fails. What a field holds is thus told by the writes that
have been made so far.

* `Course.Writes` gives the writes of a course that ends, and `Course.BeginsAfter` those that have been
  made when a round of a task is begun.
* `Store.After` says what the fields hold after some writes.

Main statements: `Course.Writes.climb` and `Course.BeginsAfter.after`.
-/

namespace Lox

variable {α : Type} {setting : Setting}

/-- A value that is written to a field of an instance. -/
structure Write where
  object : Instance
  name : String
  value : Value

namespace Write

/-- The latest value that has been written to a field of an instance. The latest writes come first. -/
def latest? (object : Instance) (name : String) : List Write → Option Value
  | [] => none
  | w :: log => if w.object.id = object.id ∧ w.name = name then some w.value else latest? object name log

theorem latest?_append (object : Instance) (name : String) (log log' : List Write) :
    latest? object name (log ++ log') = (latest? object name log).or (latest? object name log') := by
  induction log with
  | nil => rfl
  | cons w log ih =>
      rw [List.cons_append, latest?, latest?]
      split
      · rfl
      · exact ih

end Write

/-! ## The writes of a run -/

/-- A course ends in `r` and leaves a machine, and on the way these writes have been made, the latest
first. -/
inductive Course.Writes (setting : Setting) :
    {α : Type} → Course α → List Write → Except Fault α → Machine → Prop
  | ended {α : Type} {r : Except Fault α} {m : Machine} : Writes setting (.ended r m) [] r m
  /-- A task that does not assign to a field writes what its last round does. -/
  | result {α : Type} {task : Task} {m m₁ m' : Machine}
      {next : Except Fault task.Result → Machine → Course α} {a : task.Result} {r : Except Fault α}
      {log log' : List Write} : ¬task.SetsField →
      Writes setting (task.round setting m) log (.ok (some a)) m₁ →
        Writes setting (next (.ok a) m₁) log' r m' →
          Writes setting (.ask task m next) (log' ++ log) r m'
  /-- An assignment to a field writes the value after all that its operands have written. -/
  | set {α : Type} {frame : FrameId} {id : Nat} {target value : Expr} {name : Ident}
      {m m₁ m₂ m' : Machine} {next : Except Fault Value → Machine → Course α} {object : Instance}
      {v : Value} {r : Except Fault α} {log log₁ log₂ : List Write} :
      Writes setting (.ask (.evaluate frame target) m .ended) log (.ok (.instance object)) m₁ →
        Writes setting (.ask (.evaluate frame value) m₁ .ended) log₁ (.ok v) m₂ →
          Writes setting
            (next (.ok v) { m₂ with store := m₂.store.setField object name.name v }) log₂ r m' →
            Writes setting (.ask (.evaluate frame (.set id target name value)) m next)
              (log₂ ++ ⟨object, name.name, v⟩ :: (log₁ ++ log)) r m'
  /-- A task that fails writes what its last round does, also if it would assign to a field. -/
  | fault {α : Type} {task : Task} {m m₁ m' : Machine}
      {next : Except Fault task.Result → Machine → Course α} {fault : Fault} {r : Except Fault α}
      {log log' : List Write} :
      Writes setting (task.round setting m) log (.error fault) m₁ →
        Writes setting (next (.error fault) m₁) log' r m' →
          Writes setting (.ask task m next) (log' ++ log) r m'
  /-- A loop that goes round once more writes in the next rounds as well. -/
  | again {α : Type} {task : Task} {m m₁ m' : Machine}
      {next : Except Fault task.Result → Machine → Course α} {r : Except Fault α}
      {log log' : List Write} :
      Writes setting (task.round setting m) log (.ok none) m₁ →
        Writes setting (.ask task m₁ next) log' r m' →
          Writes setting (.ask task m next) (log' ++ log) r m'

/-- A task ends, and these writes have been made. -/
def Task.Writes (setting : Setting) (task : Task) (m : Machine) (log : List Write)
    (r : Except Fault task.Result) (m' : Machine) : Prop :=
  (Eval.request task setting m).Writes setting log r m'

/-- A course asks for a task on a machine, when these writes have been made. -/
inductive Course.AsksAfter (setting : Setting) : Course α → List Write → Task → Machine → Prop
  | now {task : Task} {m : Machine} {next : Except Fault task.Result → Machine → Course α} :
      AsksAfter setting (.ask task m next) [] task m
  | later {task task' : Task} {m m' m'' : Machine}
      {next : Except Fault task.Result → Machine → Course α} {r : Except Fault task.Result}
      {log log' : List Write} : task.Writes setting m log r m' →
        AsksAfter setting (next r m') log' task' m'' →
          AsksAfter setting (.ask task m next) (log' ++ log) task' m''

/-- A round of a task is begun in a course, when these writes have been made. -/
inductive Course.BeginsAfter (setting : Setting) (c : Course α) : List Write → Task → Machine → Prop
  | asked {task : Task} {m : Machine} {log : List Write} :
      c.AsksAfter setting log task m → BeginsAfter setting c log task m
  | inside {task task' : Task} {m m' : Machine} {log log' : List Write} :
      BeginsAfter setting c log task m → (task.round setting m).AsksAfter setting log' task' m' →
        BeginsAfter setting c (log' ++ log) task' m'
  | again {task : Task} {m m' : Machine} {log log' : List Write} :
      BeginsAfter setting c log task m →
        (task.round setting m).Writes setting log' (.ok none) m' →
          BeginsAfter setting c (log' ++ log) task m'

/-! ## Every run writes something -/

theorem Eval.run_set {answer : (task : Task) → Machine → Outcome task.Result} {frame : FrameId}
    {id : Nat} {target value : Expr} {name : Ident} {m m' : Machine} {v : Value}
    (h : ((Task.evaluate frame (.set id target name value)).round setting m).run answer =
      .ended (.ok (some v)) m') :
    ∃ object m₁ m₂, answer (.evaluate frame target) m = .ended (.ok (.instance object)) m₁ ∧
      answer (.evaluate frame value) m₁ = .ended (.ok v) m₂ ∧
        m' = { m₂ with store := m₂.store.setField object name.name v } := by
  change Course.run answer (.ask _ m _) = _ at h
  rw [Course.run] at h
  cases htarget : answer (.evaluate frame target) m with
  | timeout =>
      rw [htarget] at h
      cases h
  | ended r m₁ =>
      rw [htarget] at h
      rcases r with fault | v₁
      · cases h
      cases v₁ with
      | «instance» object =>
          change Course.run answer (.ask _ m₁ _) = _ at h
          rw [Course.run] at h
          cases hvalue : answer (.evaluate frame value) m₁ with
          | timeout =>
              rw [hvalue] at h
              cases h
          | ended r m₂ =>
              rw [hvalue] at h
              rcases r with fault | v₂
              · cases h
              · cases h
                exact ⟨object, m₁, m₂, rfl, hvalue, rfl⟩
      | _ => cases h

/-- What is written by a course, if it is known for the tasks that it asks for. -/
theorem Course.exists_writes {fuel : Nat}
    (hask : ∀ {α : Type} {task : Task} {m m₁ m' : Machine} {r₁ : Except Fault task.Result}
      {next : Except Fault task.Result → Machine → Course α} {r : Except Fault α} {log : List Write},
      perform setting fuel task m = .ended r₁ m₁ → (next r₁ m₁).Writes setting log r m' →
        ∃ log', (Course.ask task m next).Writes setting log' r m')
    {c : Course α} {r : Except Fault α} {m : Machine}
    (h : c.run (perform setting fuel) = .ended r m) : ∃ log, c.Writes setting log r m := by
  induction c with
  | ended r' m' =>
      cases h
      exact ⟨[], .ended⟩
  | ask task m₀ next ih =>
      rw [Course.run] at h
      cases hanswer : perform setting fuel task m₀ with
      | timeout =>
          rw [hanswer] at h
          cases h
      | ended r₁ m₁ =>
          rw [hanswer] at h
          rcases ih r₁ m₁ h with ⟨log, hwrites⟩
          exact hask hanswer hwrites

theorem Course.exists_writes_ask {fuel : Nat} : ∀ {α : Type} {task : Task} {m m₁ m' : Machine}
    {r₁ : Except Fault task.Result} {next : Except Fault task.Result → Machine → Course α}
    {r : Except Fault α} {log : List Write}, perform setting fuel task m = .ended r₁ m₁ →
      (next r₁ m₁).Writes setting log r m' →
        ∃ log', (Course.ask task m next).Writes setting log' r m' := by
  -- A round runs on less fuel than its task, so what its own questions write is known by induction.
  induction fuel with
  | zero =>
      intro α task m m₁ m' r₁ next r log h
      cases h
  | succ fuel ih =>
      intro α task m m₁ m' r₁ next r log h hnext
      rw [perform] at h
      cases hrun : (task.round setting m).run (perform setting fuel) with
      | timeout =>
          rw [hrun] at h
          cases h
      | ended result m₂ =>
          rcases exists_writes ih hrun with ⟨log', hround⟩
          rw [hrun] at h
          rcases result with fault | _ | a
          · cases h
            exact ⟨_, .fault hround hnext⟩
          · rcases ih h hnext with ⟨log'', hagain⟩
            exact ⟨_, .again hround hagain⟩
          · cases h
            by_cases hset : task.SetsField
            · cases task with
              | execute frame s => exact absurd hset id
              | evaluate frame e =>
                  cases e with
                  | set id target name value =>
                      -- The round of an assignment is told by its operands: the write itself is not
                      -- a question.
                      rcases Eval.run_set hrun with ⟨object, m₃, m₄, htarget, hvalue, rfl⟩
                      have hfirst : ∃ log, (Task.evaluate frame target).Writes setting m log
                          (.ok (.instance object)) m₃ := ih htarget .ended
                      have hsecond : ∃ log, (Task.evaluate frame value).Writes setting m₃ log
                          (.ok a) m₄ := ih hvalue .ended
                      rcases hfirst with ⟨log₁, h₁⟩
                      rcases hsecond with ⟨log₂, h₂⟩
                      exact ⟨_, .set h₁ h₂ hnext⟩
                  | _ => exact absurd hset id
            · exact ⟨_, .result hset hround hnext⟩

/-- Every course that ends has written something, if only nothing. -/
theorem Course.Ends.writes {c : Course α} {r : Except Fault α} {m : Machine}
    (h : c.Ends setting r m) : ∃ log, c.Writes setting log r m := by
  rcases h with ⟨fuel, hrun⟩
  exact exists_writes exists_writes_ask hrun

theorem Task.Ends.writes {task : Task} {m m' : Machine} {r : Except Fault task.Result}
    (h : task.Ends setting m r m') : ∃ log, task.Writes setting m log r m' :=
  Course.Ends.writes h.request

theorem Course.Asks.after {c : Course α} {task : Task} {m : Machine} (h : c.Asks setting task m) :
    ∃ log, c.AsksAfter setting log task m := by
  induction h with
  | now =>
      exact ⟨[], .now⟩
  | later hends _ ih =>
      rcases hends.writes with ⟨log, hwrites⟩
      rcases ih with ⟨log', hasks⟩
      exact ⟨_, .later hwrites hasks⟩

theorem Course.Begins.after {c : Course α} {task : Task} {m : Machine}
    (h : c.Begins setting task m) : ∃ log, c.BeginsAfter setting log task m := by
  induction h with
  | asked hasks =>
      rcases hasks.after with ⟨log, hafter⟩
      exact ⟨log, .asked hafter⟩
  | inside _ hasks ih =>
      rcases ih with ⟨log, hbegins⟩
      rcases hasks.after with ⟨log', hafter⟩
      exact ⟨_, .inside hbegins hafter⟩
  | again _ hround ih =>
      rcases ih with ⟨log, hbegins⟩
      rcases Course.Ends.writes hround with ⟨log', hwrites⟩
      exact ⟨_, .again hbegins hwrites⟩

/-! ## What is written is what happens -/

theorem Course.Ends.of_ask {task : Task} {m m' : Machine}
    {next : Except Fault task.Result → Machine → Course α} {r : Except Fault α}
    (h : (Course.ask task m next).Ends setting r m') :
    ∃ r₁ m₁, task.Ends setting m r₁ m₁ ∧ (next r₁ m₁).Ends setting r m' := by
  rcases h with ⟨fuel, hrun⟩
  rw [Course.run] at hrun
  cases hanswer : perform setting fuel task m with
  | timeout =>
      rw [hanswer] at hrun
      cases hrun
  | ended r₁ m₁ =>
      rw [hanswer] at hrun
      exact ⟨r₁, m₁, ⟨fuel, hanswer⟩, fuel, hrun⟩

/-- An assignment to a field ends when its operands have ended. -/
theorem Task.Ends.set {frame : FrameId} {id : Nat} {target value : Expr} {name : Ident}
    {object : Instance} {v : Value} {m m₁ m₂ : Machine}
    (htarget : (Task.evaluate frame target).Ends setting m (.ok (.instance object)) m₁)
    (hvalue : (Task.evaluate frame value).Ends setting m₁ (.ok v) m₂) :
    (Task.evaluate frame (.set id target name value)).Ends setting m (.ok v)
      { m₂ with store := m₂.store.setField object name.name v } := by
  refine .of_round ?_
  have hset : (Eval.valueOf frame (.set id target name value)).Ends setting m (.ok v)
      { m₂ with store := m₂.store.setField object name.name v } :=
    Eval.Ends.bind htarget.request (Eval.Ends.bind ⟨0, rfl⟩ (Eval.Ends.bind hvalue.request ⟨0, rfl⟩))
  exact Eval.Ends.bind hset ⟨0, rfl⟩

/-- A course ends as is said where its writes are told. -/
theorem Course.Writes.ends {c : Course α} {log : List Write} {r : Except Fault α} {m : Machine}
    (h : c.Writes setting log r m) : c.Ends setting r m := by
  induction h with
  | ended => exact ⟨0, rfl⟩
  | result _ _ _ ihround ihnext => exact Task.Ends.ask (.of_round ihround) ihnext
  | set _ _ _ ihtarget ihvalue ihnext =>
      exact Task.Ends.ask (Task.Ends.set (.of_request ihtarget) (.of_request ihvalue)) ihnext
  | fault _ _ ihround ihnext => exact Task.Ends.ask (.of_round_error ihround) ihnext
  | again _ _ ihround ihagain =>
      rcases ihagain.of_ask with ⟨r₁, m₁, htask, hnext⟩
      exact Task.Ends.ask (Task.Ends.again ihround htask) hnext

theorem Task.Writes.ends {task : Task} {m m' : Machine} {log : List Write}
    {r : Except Fault task.Result} (h : task.Writes setting m log r m') :
    task.Ends setting m r m' :=
  .of_request (Course.Writes.ends h)

theorem Course.AsksAfter.asks {c : Course α} {log : List Write} {task : Task} {m : Machine}
    (h : c.AsksAfter setting log task m) : c.Asks setting task m := by
  induction h with
  | now => exact .now
  | later hwrites _ ih => exact .later hwrites.ends ih

theorem Course.BeginsAfter.begins {c : Course α} {log : List Write} {task : Task} {m : Machine}
    (h : c.BeginsAfter setting log task m) : c.Begins setting task m := by
  induction h with
  | asked hasks => exact .asked hasks.asks
  | inside _ hasks ih => exact .inside ih hasks.asks
  | again _ hround ih => exact .again ih hround.ends

/-! ## What fields hold -/

/-- A field holds what has been written to it last, or what it has held before. The instances that have
been written to are there, and none has been taken away. -/
structure Store.After (log : List Write) (s t : Store) : Prop where
  field? : ∀ object name,
    t.field? object name = (Write.latest? object name log).or (s.field? object name)
  size : s.fields.size ≤ t.fields.size
  made : ∀ w ∈ log, w.object.id < t.fields.size

namespace Store.After

variable {s t u : Store} {log log' : List Write}

theorem refl (s : Store) : After [] s s :=
  ⟨fun _ _ => rfl, Nat.le_refl _, fun _ hw => nomatch hw⟩

theorem trans (hst : After log s t) (htu : After log' t u) : After (log' ++ log) s u := by
  refine ⟨?_, Nat.le_trans hst.size htu.size, ?_⟩
  · intro object name
    rw [htu.field?, hst.field?, Write.latest?_append, Option.or_assoc]
  · intro w hw
    rcases List.mem_append.mp hw with hw | hw
    · exact htu.made w hw
    · exact Nat.lt_of_lt_of_le (hst.made w hw) htu.size

theorem before (hst : After [] s t) (htu : After log t u) : After log s u := by
  have h := hst.trans htu
  rwa [List.append_nil] at h

theorem lasting : Lasting (After []) where
  refl := refl
  trans _ _ _ hst htu := hst.trans htu
  define _ _ _ _ := ⟨fun _ _ => rfl, Nat.le_refl _, fun _ hw => nomatch hw⟩
  addFrame _ _ := ⟨fun _ _ => rfl, Nat.le_refl _, fun _ hw => nomatch hw⟩
  fresh _ := ⟨fun _ _ => rfl, Nat.le_refl _, fun _ hw => nomatch hw⟩
  newInstance _ _ := ⟨fun _ _ => field?_newInstance, by simp [newInstance], fun _ hw => nomatch hw⟩

theorem setField {object : Instance} (name : String) (v : Value)
    (hobject : object.id < s.fields.size) :
    After [⟨object, name, v⟩] s (s.setField object name v) := by
  refine ⟨?_, by simp [Store.setField], by simpa [Store.setField] using hobject⟩
  intro other otherName
  rw [field?_setField, Write.latest?, Write.latest?]
  by_cases hsame : object.id = other.id ∧ name = otherName
  · rw [if_pos hsame, if_pos ⟨hsame.1, hobject, hsame.2⟩]
    rfl
  · rw [if_neg hsame, if_neg fun h => hsame ⟨h.1, h.2.2⟩]
    rfl

end Store.After

theorem Task.climbs_request (setting : Setting) (task : Task) (m : Machine) :
    (Eval.request task setting m).Climbs (Store.After []) (fun s _ t => s.After [] t) m.store :=
  ⟨.refl m.store, fun _ m' => .refl m'.store⟩

/-- Wherever an assignment to a field of an instance is begun, the instance is there when its value has
been got. -/
def Setting.Finds (setting : Setting) (B : Task → Machine → Prop) : Prop :=
  ∀ {frame id target name value m m₁ m₂ object v},
    B (.evaluate frame (.set id target name value)) m →
      (Task.evaluate frame target).Ends setting m (.ok (.instance object)) m₁ →
        (Task.evaluate frame value).Ends setting m₁ (.ok v) m₂ → object.id < m₂.store.fields.size

section

variable {B : Task → Machine → Prop}

/-- A question for a task is a question for that task only. -/
theorem Task.asks_request {task : Task} {m : Machine} (hB : B task m) (task' : Task) (m' : Machine)
    (h : (Eval.request task setting m).Asks setting task' m') : B task' m' := by
  cases h with
  | now => exact hB
  | later _ h => cases h

variable (hclosed : Closed setting B) (hfinds : setting.Finds B)

include hclosed hfinds

/-- Up to where a course goes on to its end, the fields hold what has been written. -/
theorem Course.Writes.climb {c : Course α} {log : List Write} {r : Except Fault α} {m' : Machine}
    (h : c.Writes setting log r m') : ∀ {s : Store} {E : Store → Except Fault α → Store → Prop},
      (∀ task m, c.Asks setting task m → B task m) → c.Climbs (Store.After []) E s →
        ∃ t, s.After log t ∧ E t r m'.store := by
  -- `E` is what the course says of the store it leaves. It goes through the induction unchanged, since
  -- only the last step of a course speaks of it.
  induction h with
  | ended =>
      intro s E _ hc
      exact ⟨s, .refl s, hc⟩
  | @result _ task m m₁ m' next a r log log' hset hround _ ihround ihnext =>
      intro s E hasks hc
      have hends : task.Ends setting m (.ok a) m₁ := .of_round hround.ends
      rcases ihround (fun _ _ h => hclosed.inside (hasks task m .now) h)
        (Task.climbs_round Store.After.lasting setting task m) with ⟨t, ht, hlast⟩
      rcases ihnext (fun _ _ h => hasks _ _ (.later hends h)) (hc.2 (.ok a) m₁) with ⟨u, hu, hE⟩
      have hround : s.After log m₁.store := (hc.1.before ht).trans (hlast fun _ _ => hset)
      exact ⟨u, hround.trans hu, hE⟩
  | @set _ frame id target value name m m₁ m₂ m' next object v r log log₁ log₂ htarget hvalue _ ihtarget
      ihvalue ihnext =>
      intro s E hasks hc
      have hB := hasks _ _ .now
      have htarget' : (Task.evaluate frame target).Ends setting m (.ok (.instance object)) m₁ :=
        Task.Writes.ends htarget
      have hvalue' : (Task.evaluate frame value).Ends setting m₁ (.ok v) m₂ :=
        Task.Writes.ends hvalue
      rcases ihtarget (Task.asks_request (hclosed.inside hB .now))
        (Task.climbs_request setting (.evaluate frame target) m) with ⟨t, ht, hlast⟩
      rcases ihvalue (Task.asks_request (hclosed.inside hB (.later htarget' .now)))
        (Task.climbs_request setting (.evaluate frame value) m₁) with ⟨t₁, ht₁, hlast₁⟩
      have hset : (Task.evaluate frame (.set id target name value)).Ends setting m (.ok v)
          { m₂ with store := m₂.store.setField object name.name v } :=
        htarget'.set hvalue'
      rcases ihnext (fun _ _ h => hasks _ _ (.later hset h)) (hc.2 _ _) with ⟨u, hu, hE⟩
      have hwritten : m₂.store.After [⟨object, name.name, v⟩] (m₂.store.setField object name.name v) :=
        .setField name.name v (hfinds hB htarget' hvalue')
      have hoperands : s.After (log₁ ++ log) m₂.store :=
        ((hc.1.before ht).trans hlast).trans (ht₁.trans hlast₁)
      have hround := (hoperands.trans hwritten).trans hu
      exact ⟨u, hround, hE⟩
  | @fault _ task m m₁ m' next fault r log log' hround _ ihround ihnext =>
      intro s E hasks hc
      have hends : task.Ends setting m (.error fault) m₁ := .of_round_error hround.ends
      rcases ihround (fun _ _ h => hclosed.inside (hasks task m .now) h)
        (Task.climbs_round Store.After.lasting setting task m) with ⟨t, ht, hlast⟩
      rcases ihnext (fun _ _ h => hasks _ _ (.later hends h)) (hc.2 _ m₁) with ⟨u, hu, hE⟩
      have hround : s.After log m₁.store :=
        (hc.1.before ht).trans (hlast fun _ heq => nomatch heq)
      exact ⟨u, hround.trans hu, hE⟩
  | @again _ task m m₁ m' next r log log' hround _ ihround ihagain =>
      intro s E hasks hc
      have hB := hasks task m .now
      rcases ihround (fun _ _ h => hclosed.inside hB h)
        (Task.climbs_round Store.After.lasting setting task m) with ⟨t, ht, hlast⟩
      -- The next round begins the same task, on the machine that this one has left.
      have hasks' : ∀ task' m'', (Course.ask task m₁ next).Asks setting task' m'' → B task' m'' := by
        intro task' m'' h
        cases h with
        | now => exact hclosed.again hB hround.ends
        | later hends h => exact hasks _ _ (.later (Task.Ends.again hround.ends hends) h)
      rcases ihagain hasks' ⟨.refl _, hc.2⟩ with ⟨u, hu, hE⟩
      have hround : s.After log m₁.store :=
        (hc.1.before ht).trans (hlast fun _ heq => nomatch heq)
      exact ⟨u, hround.trans hu, hE⟩

/-- After a task the fields hold what it has written. -/
theorem Task.Writes.after {task : Task} {m m' : Machine} {log : List Write}
    {r : Except Fault task.Result} (h : task.Writes setting m log r m') (hB : B task m) :
    m.store.After log m'.store := by
  rcases Course.Writes.climb hclosed hfinds h (Task.asks_request hB)
    (Task.climbs_request setting task m) with
    ⟨t, ht, hlast⟩
  exact ht.trans hlast

theorem Course.AsksAfter.after {c : Course α} {log : List Write} {task : Task} {m : Machine}
    (h : c.AsksAfter setting log task m) :
    ∀ {s : Store} {E : Store → Except Fault α → Store → Prop},
      (∀ task m, c.Asks setting task m → B task m) → c.Climbs (Store.After []) E s →
        s.After log m.store := by
  induction h with
  | now =>
      intro s E _ hc
      exact hc.1
  | later hwrites _ ih =>
      intro s E hasks hc
      have htask := Task.Writes.after hclosed hfinds hwrites (hasks _ _ .now)
      have hrest := ih (fun _ _ h => hasks _ _ (.later hwrites.ends h)) (hc.2 _ _)
      exact (hc.1.before htask).trans hrest

/-- Where a round of a task is begun, the fields hold what has been written up to then. -/
theorem Course.BeginsAfter.after {c : Course α} {log : List Write} {task : Task} {m : Machine}
    (h : c.BeginsAfter setting log task m) {s : Store} {E : Store → Except Fault α → Store → Prop}
    (hbegins : ∀ task m, c.Begins setting task m → B task m) (hc : c.Climbs (Store.After []) E s) :
    s.After log m.store := by
  have hround : ∀ {task : Task} {m : Machine}, B task m →
      ∀ task' m', (task.round setting m).Asks setting task' m' → B task' m' :=
    fun hB _ _ hasks => hclosed.inside hB hasks
  induction h with
  | asked hasks =>
      exact hasks.after hclosed hfinds (fun _ _ h => hbegins _ _ (.asked h)) hc
  | inside hbegun hasks ih =>
      exact ih.trans (hasks.after hclosed hfinds (hround (hbegins _ _ hbegun.begins))
        (Task.climbs_round Store.After.lasting _ _ _))
  | again hbegun hwrites ih =>
      rcases Course.Writes.climb hclosed hfinds hwrites (hround (hbegins _ _ hbegun.begins))
        (Task.climbs_round Store.After.lasting _ _ _) with ⟨t, ht, hlast⟩
      have hagain := ht.trans (hlast fun _ heq => nomatch heq)
      exact ih.trans hagain

end

end Lox
