import Lox.Proofs.Eval.Writes
import Lox.Proofs.Session.Hierarchy

/-!
# Properties follow the writes

A property of an instance is what has been written to it last, in the run at hand or in an earlier one,
and a method of its class if nothing has been written to it. So whatever else has happened since makes
no difference.

* `Run.ReachesAfter` gives the writes of a run up to a machine, and `Run.Wrote` those of the runs
  before.
* `Eval.ReadsAfter` says what a property is after some writes.

Main statement: `Session.History.property_follows_writes`.
-/

namespace Lox

/-- How a property of an instance is read when these writes have been made. -/
def Eval.ReadsAfter (log : List Write) (object : Instance) (name : Ident) (m : Machine)
    (c : Course Value) : Prop :=
  match Write.latest? object name.name log with
  | some value => c = .ended (.ok value) m
  | none => MethodOf object.cls object name m c

theorem Eval.readsAfter_property {setting : Setting} {log : List Write} {m : Machine} {s : Store}
    (h : s.After log m.store) {object : Instance} (name : Ident)
    (hnone : s.field? object name.name = none) :
    ReadsAfter log object name m (property object name setting m) := by
  have hfield := h.field? object name.name
  rw [hnone, Option.or_none] at hfield
  unfold ReadsAfter property
  rw [hfield]
  cases Write.latest? object name.name log with
  | some value => rfl
  | none => exact methodOf_method object.cls object name

/-! ## Runs -/

/-- A machine that a run comes to, and what it has written by then, the latest first. -/
inductive Run.ReachesAfter (r : Run) : List Write → Machine → Prop
  | begun {task : Task} {m : Machine} {log : List Write} :
      r.course.BeginsAfter r.setting log task m → ReachesAfter r log m
  | ended {task : Task} {m m' : Machine} {result : Except Fault task.Result}
      {log log' : List Write} : r.course.BeginsAfter r.setting log task m →
        task.Writes r.setting m log' result m' → ReachesAfter r (log' ++ log) m'
  | done {result : Except Fault Unit} {m : Machine} {log : List Write} :
      r.course.Writes r.setting log result m → ReachesAfter r log m

/-- What runs have written, one after another. -/
inductive Run.Wrote : List Run → List Write → Prop
  | nothing : Wrote [] []
  | run {runs : List Run} {r : Run} {log log' : List Write} {result : Except Fault Unit}
      {m : Machine} : Wrote runs log → r.course.Writes r.setting log' result m →
        Wrote (runs ++ [r]) (log' ++ log)

theorem Run.Wrote.of_nil {log : List Write} (h : Run.Wrote [] log) : log = [] := by
  generalize heq : ([] : List Run) = runs at h
  cases h with
  | nothing => rfl
  | run => simp at heq

theorem Run.Wrote.of_concat {runs : List Run} {r : Run} {log : List Write}
    (h : Run.Wrote (runs ++ [r]) log) : ∃ log₀ log' result m, log = log' ++ log₀ ∧
      Run.Wrote runs log₀ ∧ r.course.Writes r.setting log' result m := by
  generalize heq : runs ++ [r] = runs' at h
  cases h with
  | nothing => simp at heq
  | run hbefore hwrites =>
      rcases List.append_inj' heq rfl with ⟨rfl, hr⟩
      cases hr
      exact ⟨_, _, _, _, rfl, hbefore, hwrites⟩

theorem Run.Reaches.after {r : Run} {m : Machine} (h : r.Reaches m) :
    ∃ log, r.ReachesAfter log m := by
  cases h with
  | begun hbegun =>
      rcases hbegun.after with ⟨log, hafter⟩
      exact ⟨log, .begun hafter⟩
  | ended hbegun hends =>
      rcases hbegun.after with ⟨log, hafter⟩
      rcases hends.writes with ⟨log', hwrites⟩
      exact ⟨_, .ended hafter hwrites⟩
  | done hends =>
      rcases hends.writes with ⟨log, hwrites⟩
      exact ⟨log, .done hwrites⟩

theorem Eval.changes_interpret {setting : Setting} {frame : FrameId} {R : Store → Store → Prop}
    (hR : Store.Lasting R) (ss : List Stmt) : Changes setting R (interpret frame ss) := by
  induction ss with
  | nil => exact .pure hR ()
  | cons s ss ih => exact .bind hR (.request hR _) fun _ => ih

namespace World.Explains

variable {W : World} {r : Run}

/-- An instance that is assigned to has been made. -/
theorem finds (h : W.Explains r) : r.setting.Finds (r.course.Begins r.setting) := by
  intro frame id target name value m m₁ m₂ object v hbegun htarget hvalue
  have htarget' : W.Ended m.store (fun v t => W.Fits t v) (.ok (.instance object)) m₁ :=
    h.after (.inside hbegun .now) htarget
  have hvalue' : W.Ended m₁.store (fun v t => W.Fits t v) (.ok v) m₂ :=
    h.after (.inside hbegun (.later htarget .now)) hvalue
  have hobject : W.InstanceFits m₁.store object := htarget'.2.2 _ rfl
  exact Nat.lt_of_lt_of_le hobject.made hvalue'.2.1.fields

/-- Wherever a run comes to, the fields hold what it has written. -/
theorem written (h : W.Explains r) {log : List Write} {m : Machine}
    (hreaches : r.ReachesAfter log m) : r.machine.store.After log m.store := by
  have hchanges : Eval.Changes r.setting (Store.After [])
      (Eval.interpret r.setting.globals r.statements) := Eval.changes_interpret Store.After.lasting _
  have hclimbs := hchanges r.machine
  have hbegins : ∀ task m, r.course.Begins r.setting task m → r.course.Begins r.setting task m :=
    fun _ _ hbegun => hbegun
  cases hreaches with
  | begun hafter =>
      exact hafter.after r.course.closed_begins h.finds hbegins hclimbs
  | ended hafter hwrites =>
      have hbegun := hafter.after r.course.closed_begins h.finds hbegins hclimbs
      exact hbegun.trans (hwrites.after r.course.closed_begins h.finds hafter.begins)
  | done hwrites =>
      rcases Course.Writes.climb r.course.closed_begins h.finds hwrites
        (fun _ _ hasks => .asked hasks) hclimbs with ⟨t, ht, hlast⟩
      exact ht.trans hlast

end World.Explains

namespace Session

variable {runs : List Run} {s : Session} {clock : Nat → Except String Float} {text : List Char}
  {r : Run}

theorem History.wrote (h : History runs s) {W : World} (hholds : W.Holds runs)
    (hroot : W.root = s.globals) :
    (∃ log, Run.Wrote runs log) ∧ ∀ log, Run.Wrote runs log →
      Session.empty.machine.store.After log s.machine.store := by
  induction h with
  | empty =>
      refine ⟨⟨[], .nothing⟩, ?_⟩
      intro log hlog
      rw [hlog.of_nil]
      exact .refl _
  | resetError _ ih =>
      exact ih hholds hroot
  | @run runs s s' fuel clock text answer hhistory hrun ih =>
      rcases run?_cases hrun with ⟨hnone, rfl⟩ | ⟨r, m, result, hadFault, hsome, hends, rfl⟩
      · rw [hnone, Option.toList_none, List.append_nil] at hholds ⊢
        exact ih hholds hroot
      · rw [hsome, Option.toList_some] at hholds ⊢
        rcases ih hholds.left hroot with ⟨⟨log, hlog⟩, hall⟩
        rcases hends.writes with ⟨log', hwrites⟩
        refine ⟨⟨_, .run hlog hwrites⟩, ?_⟩
        have hexplains : W.Explains r := hhistory.explains hsome hholds hroot
        intro log₁ hlog₁
        rcases hlog₁.of_concat with ⟨log₀, log₂, result', m', rfl, hbefore, hwrites'⟩
        have hafter := hall log₀ hbefore
        rw [← (accepts_of_running? hsome).machine] at hafter
        -- A run ends in one way only, so any of its writes lead to the machine that it has left.
        rcases hwrites'.ends.unique hends with ⟨-, rfl⟩
        have hwritten : r.machine.store.After log₂ m'.store := hexplains.written (.done hwrites')
        exact hafter.trans hwritten

/-- In a session that has run nothing no instance has a field. -/
theorem field?_empty (object : Instance) (name : String) :
    Session.empty.machine.store.field? object name = none :=
  rfl

/-- Where a property is read, in whatever way evaluation has come there, it is what has been written to
it last, in the run at hand or in an earlier one. If nothing has been written to it, it is the method
that the nearest class of the line has under the name, bound to the instance, and if there is none the
property is undefined. Nothing is written but by assignments that succeed, and no instance is written
to before it is made. An instance is told by its number. -/
theorem History.property_follows_writes (h : History runs s)
    (hr : s.running? clock text = some r) :
    (∃ log, Run.Wrote runs log) ∧ (∀ m, r.Reaches m → ∃ log, r.ReachesAfter log m) ∧
      (∀ log log' m, Run.Wrote runs log → r.ReachesAfter log' m →
        (∀ w ∈ log' ++ log, w.object.id < m.store.fields.size) ∧
          ∀ object name, Eval.ReadsAfter (log' ++ log) object name m
            (Eval.property object name r.setting m)) ∧
      (∀ frame id target name m m₁ object, r.Begins (.evaluate frame (.get id target name)) m →
        (Task.evaluate frame target).Ends r.setting m (.ok (.instance object)) m₁ →
          r.Reaches m₁ ∧ ∀ result m', (Eval.property object name).Ends r.setting m₁ result m' →
            (Task.evaluate frame (.get id target name)).Ends r.setting m result m') ∧
      ∀ o o', (∃ r₀ ∈ runs ++ [r], r₀.Meets (.instance o)) →
        (∃ r₀ ∈ runs ++ [r], r₀.Meets (.instance o')) → o.id = o'.id → o = o' := by
  rcases h.wrote (h.holds hr).left rfl with ⟨hwrote, hafter⟩
  refine ⟨hwrote, fun m hreaches => hreaches.after, ?_, ?_, ?_⟩
  · intro log log' m hlog hreaches
    have hbefore := hafter log hlog
    rw [← (accepts_of_running? hr).machine] at hbefore
    have hwritten := hbefore.trans ((h.explains_ofRuns hr).written hreaches)
    exact ⟨hwritten.made, fun object name =>
      Eval.readsAfter_property hwritten name (field?_empty object name.name)⟩
  · intro frame id target name m m₁ object hbegun htarget
    refine ⟨.ended (.inside hbegun .now) htarget, ?_⟩
    intro result m' hproperty
    have hget : (Eval.valueOf frame (.get id target name)).Ends r.setting m result m' :=
      Eval.Ends.bind htarget.request (Eval.Ends.bind ⟨0, rfl⟩ hproperty)
    exact .of_valueOf hget
  · intro o o' ho ho' heq
    rcases h.has_both hr ho ho' with ⟨k, -, hhas, hhas'⟩
    exact Census.HasInstance.unique hhas hhas' heq

/-! ## A field that is set and read -/

/-- The declaration of a class without methods. -/
def settingClass : Stmt :=
  .class ⟨"A", 6, 1⟩ none []

/-- The declaration of a variable for an instance of the class. -/
def settingVar : Stmt :=
  .var ⟨"a", 13, 1⟩ (some (.call ⟨1, 17, 1⟩ (.var ⟨0, "A", 15, 1⟩) []))

/-- The assignment to a field of the instance. -/
def settingSet : Stmt :=
  .expression (.set 5 (.var ⟨2, "a", 19, 1⟩) ⟨"f", 21, 1⟩ (.literal ⟨4, 23, 4⟩ (.boolean true)))

/-- The expression that reads the field. -/
def settingGet : Expr :=
  .get 7 (.var ⟨6, "a", 28, 1⟩) ⟨"f", 30, 1⟩

/-- The run that makes an instance, sets a field of it and reads the field. -/
def settingRun : Run :=
  ⟨⟨[], 0, fun _ => .error "no clock"⟩, Session.empty.machine,
    [settingClass, settingVar, settingSet, .expression settingGet]⟩

theorem running?_settingRun :
    Session.empty.running? (fun _ => .error "no clock")
      "class A\x7b\x7dvar a=A();a.f=true;a.f;".toList = some settingRun := by
  with_unfolding_all rfl

/-- The class that the declaration makes. -/
def settingValue : Class :=
  .root 1 "A" []

/-- The machine after the assignment. -/
def settingMachine : Machine :=
  machineOf #[⟨[], [("clock", .native 0), ("A", .class settingValue),
    ("a", .instance ⟨0, settingValue⟩)]⟩] #[[("f", .boolean true)]] 2 0

theorem begins_settingGet : settingRun.Begins (.evaluate 0 settingGet) settingMachine := by
  have hclass : Task.Ends settingRun.setting (.execute 0 settingClass) Session.empty.machine
      (.ok .normal)
      (machineOf #[⟨[], [("clock", .native 0), ("A", .class settingValue)]⟩] #[] 2 0) :=
    ⟨2, rfl⟩
  have hvar : Task.Ends settingRun.setting (.execute 0 settingVar)
      (machineOf #[⟨[], [("clock", .native 0), ("A", .class settingValue)]⟩] #[] 2 0) (.ok .normal)
      (machineOf #[⟨[], [("clock", .native 0), ("A", .class settingValue),
        ("a", .instance ⟨0, settingValue⟩)]⟩] #[[]] 2 0) :=
    ⟨4, rfl⟩
  have hset : Task.Ends settingRun.setting (.execute 0 settingSet)
      (machineOf #[⟨[], [("clock", .native 0), ("A", .class settingValue),
        ("a", .instance ⟨0, settingValue⟩)]⟩] #[[]] 2 0) (.ok .normal) settingMachine :=
    ⟨4, rfl⟩
  have hstatement : settingRun.Begins (.execute 0 (.expression settingGet)) settingMachine :=
    .asked (.later hclass (.later hvar (.later hset .now)))
  exact .inside hstatement .now

/-- Where the field is read, the value has been written to it last. -/
theorem property_follows_writes_settingRun :
    ∃ log, settingRun.ReachesAfter log settingMachine ∧
      Write.latest? ⟨0, settingValue⟩ "f" log = some (.boolean true) := by
  rcases History.empty.property_follows_writes running?_settingRun with ⟨-, hreaches, hreads, -, -⟩
  rcases hreaches settingMachine (.begun begins_settingGet) with ⟨log, hlog⟩
  refine ⟨log, hlog, ?_⟩
  have hread := (hreads [] log settingMachine .nothing hlog).2 ⟨0, settingValue⟩ ⟨"f", 30, 1⟩
  have hfield : Eval.property ⟨0, settingValue⟩ ⟨"f", 30, 1⟩ settingRun.setting settingMachine =
      .ended (.ok (.boolean true)) settingMachine :=
    rfl
  rw [hfield, List.append_nil] at hread
  unfold Eval.ReadsAfter at hread
  cases hlatest : Write.latest? ⟨0, settingValue⟩ "f" log with
  | some value =>
      rw [hlatest] at hread
      cases hread
      rfl
  | none =>
      rw [hlatest] at hread
      cases hread

end Session

end Lox
