import Lox.Proofs.Eval.Names
import Lox.Proofs.Session.Receiver

/-!
# Names follow declarations

In a session names are bound only where they are declared. While a task is done, of the frames that are
there only its own gains a name, and only the one that the task declares. Expressions, blocks and loops
declare nothing, so nothing that runs in them, or in a call, binds a name in a frame around them or in
the global one. No step of a run takes a name from a frame.

Main statement: `Session.History.names_follow_declarations`.
-/

namespace Lox

/-- What a task declares is one name at most where branches declare nothing. -/
theorem World.declarations_of_before {W : World} {task : Task} {m : Machine}
    (h : W.contract.before task m) : task.declarations = task.declared := by
  cases task with
  | evaluate frame e =>
      rfl
  | execute frame s =>
      rcases h with ⟨-, owner, scopes, -, hsound, -⟩
      rw [Task.declarations, Task.declared, Stmt.declared,
        Stmt.declarations_of_plain s hsound.sound.plain, Option.toList_map]

/-- The global frame is there when a task is begun, and so are the frames around that of the task. -/
theorem World.lt_size_of_before {W : World} {task : Task} {m : Machine}
    (h : W.contract.before task m) :
    W.root < m.store.frames.size ∧ ∀ g ∈ m.store.chain task.frame, g < m.store.frames.size := by
  cases task with
  | evaluate frame e =>
      rcases h with ⟨hfits, owner, scopes, -, hstands⟩
      exact ⟨hfits.root.inside, fun g hg => (hfits.nested frame hstands.frames.inside g hg).1⟩
  | execute frame s =>
      rcases h with ⟨hfits, owner, scopes, -, -, hhosts⟩
      exact ⟨hfits.root.inside, fun g hg => (hfits.nested frame hhosts.frames.inside g hg).1⟩

/-- No frame loses a name from one moment of a run to the end of what is done at a later one. -/
theorem World.Explains.kept_names {W : World} {r : Run} (h : W.Explains r) {a b : Moment Unit}
    (ha : Moment.Follows r.setting (r.course.start r.machine) a)
    (hfollows : Moment.Follows r.setting a b) {g : FrameId} {name : String}
    (hname : name ∈ a.since.store.names g) : name ∈ b.head.store.names g := by
  have hgrowth : Growth a.since b.head :=
    .trans _ _ _ (h.since ha hfollows) (h.since_head (ha.trans hfollows))
  rw [Store.mem_names_iff] at hname ⊢
  exact hgrowth.bound g name hname

namespace Session

variable {runs : List Run} {s : Session} {clock : Nat → Except String Float} {text : List Char}
  {r : Run}

/-- A statement that has come to its end has bound the name that it declares. -/
theorem History.binds_declared (h : History runs s) (hr : s.running? clock text = some r)
    {frame : FrameId} {stmt : Stmt} {m m' : Machine} (hbegun : r.Begins (.execute frame stmt) m)
    (hends : (Task.execute frame stmt).Ends r.setting m (.ok .normal) m') :
    ∀ name ∈ stmt.declared, name ∈ m'.store.names frame := by
  rcases h.after hr hbegun hends with ⟨-, -, hflow⟩
  intro name hname
  rcases Option.map_eq_some_iff.mp (Option.mem_toList.mp hname) with ⟨ident, hident, rfl⟩
  rw [Store.mem_names_iff]
  exact hflow .normal rfl ident hident

/-- Whatever is done, on whatever machine, of the frames that were there only the one that it is done
in gains names, and only those that are declared by it: wherever it comes to, and however it ends, all
others bind the names that they bound before, and so does that one if nothing is declared. In a run a
task declares one name at most, and the global frame and the frames around that of the task are there
when it is begun. A statement that comes to its end has bound the name that it declares. No frame loses
a name from any moment of a run to a later one. -/
theorem History.names_follow_declarations (h : History runs s)
    (hr : s.running? clock text = some r) :
    (∀ (task : Task) (m m' : Machine), task.Reaches r.setting m m' →
      m.store.Extends m'.store task.frame task.declarations ∧
        ∀ g < m.store.frames.size, g ≠ task.frame ∨ task.declarations = [] →
          ∀ name, name ∈ m'.store.names g ↔ name ∈ m.store.names g) ∧
    (∀ task m, r.Begins task m →
      task.declarations = task.declared ∧ r.setting.globals < m.store.frames.size ∧
        ∀ g ∈ m.store.chain task.frame, g < m.store.frames.size) ∧
    (∀ frame stmt m m', r.Begins (.execute frame stmt) m →
      (Task.execute frame stmt).Ends r.setting m (.ok .normal) m' →
        ∀ name ∈ stmt.declared, name ∈ m'.store.names frame) ∧
    ∀ a b, Moment.Follows r.setting (r.course.start r.machine) a → Moment.Follows r.setting a b →
      ∀ g, ∀ name ∈ a.since.store.names g, name ∈ b.head.store.names g := by
  refine ⟨?_, ?_, fun _ _ _ _ => h.binds_declared hr, ?_⟩
  · intro task m m' hreaches
    exact ⟨hreaches.extends, fun g hg hother name => hreaches.extends.mem_names_iff hg hother⟩
  · intro task m hbegun
    have hbefore := h.before hr hbegun
    refine ⟨World.declarations_of_before hbefore, ?_⟩
    rw [(accepts_of_running? hr).globals]
    exact World.lt_size_of_before hbefore
  · intro a b ha hfollows g name hname
    exact (h.explains_ofRuns hr).kept_names ha hfollows hname

/-! ## A function with a variable of its own -/

/-- A function that declares a variable. -/
def housingFunction : FunctionDecl :=
  ⟨⟨"f", 4, 1⟩, [], [.var ⟨"a", 12, 1⟩ none]⟩

/-- The call of the function. -/
def housingCall : Expr :=
  .call ⟨1, 17, 1⟩ (.var ⟨0, "f", 15, 1⟩) []

/-- The run of the function and of the call. -/
def housingRun : Run :=
  ⟨⟨[], 0, fun _ => .error "no clock"⟩, Session.empty.machine,
    [.function housingFunction, .expression housingCall]⟩

theorem running?_housingRun :
    Session.empty.running? (fun _ => .error "no clock") "fun f()\x7bvar a;\x7df();".toList =
      some housingRun := by
  with_unfolding_all rfl

/-- The machine on which the function is called. -/
def housingMachine : Machine :=
  machineOf #[⟨[], [("clock", .native 0), ("f", .function 1 ⟨housingFunction, 0, false⟩)]⟩] #[] 2 0

/-- The machine after the call. -/
def housedMachine : Machine :=
  machineOf #[⟨[], [("clock", .native 0), ("f", .function 1 ⟨housingFunction, 0, false⟩)]⟩,
    ⟨[0], [("a", .nil)]⟩] #[] 2 0

theorem names_follow_declarations_housingRun :
    "f" ∈ housingMachine.store.names 0 ∧
      (Task.evaluate 0 housingCall).Ends housingRun.setting housingMachine (.ok .nil)
        housedMachine ∧
      "a" ∈ housedMachine.store.names 1 ∧
      ∀ name, name ∈ housedMachine.store.names 0 ↔ name ∈ housingMachine.store.names 0 := by
  have hfunction : Task.Ends housingRun.setting (.execute 0 (.function housingFunction))
      Session.empty.machine (.ok .normal) housingMachine :=
    ⟨2, rfl⟩
  have hbegun : housingRun.Begins (.evaluate 0 housingCall) housingMachine := by
    have hstatement : housingRun.Begins (.execute 0 (.expression housingCall)) housingMachine :=
      .asked (.later hfunction .now)
    exact .inside hstatement .now
  have hends : (Task.evaluate 0 housingCall).Ends housingRun.setting housingMachine (.ok .nil)
      housedMachine :=
    ⟨3, rfl⟩
  rcases History.empty.names_follow_declarations running?_housingRun with
    ⟨hreached, hbegins, hbinds, -⟩
  have hglobal : 0 < housingMachine.store.frames.size := (hbegins _ _ hbegun).2.1
  exact ⟨hbinds _ _ _ _ (.asked .now) hfunction "f" List.mem_cons_self, hends, by decide,
    (hreached _ _ _ hends.reaches).2 0 hglobal (.inr rfl)⟩

end Session

end Lox
