import Lox.Proofs.Session.Agreement

/-!
# Assignments to local variables

Resolution records a distance for an assignment as soon as the name is declared, but the frame binds
the name only when the declaration has ended. Between the two there is the initializer, and there
resolution rejects a use of the variable only where it is read.

Main statements: `Session.History.assign_finds_local` says that an assignment outside the initializer
of its own variable finds the variable, and `Session.assign_fails_in_initializer` shows an assignment
inside it that does not.
-/

namespace Lox

/-- An assignment ends once its value has been evaluated and the frame at the distance binds the
name. -/
theorem Task.Ends.assign {setting : Setting} {frame holder : FrameId} {target : Reference}
    {value : Expr} {m m' : Machine} {v : Value} {distance : Nat}
    (hvalue : (Task.evaluate frame value).Ends setting m (.ok v) m')
    (hdistance : setting.locals.distance? target.id = some distance)
    (hholder : m'.store.ancestor? frame distance = some holder)
    (hbound : (m'.store.value? holder target.name.name).isSome = true) :
    (Task.evaluate frame (.assign target value)).Ends setting m (.ok v)
      { m' with store := m'.store.define holder target.name.name v } := by
  have hassign : (Eval.assign frame target v).Ends setting m' (.ok ())
      { m' with store := m'.store.define holder target.name.name v } := by
    refine ⟨0, ?_⟩
    rw [Eval.assign, Eval.bind_apply, Eval.distance?, hdistance]
    simp only [Course.bind, Eval.tryChange, Store.assignAt, hholder, Option.filter_some, hbound]
    rfl
  have hvalueOf : (Eval.valueOf frame (.assign target value)).Ends setting m (.ok v)
      { m' with store := m'.store.define holder target.name.name v } :=
    hvalue.request.bind (hassign.bind ⟨0, rfl⟩)
  exact Task.Ends.of_round (hvalueOf.bind ⟨0, rfl⟩)

namespace Session

variable {runs : List Run} {s : Session} {clock : Nat → Except String Float} {text : List Char}
  {r : Run}

/-- Wherever evaluation comes to an assignment with a recorded distance, the frame at the distance
binds the variable once the value has been evaluated, and the assignment succeeds there. Assignments
in the initializer of a variable of the same name are left out. -/
theorem History.assign_finds_local (h : History runs s) (hr : s.running? clock text = some r)
    {frame : FrameId} {target : Reference} {value : Expr} {m m' : Machine} {distance : Nat}
    {v : Value} (hbegun : r.Begins (.evaluate frame (.assign target value)) m)
    (houtside : ∀ ident initial,
      .var ident (some initial) ∈ Stmt.partsAll (Run.programOf (runs ++ [r])) →
        .assign target value ∈ initial.parts → ident.name ≠ target.name.name)
    (hdistance : r.setting.locals.distance? target.id = some distance)
    (hvalue : (Task.evaluate frame value).Ends r.setting m (.ok v) m') :
    ∃ holder, m'.store.ancestor? frame distance = some holder ∧
      (m'.store.value? holder target.name.name).isSome = true ∧
      (Task.evaluate frame (.assign target value)).Ends r.setting m (.ok v)
        { m' with store := m'.store.define holder target.name.name v } := by
  rcases h.before hr hbegun with ⟨-, owner, scopes, hvisits, hstands⟩
  have hv : (⟨.assign target value, owner, scopes⟩ : Visit) ∈
      Stmt.programVisits (Run.programOf (runs ++ [r])) := hvisits _ (Expr.mem_parts_self _)
  have hscopes : scopes.distance? target.name.name = some distance :=
    ((h.resolved hr).distance _ hv).symm.trans hdistance
  rcases (Stmt.settles_visitsAll Scopes.settled_nil _ _ hv).defined houtside hscopes with
    ⟨scope, declared, hscope, hdeclared, hdefined⟩
  -- The frames that stand for the scopes are still there when the value has been evaluated.
  have hgrows : m.store.Grows m'.store := (h.after hr (.inside hbegun .now) hvalue).2.1
  rcases (hstands.frames.grows hgrows).exists_ancestor hscope with ⟨holder, hholder, hbinds⟩
  rcases hbinds _ declared hdeclared hdefined with ⟨old, hold, -⟩
  have hbound : (m'.store.value? holder target.name.name).isSome = true := by
    rw [hold]
    rfl
  exact ⟨holder, hholder, hbound, hvalue.assign hdistance hholder hbound⟩

/-- The run of a block that declares a variable and assigns to it. -/
def assigningRun : Run :=
  ⟨⟨[(2, 0)], 0, fun _ => .error "no clock"⟩, Session.empty.machine,
    [.block [.var ⟨"a", 5, 1⟩ none,
      .expression (.assign ⟨2, "a", 7, 1⟩ (.literal ⟨1, 9, 3⟩ .nil))]]⟩

theorem running?_assigningRun :
    Session.empty.running? (fun _ => .error "no clock") "\x7bvar a;a=nil;\x7d".toList =
      some assigningRun := by
  with_unfolding_all rfl

theorem assign_finds_local_assigningRun :
    ∃ m holder,
      assigningRun.Begins (.evaluate 1 (.assign ⟨2, "a", 7, 1⟩ (.literal ⟨1, 9, 3⟩ .nil))) m ∧
      m.store.ancestor? 1 0 = some holder ∧ (m.store.value? holder "a").isSome = true := by
  have hbegun : ∃ m,
      assigningRun.Begins (.evaluate 1 (.assign ⟨2, "a", 7, 1⟩ (.literal ⟨1, 9, 3⟩ .nil))) m :=
    ⟨_, .inside (.inside (.asked .now) (.later ⟨1, rfl⟩ .now)) .now⟩
  rcases hbegun with ⟨m, hbegun⟩
  have hvalue : (Task.evaluate 1 (.literal ⟨1, 9, 3⟩ .nil)).Ends assigningRun.setting m (.ok .nil)
      m := ⟨1, rfl⟩
  have houtside : ∀ ident initial,
      .var ident (some initial) ∈ Stmt.partsAll (Run.programOf ([] ++ [assigningRun])) →
        .assign ⟨2, "a", 7, 1⟩ (.literal ⟨1, 9, 3⟩ .nil) ∈ initial.parts → ident.name ≠ "a" := by
    intro ident initial hvar
    simp [Run.programOf, assigningRun, Stmt.partsAll, Stmt.parts] at hvar
  rcases History.empty.assign_finds_local running?_assigningRun hbegun houtside rfl hvalue with
    ⟨holder, hholder, hbound, -⟩
  exact ⟨m, holder, hbegun, hholder, hbound⟩

/-- The run of a block that declares a variable and assigns to it in its initializer. -/
def initializingRun : Run :=
  ⟨⟨[(2, 0)], 0, fun _ => .error "no clock"⟩, Session.empty.machine,
    [.block [.var ⟨"a", 5, 1⟩
      (some (.assign ⟨2, "a", 7, 1⟩ (.literal ⟨1, 9, 3⟩ .nil)))]]⟩

/-- A text is accepted and a distance is recorded for the assignment in it, but when its value has
been evaluated the variable is not found. -/
theorem assign_fails_in_initializer :
    Session.empty.running? (fun _ => .error "no clock") "\x7bvar a=a=nil;\x7d".toList =
        some initializingRun ∧
      initializingRun.setting.locals.distance? 2 = some 0 ∧
      ∃ m m', initializingRun.Begins
          (.evaluate 1 (.assign ⟨2, "a", 7, 1⟩ (.literal ⟨1, 9, 3⟩ .nil))) m ∧
        (Task.evaluate 1 (.literal ⟨1, 9, 3⟩ .nil)).Ends initializingRun.setting m (.ok .nil) m' ∧
        (Task.evaluate 1 (.assign ⟨2, "a", 7, 1⟩ (.literal ⟨1, 9, 3⟩ .nil))).Ends
          initializingRun.setting m (.error ⟨.undefinedVariable "a", 7, 1⟩) m' := by
  refine ⟨by with_unfolding_all rfl, rfl, ?_⟩
  exact ⟨_, _, .inside (.inside (.asked .now) .now) .now, ⟨1, rfl⟩, ⟨2, rfl⟩⟩

end Session

end Lox
