import Lox.Proofs.Eval.Termination
import Lox.Proofs.Session.Depth

/-!
# Sessions without loops end

Where neither the text at hand nor any earlier text that ran has a loop, the run of the text comes to
an end.

Main statement: `Session.History.run_ends`.
-/

namespace Lox

namespace Stmt

/-- There is no loop in the statements. -/
def AllLoopFree (ss : List Stmt) : Prop :=
  ∀ condition body, .while condition body ∉ partsAll ss

theorem AllLoopFree.loopFree {ss : List Stmt} (h : AllLoopFree ss) {s : Stmt} (hs : s ∈ ss) :
    s.LoopFree :=
  fun condition body hmem => h condition body (parts_subset_partsAll hs hmem)

end Stmt

namespace Session

variable {runs : List Run} {s : Session} {clock : Nat → Except String Float} {text : List Char}
  {r : Run}

/-- With enough fuel there is an answer if the run of the text ends. -/
theorem run?_of_ends (hr : s.running? clock text = some r) {result : Except Fault Unit} {m : Machine}
    (hends : r.course.Ends r.setting result m) :
    ∃ enough s' answer, ∀ fuel, enough ≤ fuel → s.run? fuel clock text = some (s', answer) := by
  unfold running? at hr
  cases hchunk : (s.chunk text).outcome with
  | error problems =>
      rw [hchunk] at hr
      cases hr
  | ok accepted =>
      rcases accepted with ⟨statements, locals⟩
      rw [hchunk] at hr
      cases hr
      rcases hends with ⟨enough, hrun⟩
      have hanswer : ∀ fuel, enough ≤ fuel → s.run? fuel clock text = afterRun?
          { s.append text (s.chunk text).nextId with locals := s.locals ++ locals }
          (.ended result m) := by
        intro fuel hle
        rw [run?_of_ok hchunk, interpret?_eq]
        exact congrArg _ (run_perform_mono hle hrun)
      cases result with
      | ok _ => exact ⟨enough, _, _, hanswer⟩
      | error fault => exact ⟨enough, _, _, hanswer⟩

theorem outcome_of_running?_none (h : s.running? clock text = none) :
    ∃ problems, (s.chunk text).outcome = .error problems := by
  unfold running? at h
  cases hchunk : (s.chunk text).outcome with
  | error problems =>
      exact ⟨problems, rfl⟩
  | ok accepted =>
      rw [hchunk] at h
      cases h

/-- The run of a text comes to an end, in a result or in a fault, if neither the text nor any earlier
one that ran has a loop. So the session has an answer to the text. -/
theorem History.run_ends (h : History runs s)
    (hloops : Stmt.AllLoopFree (Run.programOf (runs ++ (s.running? clock text).toList))) :
    (∀ r, s.running? clock text = some r → ∃ result m, r.course.Ends r.setting result m) ∧
      ∃ enough s' answer, ∀ fuel, enough ≤ fuel → s.run? fuel clock text = some (s', answer) := by
  have hends : ∀ r, s.running? clock text = some r →
      ∃ result m, r.course.Ends r.setting result m := by
    intro r hr
    rw [hr, Option.toList_some] at hloops
    rcases h.meets_asking hr Stmt.hereditary_loopFree fun stmt hstmt => hloops.loopFree hstmt with
      ⟨-, hmeets⟩
    have hstops := hmeets.stops_asking Stmt.hereditary_loopFree Task.Outermost.within
      fun task m houtermost hcode => Task.stops houtermost.within hcode
    rcases hstops with ⟨result, m, hended, -⟩
    exact ⟨result, m, hended⟩
  refine ⟨hends, ?_⟩
  cases hr : s.running? clock text with
  | none =>
      rcases outcome_of_running?_none hr with ⟨problems, hchunk⟩
      exact ⟨0, _, _, fun fuel _ => run?_of_error hchunk⟩
  | some r =>
      rcases hends r hr with ⟨result, m, hended⟩
      exact run?_of_ends hr hended

/-- A function that calls itself without end: its run ends all the same. -/
theorem run_ends_recurringRun :
    Stmt.AllLoopFree (Run.programOf [recurringRun]) ∧
      ∃ result m, recurringRun.course.Ends recurringRun.setting result m := by
  have hloops : Stmt.AllLoopFree (Run.programOf [recurringRun]) := by
    intro condition body hmem
    simp [Run.programOf, recurringRun, recurring, Stmt.partsAll, Stmt.parts, Stmt.partsRoutine]
      at hmem
  refine ⟨hloops, ?_⟩
  have hloops' : Stmt.AllLoopFree (Run.programOf ([] ++ (Session.empty.running?
      (fun _ => .error "no clock") "fun f()\x7bf();\x7df();".toList).toList)) := by
    rw [running?_recurringRun]
    exact hloops
  exact (History.empty.run_ends hloops').1 recurringRun running?_recurringRun

end Session

end Lox
