import Lox.Proofs.Eval.Return
import Lox.Proofs.Syntax.Shape

/-!
# What a `for` loop means

A `for` loop is read as a `while` loop with blocks around its clauses. Here it is said directly what the
loop does: `Eval.enterFor` opens the one scope of the loop and runs the initializer there, and
`Eval.forRound` is what is done in each round, in that scope. `LoopEnds` says how rounds end that follow
each other.

Main statement: `Eval.ends_forLoop`, by which the tree that is read for a loop does the same, except
that each round opens a block if there is an increment.
-/

namespace Lox

variable {α β : Type} {setting : Setting} {m n : Machine}

/-! ## Steps that end alike -/

theorem Course.bind_ended (c : Course α) : (c.bind fun a m => .ended (.ok a) m) = c := by
  induction c with
  | ended result m => cases result <;> rfl
  | ask task m next ih => simp only [bind, ih]

instance : LawfulMonad Eval :=
  .mk' Eval (fun x => funext fun setting => funext fun m => (x setting m).bind_ended)
    (fun _ _ => rfl)
    (fun x f g => funext fun setting => funext fun m =>
      (x setting m).bind_assoc (fun a m => f a setting m) fun b m => g b setting m)

namespace Eval

theorem ends_bind {x : Eval α} {f : α → Eval β} {r : Except Fault β} :
    (x >>= f).Ends setting m r n ↔
      (∃ fault, r = .error fault ∧ x.Ends setting m (.error fault) n) ∨
        ∃ a m₁, x.Ends setting m (.ok a) m₁ ∧ (f a).Ends setting m₁ r n := by
  constructor
  · exact Ends.of_bind
  · rintro (⟨fault, rfl, hx⟩ | ⟨a, m₁, hx, hf⟩)
    · exact hx.bind_error
    · exact hx.bind hf

/-- Two steps end in the same way from every machine. -/
def Same (x y : Eval α) : Prop :=
  ∀ setting m r n, x.Ends setting m r n ↔ y.Ends setting m r n

namespace Same

variable {x y z : Eval α}

theorem refl (x : Eval α) : x.Same x :=
  fun _ _ _ _ => .rfl

theorem symm (h : x.Same y) : y.Same x :=
  fun setting m r n => (h setting m r n).symm

theorem trans (hxy : x.Same y) (hyz : y.Same z) : x.Same z :=
  fun setting m r n => (hxy setting m r n).trans (hyz setting m r n)

theorem bind {f g : α → Eval β} (hx : x.Same y) (hf : ∀ a, (f a).Same (g a)) :
    (x >>= f).Same (y >>= g) := by
  intro setting m r n
  rw [ends_bind, ends_bind]
  refine or_congr (exists_congr fun fault => and_congr_right fun _ => hx _ _ _ _) ?_
  exact exists_congr fun a => exists_congr fun m₁ => and_congr (hx _ _ _ _) (hf a _ _ _ _)

end Same

end Eval

/-! ## Rounds -/

/-- How rounds end that follow each other until one has a result or fails. -/
inductive RoundsEnd (setting : Setting) (round : Eval (Option α)) :
    Machine → Except Fault α → Machine → Prop
  | last {m n : Machine} {a : α} :
      round.Ends setting m (.ok (some a)) n → RoundsEnd setting round m (.ok a) n
  | fault {m n : Machine} {fault : Fault} :
      round.Ends setting m (.error fault) n → RoundsEnd setting round m (.error fault) n
  | again {m n o : Machine} {r : Except Fault α} :
      round.Ends setting m (.ok none) n → RoundsEnd setting round n r o →
        RoundsEnd setting round m r o

theorem RoundsEnd.same {x y : Eval (Option α)} {r : Except Fault α} (hxy : x.Same y)
    (h : RoundsEnd setting x m r n) : RoundsEnd setting y m r n := by
  induction h with
  | last hround => exact .last ((hxy _ _ _ _).mp hround)
  | fault hround => exact .fault ((hxy _ _ _ _).mp hround)
  | again hround _ ih => exact .again ((hxy _ _ _ _).mp hround) ih

/-- A task is its rounds. -/
theorem Task.ends_iff_rounds {task : Task} {r : Except Fault task.Result} :
    task.Ends setting m r n ↔ RoundsEnd setting task.round m r n := by
  constructor
  · rintro ⟨fuel, h⟩
    induction fuel generalizing m with
    | zero => cases h
    | succ fuel ih =>
        rw [perform] at h
        cases hrun : (task.round setting m).run (perform setting fuel) with
        | timeout =>
            rw [hrun] at h
            cases h
        | ended result m₁ =>
            -- A round without a result is followed by the task again, with less fuel.
            have hround : task.round.Ends setting m result m₁ := ⟨fuel, hrun⟩
            rw [hrun] at h
            rcases result with fault | _ | result
            · cases h
              exact .fault hround
            · exact .again hround (ih h)
            · cases h
              exact .last hround
  · intro h
    induction h with
    | last hround => exact .of_round hround
    | fault hround => exact .of_round_error hround
    | @again m₁ m₂ m₃ r hround _ ih =>
        rcases hround with ⟨fuel₁, hround⟩
        rcases ih with ⟨fuel₂, hends⟩
        -- The first round and the rounds after it may need different amounts of fuel.
        refine ⟨max fuel₁ fuel₂ + 1, ?_⟩
        rw [perform, run_perform_mono (Nat.le_max_left fuel₁ fuel₂) hround]
        exact perform_mono (Nat.le_max_right fuel₁ fuel₂) hends

/-- A round that always has a result is the only one. -/
theorem roundsEnd_some {x : Eval α} {r : Except Fault α} :
    RoundsEnd setting (some <$> x) m r n ↔ x.Ends setting m r n := by
  constructor
  · intro h
    cases h with
    | last hround => exact Eval.ends_some hround
    | fault hround =>
        rcases hround.of_bind with ⟨fault, heq, hx⟩ | ⟨a, m₁, -, hend⟩
        · cases heq
          exact hx
        · cases (Eval.ends_pure hend).1
    | again hround _ =>
        rcases hround.of_bind with ⟨fault, heq, -⟩ | ⟨a, m₁, -, hend⟩
        · cases heq
        · cases (Eval.ends_pure hend).1
  · intro h
    cases r with
    | ok a => exact .last (h.bind ⟨0, rfl⟩)
    | error fault => exact .fault h.bind_error

namespace Eval

variable {frame : FrameId}

/-- A task that always ends with its first round is what that round does. -/
theorem same_request {task : Task} {x : Eval task.Result} (h : task.round = some <$> x) :
    (request task).Same x := by
  intro setting m r n
  have hrequest : (request task).Ends setting m r n ↔ task.Ends setting m r n :=
    ⟨Task.Ends.of_request, Task.Ends.request⟩
  rw [hrequest, Task.ends_iff_rounds, h, roundsEnd_some]

theorem same_evaluate_literal (frame : FrameId) (node : Node) (value : Literal) :
    (evaluate frame (.literal node value)).Same (pure value.value) :=
  same_request rfl

theorem same_execute_block (frame : FrameId) (body : List Stmt) :
    (execute frame (.block body)).Same
      (create (fun store => store.newScope frame) >>= fun inner => executeAll inner body) := by
  refine same_request ?_
  rw [map_bind]
  rfl

theorem same_execute_expression (frame : FrameId) (e : Expr) :
    (execute frame (.expression e)).Same (evaluate frame e >>= fun _ => pure .normal) := by
  refine same_request ?_
  rw [map_bind]
  simp only [map_pure]
  rfl

end Eval

/-! ## Loops -/

namespace Eval

/-- The condition of a loop. A missing one is true. -/
def holds (frame : FrameId) : Option Expr → Eval Bool
  | none => return true
  | some condition => do
      let value ← evaluate frame condition
      return value.isTruthy

/-- One round of a `for` loop in the scope of the loop. There is no result as long as another round has
to follow. When the body returns or fails, the increment is not evaluated. -/
def forRound (clauses : Parse.ForClauses) (body : Stmt) (frame : FrameId) : Eval (Option Flow) := do
  if ← holds frame clauses.condition then
    match ← execute frame body with
    | .returned value => return some (.returned value)
    | .normal =>
        let _ ← evaluateOption frame clauses.increment
        return none
  else return some .normal

/-- The frame of a `for` loop. With an initializer it is a new one, in which the initializer has
run. -/
def enterFor (clauses : Parse.ForClauses) (frame : FrameId) : Eval FrameId :=
  match clauses.initializer with
  | none => return frame
  | some initializer => do
      let inner ← create fun store => store.newScope frame
      let _ ← execute inner initializer
      return inner

/-- The frame of a round of the tree for a loop, which is a new one if there is an increment. -/
def roundFrame (clauses : Parse.ForClauses) (frame : FrameId) : Eval FrameId :=
  match clauses.increment with
  | none => return frame
  | some _ => create fun store => store.newScope frame

/-- One round of the tree for a loop. It is like `forRound`, but the body and the increment are in a
block. -/
def blockRound (clauses : Parse.ForClauses) (body : Stmt) (frame : FrameId) :
    Eval (Option Flow) := do
  if ← holds frame clauses.condition then
    let inner ← roundFrame clauses frame
    match ← execute inner body with
    | .returned value => return some (.returned value)
    | .normal =>
        let _ ← evaluateOption inner clauses.increment
        return none
  else return some .normal

end Eval

/-- How a loop ends that is entered and then goes round in its frame. -/
inductive LoopEnds (setting : Setting) (enter : Eval FrameId) (round : FrameId → Eval (Option Flow))
    (m : Machine) : Except Fault Flow → Machine → Prop
  | fault {n : Machine} {fault : Fault} :
      enter.Ends setting m (.error fault) n → LoopEnds setting enter round m (.error fault) n
  | rounds {n o : Machine} {frame : FrameId} {r : Except Fault Flow} :
      enter.Ends setting m (.ok frame) n → RoundsEnd setting (round frame) n r o →
        LoopEnds setting enter round m r o

/-! ## The tree for a loop -/

namespace Eval

variable {frame : FrameId} {clauses : Parse.ForClauses} {body : Stmt} {test : Expr}
  {p p' : ParseState}

/-- A condition that is missing is written as `true`, and that is what it evaluates to. -/
theorem same_test (htest : clauses.test p = .ok test p') (frame : FrameId) :
    (do let value ← evaluate frame test; return value.isTruthy).Same
      (holds frame clauses.condition) := by
  unfold Parse.ForClauses.test at htest
  cases hcondition : clauses.condition with
  | some condition =>
      rw [hcondition] at htest
      cases htest
      exact .refl _
  | none =>
      rw [hcondition] at htest
      cases htest
      exact (same_evaluate_literal frame _ _).bind fun _ => .refl _

theorem same_executeAll_single (frame : FrameId) (s : Stmt) :
    (executeAll frame [s]).Same (execute frame s) := by
  -- After the only statement nothing is left, so how it ended is how the list ends.
  have hflow : ∀ flow : Flow,
      (match flow with
        | .returned value => pure (.returned value)
        | .normal => executeAll frame [] : Eval Flow).Same (pure flow) := by
    intro flow
    cases flow <;> exact .refl _
  have hsame := (Same.refl (execute frame s)).bind hflow
  rw [bind_pure] at hsame
  exact hsame

/-- In each round the block around the increment is opened. -/
theorem same_round (clauses : Parse.ForClauses) (body : Stmt) (frame : FrameId) :
    (execute frame (clauses.round body)).Same (do
      let inner ← roundFrame clauses frame
      match ← execute inner body with
      | .returned value => return .returned value
      | .normal =>
          let _ ← evaluateOption inner clauses.increment
          return .normal) := by
  unfold Parse.ForClauses.round roundFrame
  -- Without an increment the round is the body itself and no block is opened.
  cases clauses.increment with
  | none =>
      exact (same_executeAll_single frame body).symm
  | some increment =>
      refine (same_execute_block frame _).trans (.bind (.refl _) fun inner => ?_)
      refine .bind (.refl _) fun flow => ?_
      cases flow with
      | returned value => exact .refl _
      | normal =>
          refine ((same_execute_expression inner increment).bind fun _ => .refl _).trans ?_
          rw [bind_assoc]
          exact .refl _

theorem same_loopRound (htest : clauses.test p = .ok test p') (frame : FrameId) :
    (loopRound frame test (clauses.round body)).Same (blockRound clauses body frame) := by
  -- The value of the condition is used only for its truth, so both can be taken as one step.
  have hassoc : loopRound frame test (clauses.round body) =
      ((do let value ← evaluate frame test; return value.isTruthy) >>= fun b =>
        if b then do
          match ← execute frame (clauses.round body) with
          | .returned value => return some (.returned value)
          | .normal => return none
        else return some .normal) := by
    rw [bind_assoc]
    rfl
  rw [hassoc]
  refine (same_test htest frame).bind fun b => ?_
  cases b with
  | false => exact .refl _
  | true =>
      refine ((same_round clauses body frame).bind fun _ => .refl _).trans ?_
      rw [bind_assoc]
      refine .bind (.refl _) fun inner => ?_
      rw [bind_assoc]
      refine .bind (.refl _) fun flow => ?_
      cases flow with
      | returned value => exact .refl _
      | normal =>
          rw [bind_assoc]
          exact .refl _

/-- Neither a declaration nor an expression returns. -/
theorem normal_of_here {s : Stmt} {flow : Flow}
    (h : (execute frame s).Ends setting m (.ok flow) n) (hhere : s.here = [s])
    (hs : ∀ keyword value, s ≠ .return keyword value) : flow = .normal := by
  cases flow with
  | normal => rfl
  | returned v =>
      rcases (Task.Ends.of_request h).of_returned with ⟨g, keyword, value, m₀, hmem, -⟩
      rw [hhere, List.mem_singleton] at hmem
      exact absurd hmem.symm (hs keyword value)

end Eval

namespace Parse

variable {clauses : ForClauses} {body tree : Stmt} {p p' : ParseState}

theorem forLoop_ok (h : forLoop clauses body p = .ok tree p') :
    ∃ test, clauses.test p = .ok test p' ∧
      tree = clauses.around (.while test (clauses.round body)) := by
  rcases clauses with ⟨initializer, _ | condition, semicolon, increment⟩
  · cases h
    exact ⟨_, rfl, rfl⟩
  · cases h
    exact ⟨_, rfl, rfl⟩

end Parse

namespace Eval

/-- The tree that is read for a loop does what the loop does, but in each round it opens a block if
there is an increment. -/
theorem ends_forLoop {clauses : Parse.ForClauses} {body tree : Stmt} {p p' : ParseState}
    (hplain : clauses.Plain) (htree : Parse.forLoop clauses body p = .ok tree p')
    {frame : FrameId} {r : Except Fault Flow} :
    (execute frame tree).Ends setting m r n ↔
      LoopEnds setting (enterFor clauses frame) (blockRound clauses body) m r n := by
  rcases Parse.forLoop_ok htree with ⟨test, htest, rfl⟩
  have hrounds : ∀ {g : FrameId} {m : Machine} {r : Except Fault Flow},
      (execute g (.while test (clauses.round body))).Ends setting m r n ↔
        RoundsEnd setting (blockRound clauses body g) m r n := by
    intro g m r
    refine Iff.trans ⟨Task.Ends.of_request, Task.Ends.request⟩ (Task.ends_iff_rounds.trans ?_)
    exact ⟨.same (same_loopRound htest g), .same (same_loopRound htest g).symm⟩
  unfold Parse.ForClauses.around enterFor
  cases hinitializer : clauses.initializer with
  | none =>
      refine hrounds.trans ?_
      constructor
      · exact .rounds ⟨0, rfl⟩
      · intro h
        cases h with
        | fault henter => cases (ends_pure henter).1
        | rounds henter hend =>
            rcases ends_pure henter with ⟨heq, rfl⟩
            cases heq
            exact hend
  | some initializer =>
      have hnormal : ∀ {g : FrameId} {m n : Machine} {flow : Flow},
          (execute g initializer).Ends setting m (.ok flow) n → flow = .normal := by
        intro g m n flow h
        rcases hplain initializer hinitializer with ⟨name, initial, rfl⟩ | ⟨e, rfl⟩
        · exact normal_of_here h rfl fun _ _ heq => nomatch heq
        · exact normal_of_here h rfl fun _ _ heq => nomatch heq
      have hrest : ∀ {g : FrameId} {m : Machine} {r : Except Fault Flow},
          (executeAll g [.while test (clauses.round body)]).Ends setting m r n ↔
            RoundsEnd setting (blockRound clauses body g) m r n :=
        (same_executeAll_single _ _ _ _ _ _).trans hrounds
      refine (same_execute_block frame _ _ _ _ _).trans ?_
      constructor
      · intro h
        rcases h.of_bind with ⟨fault, rfl, hscope⟩ | ⟨inner, m₁, hscope, h⟩
        · exact .fault hscope.bind_error
        rcases h.of_bind with ⟨fault, rfl, hfirst⟩ | ⟨flow, m₂, hfirst, h⟩
        · exact .fault (hscope.bind hfirst.bind_error)
        cases hnormal hfirst
        exact .rounds (hscope.bind (hfirst.bind ⟨0, rfl⟩)) (hrest.mp h)
      · intro h
        cases h with
        | fault henter =>
            rcases henter.of_bind with ⟨fault, heq, hscope⟩ | ⟨inner, m₁, hscope, h⟩
            · cases heq
              exact hscope.bind_error
            rcases h.of_bind with ⟨fault, heq, hfirst⟩ | ⟨flow, m₂, -, h⟩
            · cases heq
              exact hscope.bind hfirst.bind_error
            · cases (ends_pure h).1
        | rounds henter hend =>
            rcases henter.of_bind with ⟨fault, heq, -⟩ | ⟨inner, m₁, hscope, h⟩
            · cases heq
            rcases h.of_bind with ⟨fault, heq, -⟩ | ⟨flow, m₂, hfirst, h⟩
            · cases heq
            rcases ends_pure h with ⟨heq, rfl⟩
            cases heq
            cases hnormal hfirst
            exact hscope.bind (hfirst.bind (hrest.mpr hend))

end Eval

end Lox
