import Mathlib.Data.Prod.Lex
import Mathlib.Order.WellFounded
import Lox.Proofs.Eval.Depth

/-!
# Programs without loops end

Functions may call each other as they like, but no more than `maxDepth` calls deep. What a task asks
for either stands one call deeper, where fewer calls are left, or it is smaller: an expression is
smaller than a statement, an operand smaller than its expression, and an inner statement smaller than
the one around it. So without loops every task ends.

Main statement: `Task.stops`.
-/

namespace Lox

namespace Task

/-- What grows smaller on the way to what a task asks for: the number of calls that are left, then
whether the task is a statement, then the size of its tree. -/
noncomputable def measure (depth : Nat) : Task → Nat ×ₗ Nat ×ₗ Nat
  | .evaluate _ e => toLex (maxDepth - depth, toLex (0, sizeOf e))
  | .execute _ s => toLex (maxDepth - depth, toLex (1, sizeOf s))

theorem Asked.measure_lt {P : Stmt → Prop} {task task' : Task} {depth depth' : Nat}
    (h : task.Asked P depth task' depth') : task'.measure depth' < task.measure depth := by
  rcases h with ⟨hmay, hdepth, -, hle⟩
  cases task with
  | evaluate frame e =>
      cases task' with
      | evaluate frame' part =>
          have hlt : sizeOf part < sizeOf e := Expr.sizeOf_lt_of_mem_operands hmay
          have heq : depth' = depth := hdepth
          rw [heq]
          exact Prod.Lex.right _ (Prod.Lex.right _ hlt)
      | execute frame' s =>
          have heq : depth' = depth + 1 := hdepth
          have hlt : maxDepth - depth' < maxDepth - depth := by omega
          exact Prod.Lex.left _ _ hlt
  | execute frame s =>
      have heq : depth' = depth := by
        cases task' <;> exact hdepth
      rw [heq]
      cases task' with
      | evaluate frame' e =>
          exact Prod.Lex.right _ (Prod.Lex.left _ _ Nat.zero_lt_one)
      | execute frame' t =>
          have hlt : sizeOf t < sizeOf s := Stmt.sizeOf_lt_of_mem_inner hmay
          exact Prod.Lex.right _ (Prod.Lex.right _ hlt)

variable {setting : Setting}

/-- A task without loops goes round once. -/
theorem not_isLoop {task : Task} (h : task.In Stmt.LoopFree) : ¬task.IsLoop := by
  intro hloop
  cases task with
  | evaluate frame e =>
      exact hloop
  | execute frame s =>
      cases s with
      | «while» condition body =>
          exact h condition body (Stmt.mem_parts_self _)
      | _ =>
          exact hloop

/-- A task without loops ends, where all functions that it may call are without loops too. -/
theorem stops {task : Task} {m : Machine} (hwithin : task.Within Stmt.LoopFree m.depth)
    (hcode : m.store.CodeIn Stmt.LoopFree) : ∃ r m', task.Ends setting m r m' := by
  induction hmeasure : task.measure m.depth using WellFoundedLT.induction generalizing task m with
  | ind bound ih =>
    subst hmeasure
    have hround : (task.round setting m).Meets setting (asking Stmt.LoopFree _) _ :=
      Task.round_keeps Stmt.hereditary_loopFree hwithin m rfl hcode
    have hasked : ∀ task' m', task.Asked Stmt.LoopFree m.depth task' m'.depth →
        m'.store.CodeIn Stmt.LoopFree → ∃ r m'', task'.Ends setting m' r m'' := by
      intro task' m' hasked hcode'
      exact ih _ hasked.measure_lt hasked.within hcode' rfl
    rcases hround.stops_asking Stmt.hereditary_loopFree Task.Asked.within hasked with
      ⟨r, m', hends, -, -, hgives⟩
    rcases r with fault | _ | result
    · exact ⟨.error fault, m', .of_round_error hends⟩
    · -- Another round would have to follow, but only loops have several.
      exact absurd (hgives none rfl) (not_isLoop hwithin.1)
    · exact ⟨.ok result, m', .of_round hends⟩

end Task

end Lox
