import Lox.Proofs.Eval.Course
import Lox.Proofs.Parallel.Eval

/-!
# Parallel runs

A statement is executed in parallel to its copy, round after round, and so is every task. With the same
fuel both runs come to an end or neither does, so a step of one run ends exactly if the parallel step of
the other ends.

Main statements: `perform_parallels`, `Eval.Parallels.forth` and `Eval.Parallels.back`.
-/

namespace Lox

variable {T : Tracks} {P : Pairing} {k : Hollow} {f f' : FrameId}

namespace Eval

/-! ## Statements -/

/-- How a round of a statement ends: there is a flow in both runs, or another round follows in
both. -/
def Rounds (T : Tracks) (Q : Pairing) : Option Flow → Option Flow → Prop :=
  Option.Rel (Flow.Parallels T Q)

theorem parallels_loopRound {condition condition' : Expr} {body body' : Stmt} (hp : P k f f')
    (hcondition : condition.Parallels T k condition') (hbody : body.Parallels T k body') :
    (loopRound f condition body).Parallels T P (Rounds T) (loopRound f' condition' body') := by
  refine (parallels_evaluate hp hcondition).bind ?_
  intro Q v v' hle hv
  rw [hv.isTruthy]
  split
  · refine (parallels_execute (hle _ _ _ hp) hbody).bind ?_
    intro Q₁ w w' _ hw
    cases hw with
    | normal => exact .pure fun _ _ => .none
    | returned hv => exact .pure fun _ hle₂ => .some (.returned (hv.mono hle₂))
  · exact .pure fun _ _ => .some .normal

theorem parallels_executeRound {s s' : Stmt} (hp : P k f f') (hs : s.Parallels T k s') :
    (executeRound f s).Parallels T P (Rounds T) (executeRound f' s') := by
  have hnormal : ∀ {Q : Pairing}, Parallels T Q (Rounds T) (pure (some .normal))
      (pure (some .normal)) := .pure fun _ _ => .some .normal
  cases hs with
  | expression he =>
      refine (parallels_evaluate hp he).bind ?_
      exact fun _ _ _ _ _ => hnormal
  | print he =>
      refine (parallels_evaluate hp he).bind ?_
      intro Q v v' _ hv
      refine (parallels_print hv.text).bind ?_
      exact fun _ _ _ _ _ => hnormal
  | var hk hinitial =>
      refine (parallels_evaluateOption hp hinitial).bind ?_
      intro Q v v' hle hv
      refine (parallels_define ⟨k, hk, hle _ _ _ hp⟩ hv).bind ?_
      exact fun _ _ _ _ _ => hnormal
  | block hbody =>
      refine (parallels_newScope hp).bind ?_
      intro Q g g' _ hg
      exact (parallels_executeAll hg hbody).map fun _ _ _ hw => .some hw
  | ifOnly hcondition hconsequent =>
      refine (parallels_evaluate hp hcondition).bind ?_
      intro Q v v' hle hv
      rw [hv.isTruthy]
      split
      · exact (parallels_execute (hle _ _ _ hp) hconsequent).map fun _ _ _ hw => .some hw
      · exact hnormal
  | ifElse hcondition hconsequent halternative =>
      refine (parallels_evaluate hp hcondition).bind ?_
      intro Q v v' hle hv
      rw [hv.isTruthy]
      split
      · exact (parallels_execute (hle _ _ _ hp) hconsequent).map fun _ _ _ hw => .some hw
      · exact (parallels_execute (hle _ _ _ hp) halternative).map fun _ _ _ hw => .some hw
  | «while» hcondition hbody =>
      exact parallels_loopRound hp hcondition hbody
  | @function _ decl decl' hk hdecl =>
      have hclosure : (⟨decl, f, false⟩ : Closure).Parallels T P ⟨decl', f', false⟩ :=
        ⟨rfl, k, hk, hp, hdecl⟩
      refine (parallels_makeFunction hclosure).bind ?_
      intro Q v v' hle hv
      rw [hdecl.name]
      refine (parallels_define ⟨k, hk, hle _ _ _ hp⟩ hv).bind ?_
      exact fun _ _ _ _ _ => hnormal
  | «return» hvalue =>
      refine (parallels_evaluateOption hp hvalue).bind ?_
      intro Q v v' _ hv
      exact .pure fun _ hle => .some (.returned (hv.mono hle))
  | root hk hmethods =>
      refine (parallels_root hk hp hmethods).bind ?_
      exact fun _ _ _ _ _ => hnormal
  | derived hk h hmethods =>
      refine (parallels_derived hk hp h hmethods).bind ?_
      exact fun _ _ _ _ _ => hnormal

end Eval

/-! ## Tasks -/

theorem Task.parallels_round {task task' : Task} (h : task.Parallels T P task') :
    task.round.Parallels T P (fun Q => Option.Rel (task.Yields T Q task')) task'.round := by
  cases h with
  | evaluate hp he => exact (Eval.parallels_valueOf hp he).map fun _ _ _ hv => .some hv
  | execute hp hs => exact Eval.parallels_executeRound hp hs

theorem Task.Parallels.mono {task task' : Task} {Q : Pairing} (h : task.Parallels T P task')
    (hle : P ≤ Q) : task.Parallels T Q task' := by
  cases h with
  | evaluate hp he => exact .evaluate (hle _ _ _ hp) he
  | execute hp hs => exact .execute (hle _ _ _ hp) hs

/-- Parallel tasks end in parallel, or neither ends with the fuel. -/
theorem perform_parallels (fuel : Nat) : ∀ (P : Pairing) (task task' : Task) (m m' : Machine),
    task.Parallels T P task' → m.Parallels T P m' →
      (perform T.first fuel task m).Parallels T (fun Q => task.Yields T Q task') P
        (perform T.second fuel task' m') := by
  induction fuel with
  | zero =>
      intro P task task' m m' _ _
      exact .timeout
  | succ fuel ih =>
      intro P task task' m m' htask hm
      have hround := (Task.parallels_round htask P m m' (le_refl P) hm).run ih
      rw [perform, perform]
      generalize (task.round T.first m).run (perform T.first fuel) = o at hround
      generalize (task'.round T.second m').run (perform T.second fuel) = o' at hround
      cases hround with
      | timeout => exact .timeout
      | @ended Q r r' n n' hle hr hn =>
          cases hr with
          | error hfault => exact .ended hle (.error hfault) hn
          | ok hresult =>
              cases hresult with
              | some hyields => exact .ended hle (.ok hyields) hn
              | none => exact (ih Q task task' n n' (htask.mono hle) hn).since hle

/-! ## Ends of steps -/

namespace Eval.Parallels

variable {α β : Type} {R : Pairing → α → β → Prop} {x : Eval α} {x' : Eval β} {m m' n n' : Machine}
  {r : Except Fault α} {r' : Except Fault β}

theorem run (hx : x.Parallels T P R x') (hm : m.Parallels T P m') (fuel : Nat) :
    ((x T.first m).run (perform T.first fuel)).Parallels T R P
      ((x' T.second m').run (perform T.second fuel)) :=
  (hx P m m' (le_refl P) hm).run (perform_parallels fuel)

/-- If the first step ends, then so does the second. -/
theorem forth (hx : x.Parallels T P R x') (hm : m.Parallels T P m')
    (hends : x.Ends T.first m r n) :
    ∃ Q r' n', P ≤ Q ∧ Fault.ParallelsOr (R Q) r r' ∧ n.Parallels T Q n' ∧
      x'.Ends T.second m' r' n' := by
  rcases hends with ⟨fuel, hrun⟩
  have hsame := hx.run hm fuel
  rw [hrun] at hsame
  generalize hrun' : (x' T.second m').run (perform T.second fuel) = o' at hsame
  cases hsame with
  | @ended Q r r' n n' hle hr hn => exact ⟨Q, r', n', hle, hr, hn, fuel, hrun'⟩

/-- If the second step ends, then so does the first. -/
theorem back (hx : x.Parallels T P R x') (hm : m.Parallels T P m')
    (hends : x'.Ends T.second m' r' n') :
    ∃ Q r n, P ≤ Q ∧ Fault.ParallelsOr (R Q) r r' ∧ n.Parallels T Q n' ∧
      x.Ends T.first m r n := by
  rcases hends with ⟨fuel, hrun⟩
  have hsame := hx.run hm fuel
  rw [hrun] at hsame
  generalize hrun' : (x T.first m).run (perform T.first fuel) = o at hsame
  cases hsame with
  | @ended Q r r' n n' hle hr hn => exact ⟨Q, r, n, hle, hr, hn, fuel, hrun'⟩

end Eval.Parallels

end Lox
