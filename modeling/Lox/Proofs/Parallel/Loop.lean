import Lox.Proofs.Eval.Loop
import Lox.Proofs.Parallel.Perform

/-!
# The tree for a loop and the loop itself

The tree that is read for a `for` loop opens a block in each round if there is an increment, and nothing
is declared in that block: its frame is hollow. So a run of the tree is parallel to a run of the loop
itself, whose parts are copied and whose references are resolved where there is no such block.

Main statements: `LoopEnds.forth` and `LoopEnds.back`.
-/

namespace Lox

variable {T : Tracks} {P : Pairing} {f f' : FrameId}

/-- Where the parts of a round have the hollow frame. There is one if there is an increment. -/
def Parse.ForClauses.hollow (clauses : ForClauses) : Hollow :=
  clauses.increment.map fun _ => 0

/-- The parts of a loop and a copy of them, for runs of which only the first opens a block in each
round. -/
structure Parse.ForClauses.Parallels (T : Tracks) (clauses clauses' : ForClauses)
    (body body' : Stmt) : Prop where
  initializer : Option.Rel (Stmt.Parallels T none) clauses.initializer clauses'.initializer
  condition : Option.Rel (Expr.Parallels T none) clauses.condition clauses'.condition
  body : body.Parallels T clauses.hollow body'
  increment : Option.Rel (Expr.Parallels T (some 0)) clauses.increment clauses'.increment

namespace Eval

variable {clauses clauses' : Parse.ForClauses} {body body' : Stmt}

/-- Only the first run makes a frame, and goes on in it as the second run does outside. -/
theorem parallels_hollowScope {α β : Type} {S : Pairing → α → β → Prop} {y : FrameId → Eval α}
    {y' : Eval β} (hp : P none f f')
    (hy : ∀ Q g, P ≤ Q → Q (some 0) g f' → (y g).Parallels T Q S y') :
    (create (fun s => s.newScope f) >>= y).Parallels T P S y' := by
  intro Q m m' hle hm
  have hle' := Q.le_add (some 0) m.store.frames.size f'
  have hm' : Machine.Parallels T _ { m with store := (m.store.newScope f).2 } m' :=
    ⟨hm.store.hollowScope (hle _ _ _ hp), hle' _ _ _ hm.root, hm.depth, hm.readings, hm.printed⟩
  exact (hy _ _ (hle.trans hle') (Q.add_self _ _ _) _ _ _ (le_refl _) hm').since hle'

theorem parallels_holds {condition condition' : Option Expr} (hp : P none f f')
    (h : Option.Rel (Expr.Parallels T none) condition condition') :
    (holds f condition).Parallels T P (fun _ b b' => b' = b) (holds f' condition') := by
  cases h with
  | none => exact .pure fun _ _ => rfl
  | some he =>
      refine (parallels_evaluate hp he).bind ?_
      exact fun Q v v' _ hv => .pure fun _ _ => hv.isTruthy

/-- The body of a round and then the increment, in frames that stand for each other. -/
theorem parallels_body {k : Hollow} {g g' : FrameId} {increment increment' : Option Expr}
    (hp : P k g g') (hbody : body.Parallels T k body')
    (hincrement : Option.Rel (Expr.Parallels T k) increment increment') :
    (do match ← execute g body with
        | .returned value => return some (.returned value)
        | .normal =>
            let _ ← evaluateOption g increment
            return none : Eval (Option Flow)).Parallels T P (Rounds T)
      (do match ← execute g' body' with
          | .returned value => return some (.returned value)
          | .normal =>
              let _ ← evaluateOption g' increment'
              return none) := by
  refine (parallels_execute hp hbody).bind ?_
  intro Q w w' hle hw
  cases hw with
  | returned hv => exact .pure fun _ hle' => .some (.returned (hv.mono hle'))
  | normal =>
      refine (parallels_evaluateOption (hle _ _ _ hp) hincrement).bind ?_
      exact fun _ _ _ _ _ => .pure fun _ _ => .none

theorem parallels_round (h : clauses.Parallels T clauses' body body') (hp : P none f f') :
    (blockRound clauses body f).Parallels T P (Rounds T) (forRound clauses' body' f') := by
  refine (parallels_holds hp h.condition).bind ?_
  rintro Q b _ hle rfl
  have hq := hle _ _ _ hp
  split
  · have hbody := h.body
    unfold Parse.ForClauses.hollow at hbody
    unfold roundFrame
    rcases h.increment.inv with ⟨he, he'⟩ | ⟨e, e', he, he', hincrement⟩
    · rw [he] at hbody
      rw [he, he']
      exact parallels_body hq hbody .none
    · rw [he] at hbody
      rw [he, he']
      refine parallels_hollowScope hq ?_
      exact fun Q₁ g _ hg => parallels_body hg hbody (.some hincrement)
  · exact .pure fun _ _ => .some .normal

/-- Both runs open the scope of the loop. -/
theorem parallels_enterFor (h : clauses.Parallels T clauses' body body') (hp : P none f f') :
    (enterFor clauses f).Parallels T P (fun Q g g' => Q none g g') (enterFor clauses' f') := by
  unfold enterFor
  rcases h.initializer.inv with ⟨hs, hs'⟩ | ⟨s, s', hs, hs', hinitializer⟩
  · rw [hs, hs']
    exact .pure fun _ hle => hle _ _ _ hp
  · rw [hs, hs']
    refine (parallels_newScope hp).bind ?_
    intro Q g g' _ hg
    refine (parallels_execute hg hinitializer).bind ?_
    exact fun Q₁ _ _ hle₁ _ => .pure fun _ hle₂ => hle₂ _ _ _ (hle₁ _ _ _ hg)

end Eval

/-! ## Rounds that follow each other -/

section Rounds

variable {α β : Type} {R : Pairing → α → β → Prop} {x : Eval (Option α)} {x' : Eval (Option β)}

/-- If the first run comes to an end after some rounds, then so does the second. -/
theorem RoundsEnd.forth (hx : x.Parallels T P (fun Q => Option.Rel (R Q)) x') {m n : Machine}
    {r : Except Fault α} (hends : RoundsEnd T.first x m r n) :
    ∀ {Q : Pairing} {m' : Machine}, P ≤ Q → m.Parallels T Q m' →
      ∃ Q' r' n', Q ≤ Q' ∧ Fault.ParallelsOr (R Q') r r' ∧ n.Parallels T Q' n' ∧
        RoundsEnd T.second x' m' r' n' := by
  induction hends with
  | last hround =>
      intro Q m' hle hm
      rcases (hx.mono hle).forth hm hround with ⟨Q', r', n', hle', hr, hn, hround'⟩
      cases hr with
      | ok hab => cases hab with
        | some hab => exact ⟨Q', _, n', hle', .ok hab, hn, .last hround'⟩
  | fault hround =>
      intro Q m' hle hm
      rcases (hx.mono hle).forth hm hround with ⟨Q', r', n', hle', hr, hn, hround'⟩
      cases hr with
      | error hfault => exact ⟨Q', _, n', hle', .error hfault, hn, .fault hround'⟩
  | again hround _ ih =>
      intro Q m' hle hm
      rcases (hx.mono hle).forth hm hround with ⟨Q₁, r₁, n₁, hle₁, hr, hn, hround'⟩
      cases hr with
      | ok hab => cases hab with
        | none =>
            rcases ih (hle.trans hle₁) hn with ⟨Q', r', n', hle', hr', hn', hrest⟩
            exact ⟨Q', r', n', hle₁.trans hle', hr', hn', .again hround' hrest⟩

/-- If the second run comes to an end after some rounds, then so does the first. -/
theorem RoundsEnd.back (hx : x.Parallels T P (fun Q => Option.Rel (R Q)) x') {m' n' : Machine}
    {r' : Except Fault β} (hends : RoundsEnd T.second x' m' r' n') :
    ∀ {Q : Pairing} {m : Machine}, P ≤ Q → m.Parallels T Q m' →
      ∃ Q' r n, Q ≤ Q' ∧ Fault.ParallelsOr (R Q') r r' ∧ n.Parallels T Q' n' ∧
        RoundsEnd T.first x m r n := by
  induction hends with
  | last hround =>
      intro Q m hle hm
      rcases (hx.mono hle).back hm hround with ⟨Q', r, n, hle', hr, hn, hround'⟩
      cases hr with
      | ok hab => cases hab with
        | some hab => exact ⟨Q', _, n, hle', .ok hab, hn, .last hround'⟩
  | fault hround =>
      intro Q m hle hm
      rcases (hx.mono hle).back hm hround with ⟨Q', r, n, hle', hr, hn, hround'⟩
      cases hr with
      | error hfault => exact ⟨Q', _, n, hle', .error hfault, hn, .fault hround'⟩
  | again hround _ ih =>
      intro Q m hle hm
      rcases (hx.mono hle).back hm hround with ⟨Q₁, r₁, n₁, hle₁, hr, hn, hround'⟩
      cases hr with
      | ok hab => cases hab with
        | none =>
            rcases ih (hle.trans hle₁) hn with ⟨Q', r, n, hle', hr', hn', hrest⟩
            exact ⟨Q', r, n, hle₁.trans hle', hr', hn', .again hround' hrest⟩

end Rounds

/-! ## Loops -/

open Eval in
/-- If the tree for a loop comes to an end, then so does the loop itself. -/
theorem LoopEnds.forth {clauses clauses' : Parse.ForClauses} {body body' : Stmt}
    (h : clauses.Parallels T clauses' body body') (hp : P none f f') {m m' n : Machine}
    {r : Except Fault Flow} (hm : m.Parallels T P m')
    (hends : LoopEnds T.first (enterFor clauses f) (blockRound clauses body) m r n) :
    ∃ Q r' n', P ≤ Q ∧ Fault.ParallelsOr (Flow.Parallels T Q) r r' ∧ n.Parallels T Q n' ∧
      LoopEnds T.second (enterFor clauses' f') (forRound clauses' body') m' r' n' := by
  have henter := parallels_enterFor h hp
  cases hends with
  | fault hfirst =>
      rcases henter.forth hm hfirst with ⟨Q, r', n', hle, hr, hn, hfirst'⟩
      cases hr with
      | error hfault => exact ⟨Q, _, n', hle, .error hfault, hn, .fault hfirst'⟩
  | rounds hfirst hrounds =>
      rcases henter.forth hm hfirst with ⟨Q₁, r₁, n₁, hle₁, hr, hn, hfirst'⟩
      cases hr with
      | ok hq =>
          rcases hrounds.forth (parallels_round h hq) (le_refl Q₁) hn with
            ⟨Q, r', n', hle, hr', hn', hrounds'⟩
          exact ⟨Q, r', n', hle₁.trans hle, hr', hn', .rounds hfirst' hrounds'⟩

open Eval in
/-- If the loop itself comes to an end, then so does the tree for it. -/
theorem LoopEnds.back {clauses clauses' : Parse.ForClauses} {body body' : Stmt}
    (h : clauses.Parallels T clauses' body body') (hp : P none f f') {m m' n' : Machine}
    {r' : Except Fault Flow} (hm : m.Parallels T P m')
    (hends : LoopEnds T.second (enterFor clauses' f') (forRound clauses' body') m' r' n') :
    ∃ Q r n, P ≤ Q ∧ Fault.ParallelsOr (Flow.Parallels T Q) r r' ∧ n.Parallels T Q n' ∧
      LoopEnds T.first (enterFor clauses f) (blockRound clauses body) m r n := by
  have henter := parallels_enterFor h hp
  cases hends with
  | fault hfirst =>
      rcases henter.back hm hfirst with ⟨Q, r, n, hle, hr, hn, hfirst'⟩
      cases hr with
      | error hfault => exact ⟨Q, _, n, hle, .error hfault, hn, .fault hfirst'⟩
  | rounds hfirst hrounds =>
      rcases henter.back hm hfirst with ⟨Q₁, r₁, n₁, hle₁, hr, hn, hfirst'⟩
      cases hr with
      | ok hq =>
          rcases hrounds.back (parallels_round h hq) (le_refl Q₁) hn with
            ⟨Q, r, n, hle, hr', hn', hrounds'⟩
          exact ⟨Q, r, n, hle₁.trans hle, hr', hn', .rounds hfirst' hrounds'⟩

end Lox
