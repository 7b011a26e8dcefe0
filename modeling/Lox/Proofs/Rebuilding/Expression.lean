import Lox.Proofs.Rebuilding.Rules

/-!
# Reading expressions into an arena once more

An expression adds the nodes that it added before if a token is left behind it, also those that turn
out to be the targets of assignments.

Main statement: `Build.repeats_expression`.
-/

namespace Lox

namespace Build

variable {k : Sequel} {hand : Prop} {n : Nat}

/-- A node is added where a token is left behind its expression. -/
theorem repeats_node (node : ExprNode) (span : Span) :
    Repeats k hand n 0 false (pushExpression node span) (pushExpression node span) :=
  (repeats_pushExpression node span).ofClosed

theorem repeats_atom (token : Token) :
    Repeats k (token.kind ≠ .eof) n 1 false (atom token) (atom token) := by
  unfold atom
  split
  · rename_i value hvalue
    refine (repeats_advance (Parse.Literal.kind_ne_eof hvalue)).bind rfl ?_
    intro m _ _
    exact repeats_node _ _
  · rename_i hkind
    refine (repeats_advance (by simp [hkind])).bind rfl ?_
    intro m _ _
    exact repeats_node _ _
  · rename_i hkind
    refine (repeats_advance (by simp [hkind])).bind rfl ?_
    intro m _ _
    exact repeats_node _ _
  · rename_i hkind
    refine (repeats_advance (by simp [hkind])).bind rfl ?_
    intro m₁ _ _
    refine (repeats_expect (by decide) _).bind rfl ?_
    intro m₂ _ _
    refine (repeats_ident _).bind rfl ?_
    intro m₃ method _
    exact repeats_node _ _
  · exact repeats_fail _

/-- The target is found among the nodes, which are the same. -/
theorem repeats_assignTo (target : Index) (equals : Span) (value : Index) :
    Repeats k hand n 0 false (assignTo target equals value) (assignTo target equals value) := by
  unfold assignTo
  refine (repeats_expression? target).bind rfl ?_
  intro m entry _
  split
  · exact repeats_node _ _
  · exact repeats_node _ _
  · refine (repeats_record _ equals).bind rfl ?_
    intro m' _ _
    exact .pure target

/-- The steps that read expressions into an arena add the same once more if there is enough fuel for
the tokens that are left. -/
structure RepeatsExpressions (k : Sequel) (fuel fuel' : Nat) : Prop where
  expressionAt : ∀ {hand n} least, 8 * n + 2 ≤ min fuel fuel' →
    Repeats k hand n 1 false (expressionAt fuel least) (expressionAt fuel' least)
  operand : ∀ {hand n}, 8 * n + 1 ≤ min fuel fuel' →
    Repeats k hand n 1 false (operand fuel) (operand fuel')
  continueFrom : ∀ {n} least left, 8 * n + 1 ≤ min fuel fuel' →
    Repeats k False n 0 false (continueFrom fuel least left) (continueFrom fuel' least left)
  followOperand : ∀ {n} left place follow, 8 * n + 5 ≤ min fuel fuel' →
    Repeats k False n 0 false (followOperand fuel left place follow)
      (followOperand fuel' left place follow)
  arguments : ∀ {n}, 8 * n + 4 ≤ min fuel fuel' →
    Repeats k False n 0 false (arguments fuel) (arguments fuel')
  moreArguments : ∀ {n} count, 8 * n + 3 ≤ min fuel fuel' →
    Repeats k False n 0 false (moreArguments fuel count) (moreArguments fuel' count)

section Step

variable {fuel fuel' : Nat} (ih : RepeatsExpressions k fuel fuel')

include ih

theorem repeats_expressionAt_succ (least : Nat) (hfuel : 8 * n + 1 ≤ min fuel fuel') :
    Repeats k hand n 1 false (expressionAt (fuel + 1) least) (expressionAt (fuel' + 1) least) := by
  rw [expressionAt, expressionAt]
  refine (ih.operand hfuel).bind rfl ?_
  intro m left hm
  exact ih.continueFrom least left (by omega)

theorem repeats_operand_succ (hfuel : 8 * n ≤ min fuel fuel') :
    Repeats k hand n 1 false (operand (fuel + 1)) (operand (fuel' + 1)) := by
  rw [operand, operand]
  refine repeats_peek.bindSeen (seen_read Parse.seen_peek) rfl ?_
  intro m token hm
  split
  · rename_i op hop
    have hkind : token.kind ≠ .eof := by
      intro hkind
      rw [hkind] at hop
      cases hop
    refine (repeats_advance hkind).bind rfl ?_
    intro m₁ _ hm₁
    refine (ih.expressionAt _ (by omega)).bind rfl ?_
    intro m₂ inner _
    exact repeats_node _ _
  · rename_i hkind
    refine (repeats_advance (by simp [hkind])).bind rfl ?_
    intro m₁ _ hm₁
    refine (ih.expressionAt _ (by omega)).bind rfl ?_
    intro m₂ inner _
    refine (repeats_expect (by decide) _).bind rfl ?_
    intro m₃ _ _
    exact repeats_node _ _
  · exact repeats_atom token

theorem repeats_continueFrom_succ (least : Nat) (left : Index) (hfuel : 8 * n ≤ min fuel fuel') :
    Repeats k False n 0 false (continueFrom (fuel + 1) least left)
      (continueFrom (fuel' + 1) least left) := by
  rw [continueFrom, continueFrom]
  refine repeats_peek.bindSeen (seen_read Parse.seen_peek) rfl ?_
  intro m token hm
  cases hfollow : Follow.ofKind? token.kind with
  | none =>
      exact .pure left
  | some follow =>
      have hkind : token.kind ≠ .eof := by
        intro hkind
        rw [hkind] at hfollow
        cases hfollow
      dsimp only
      split
      · exact .pure left
      · -- The operator is used up, so there is fuel for eight more steps.
        refine (repeats_advance hkind).bind rfl ?_
        intro m₁ _ hm₁
        refine (ih.followOperand left token.span follow (by omega)).bind rfl ?_
        intro m₂ longer hm₂
        exact ih.continueFrom least longer (by omega)

theorem repeats_followOperand_succ (left : Index) (place : Span) (follow : Follow)
    (hfuel : 8 * n + 4 ≤ min fuel fuel') :
    Repeats k False n 0 false (followOperand (fuel + 1) left place follow)
      (followOperand (fuel' + 1) left place follow) := by
  cases follow with
  | call =>
      rw [followOperand, followOperand]
      refine (ih.arguments hfuel).bind rfl ?_
      intro m₁ values _
      refine (repeats_expect (by decide) _).bind rfl ?_
      intro m₂ close _
      exact repeats_node _ _
  | access =>
      rw [followOperand, followOperand]
      refine (repeats_ident _).bind rfl ?_
      intro m₁ name _
      exact repeats_node _ _
  | binary op =>
      rw [followOperand, followOperand]
      refine (ih.expressionAt _ (by omega)).bind rfl ?_
      intro m₁ right _
      exact repeats_node _ _
  | logical op =>
      rw [followOperand, followOperand]
      refine (ih.expressionAt _ (by omega)).bind rfl ?_
      intro m₁ right _
      exact repeats_node _ _
  | assign =>
      rw [followOperand, followOperand]
      refine (ih.expressionAt _ (by omega)).bind rfl ?_
      intro m₁ value _
      exact repeats_assignTo left place value

theorem repeats_arguments_succ (hfuel : 8 * n + 3 ≤ min fuel fuel') :
    Repeats k False n 0 false (arguments (fuel + 1)) (arguments (fuel' + 1)) := by
  rw [arguments, arguments]
  refine (repeats_check _).bind rfl ?_
  intro m x hm
  refine .ite ?_ ?_
  · intro _
    exact .pure []
  · intro _
    exact ih.moreArguments 0 (by omega)

theorem repeats_moreArguments_succ (count : Nat) (hfuel : 8 * n + 2 ≤ min fuel fuel') :
    Repeats k False n 0 false (moreArguments (fuel + 1) count)
      (moreArguments (fuel' + 1) count) := by
  rw [moreArguments, moreArguments]
  refine (repeats_limit _ count).bind rfl ?_
  intro m₁ _ hm₁
  refine (ih.expressionAt 0 (by omega)).bind rfl ?_
  intro m₂ first hm₂
  refine (repeats_accept (by decide)).bind rfl ?_
  intro m₃ x hm₃
  refine .ite ?_ ?_
  · intro _
    refine (ih.moreArguments (count + 1) (by omega)).bind rfl ?_
    intro m₄ others _
    exact .pure _
  · intro _
    exact .pure _

end Step

theorem repeatsExpressions (k : Sequel) (fuel : Nat) :
    ∀ fuel', RepeatsExpressions k fuel fuel' := by
  induction fuel with
  | zero =>
      -- Without fuel there are no tokens for which it is enough.
      intro fuel'
      refine ⟨?_, ?_, ?_, ?_, ?_, ?_⟩ <;> intros <;> omega
  | succ fuel ih =>
      intro fuel'
      cases fuel' with
      | zero =>
          refine ⟨?_, ?_, ?_, ?_, ?_, ?_⟩ <;> intros <;> omega
      | succ fuel' =>
          refine ⟨?_, ?_, ?_, ?_, ?_, ?_⟩
          · intro hand n least hfuel
            exact repeats_expressionAt_succ (ih fuel') least (by omega)
          · intro hand n hfuel
            exact repeats_operand_succ (ih fuel') (by omega)
          · intro n least left hfuel
            exact repeats_continueFrom_succ (ih fuel') least left (by omega)
          · intro n left place follow hfuel
            exact repeats_followOperand_succ (ih fuel') left place follow (by omega)
          · intro n hfuel
            exact repeats_arguments_succ (ih fuel') (by omega)
          · intro n count hfuel
            exact repeats_moreArguments_succ (ih fuel') count (by omega)

theorem repeats_expression : Repeats k hand n 1 false expression expression := by
  refine .fuelled ?_
  intro m fuel fuel' hfuel _
  exact (repeatsExpressions k fuel fuel').expressionAt 0 (by omega)

end Build

end Lox
