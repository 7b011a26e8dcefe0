import Lox.Proofs.Rereading.Rules
import Lox.Syntax.Expression

/-!
# Reading expressions once more

An expression reads as it did before if a token is left behind it. How much fuel there is makes no
difference as long as it is enough: at every token at most eight steps are taken.

Main statement: `Parse.repeats_expression`.
-/

namespace Lox

namespace Parse

variable {k : Rereading} {hand : Prop} {n : Nat}

theorem Literal.kind_ne_eof {token : Token} {value : Literal}
    (h : Literal.ofToken? token = some value) : token.kind ≠ .eof := by
  intro hkind
  unfold Literal.ofToken? at h
  rw [hkind] at h
  cases h

/-- An expression gets a number of its own once its parts are read. -/
theorem repeats_made {make make' : Node → Expr} {place place' : Span}
    (hplace : place' = k.change.place place)
    (hmake : ∀ node : Node, make' (node.relabel k.change) = (make node).relabel k.change) :
    Repeats k hand n 0 false (Expr.relabel k.change) (do return make (← node place))
      (do return make' (← node place')) := by
  refine (repeats_node hplace).bind rfl ?_
  intro m node _
  exact .pure (hmake node)

theorem repeats_atom (token : Token) :
    Repeats k (token.kind ≠ .eof) n 1 false (Expr.relabel k.change) (atom token)
      (atom (token.relabel k.change)) := by
  unfold atom
  rw [show Literal.ofToken? (token.relabel k.change) = Literal.ofToken? token from rfl,
    show (token.relabel k.change).kind = token.kind from rfl]
  split
  · rename_i value hvalue
    refine (repeats_advance (Literal.kind_ne_eof hvalue)).bind rfl ?_
    intro m _ _
    exact repeats_made rfl fun _ => rfl
  · rename_i hkind
    refine (repeats_advance (by simp [hkind])).bind rfl ?_
    intro m _ _
    refine (repeats_reference rfl).bind rfl ?_
    intro m' r _
    exact .pure rfl
  · rename_i hkind
    refine (repeats_advance (by simp [hkind])).bind rfl ?_
    intro m _ _
    exact repeats_made rfl fun _ => rfl
  · rename_i hkind
    refine (repeats_advance (by simp [hkind])).bind rfl ?_
    intro m₁ _ _
    refine (repeats_expect (by decide) _).bind rfl ?_
    intro m₂ _ _
    refine (repeats_ident _).bind rfl ?_
    intro m₃ method _
    exact repeats_made rfl fun _ => rfl
  · exact repeats_fail _

theorem repeats_assignTo (target : Expr) (equals : Span) (value : Expr) :
    Repeats k hand n 0 false (Expr.relabel k.change) (assignTo target equals value)
      (assignTo (target.relabel k.change) (k.change.place equals) (value.relabel k.change)) := by
  -- What is a target does not depend on numbers and places.
  cases target with
  | var old =>
      refine (repeats_reference rfl).bind rfl ?_
      intro m r _
      exact .pure rfl
  | get id object name =>
      exact repeats_made rfl fun _ => rfl
  | _ =>
      refine (repeats_record _ rfl).bind rfl ?_
      intro m _ _
      exact .pure rfl

/-- The steps that read expressions read the same once more if there is enough fuel for the tokens
that are left. -/
structure RepeatsExpressions (k : Rereading) (fuel fuel' : Nat) : Prop where
  expressionAt : ∀ {hand n} least, 8 * n + 2 ≤ min fuel fuel' →
    Repeats k hand n 1 false (Expr.relabel k.change) (expressionAt fuel least)
      (expressionAt fuel' least)
  operand : ∀ {hand n}, 8 * n + 1 ≤ min fuel fuel' →
    Repeats k hand n 1 false (Expr.relabel k.change) (operand fuel) (operand fuel')
  continueFrom : ∀ {n} least left, 8 * n + 1 ≤ min fuel fuel' →
    Repeats k False n 0 false (Expr.relabel k.change) (continueFrom fuel least left)
      (continueFrom fuel' least (left.relabel k.change))
  followOperand : ∀ {n} left place follow, 8 * n + 5 ≤ min fuel fuel' →
    Repeats k False n 0 false (Expr.relabel k.change) (followOperand fuel left place follow)
      (followOperand fuel' (left.relabel k.change) (k.change.place place) follow)
  arguments : ∀ {n}, 8 * n + 4 ≤ min fuel fuel' →
    Repeats k False n 0 false (Expr.relabelAll k.change) (arguments fuel) (arguments fuel')
  moreArguments : ∀ {n} count, 8 * n + 3 ≤ min fuel fuel' →
    Repeats k False n 0 false (Expr.relabelAll k.change) (moreArguments fuel count)
      (moreArguments fuel' count)

section Step

variable {fuel fuel' : Nat} (ih : RepeatsExpressions k fuel fuel')

include ih

theorem repeats_expressionAt_succ (least : Nat) (hfuel : 8 * n + 1 ≤ min fuel fuel') :
    Repeats k hand n 1 false (Expr.relabel k.change) (expressionAt (fuel + 1) least)
      (expressionAt (fuel' + 1) least) := by
  rw [expressionAt, expressionAt]
  refine (ih.operand hfuel).bind rfl ?_
  intro m left hm
  exact ih.continueFrom least left (by omega)

theorem repeats_operand_succ (hfuel : 8 * n ≤ min fuel fuel') :
    Repeats k hand n 1 false (Expr.relabel k.change) (operand (fuel + 1))
      (operand (fuel' + 1)) := by
  rw [operand, operand]
  refine repeats_peek.bindSeen seen_peek rfl ?_
  intro m token hm
  rw [show (token.relabel k.change).kind = token.kind from rfl]
  split
  · rename_i op hop
    have hkind : token.kind ≠ .eof := by
      intro hkind
      rw [hkind] at hop
      cases hop
    refine (repeats_advance hkind).bind rfl ?_
    intro m₁ _ hm₁
    refine (ih.expressionAt _ (by omega)).bind rfl ?_
    intro m₂ inner _
    exact repeats_made rfl fun _ => rfl
  · rename_i hkind
    refine (repeats_advance (by simp [hkind])).bind rfl ?_
    intro m₁ _ hm₁
    refine (ih.expressionAt _ (by omega)).bind rfl ?_
    intro m₂ inner _
    refine (repeats_expect (by decide) _).bind rfl ?_
    intro m₃ _ _
    exact repeats_made rfl fun _ => rfl
  · exact repeats_atom token

theorem repeats_continueFrom_succ (least : Nat) (left : Expr) (hfuel : 8 * n ≤ min fuel fuel') :
    Repeats k False n 0 false (Expr.relabel k.change) (continueFrom (fuel + 1) least left)
      (continueFrom (fuel' + 1) least (left.relabel k.change)) := by
  rw [continueFrom, continueFrom]
  refine repeats_peek.bindSeen seen_peek rfl ?_
  intro m token hm
  -- Only the kind of the token decides how the expression goes on.
  rw [show (token.relabel k.change).kind = token.kind from rfl]
  cases hfollow : Follow.ofKind? token.kind with
  | none =>
      exact .pure rfl
  | some follow =>
      have hkind : token.kind ≠ .eof := by
        intro hkind
        rw [hkind] at hfollow
        cases hfollow
      dsimp only
      split
      · exact .pure rfl
      · -- The operator is used up, so there is fuel for eight more steps.
        refine (repeats_advance hkind).bind rfl ?_
        intro m₁ _ hm₁
        refine (ih.followOperand left token.span follow (by omega)).bind rfl ?_
        intro m₂ longer hm₂
        exact ih.continueFrom least longer (by omega)

theorem repeats_followOperand_succ (left : Expr) (place : Span) (follow : Follow)
    (hfuel : 8 * n + 4 ≤ min fuel fuel') :
    Repeats k False n 0 false (Expr.relabel k.change)
      (followOperand (fuel + 1) left place follow)
      (followOperand (fuel' + 1) (left.relabel k.change) (k.change.place place) follow) := by
  cases follow with
  | call =>
      rw [followOperand, followOperand]
      refine (ih.arguments hfuel).bind rfl ?_
      intro m₁ values _
      refine (repeats_expect (by decide) _).bind rfl ?_
      intro m₂ close _
      exact repeats_made rfl fun _ => rfl
  | access =>
      rw [followOperand, followOperand]
      refine (repeats_ident _).bind rfl ?_
      intro m₁ name _
      exact repeats_made rfl fun _ => rfl
  | binary op =>
      rw [followOperand, followOperand]
      refine (ih.expressionAt _ (by omega)).bind rfl ?_
      intro m₁ right _
      exact repeats_made rfl fun _ => rfl
  | logical op =>
      rw [followOperand, followOperand]
      refine (ih.expressionAt _ (by omega)).bind rfl ?_
      intro m₁ right _
      exact repeats_made rfl fun _ => rfl
  | assign =>
      rw [followOperand, followOperand]
      refine (ih.expressionAt _ (by omega)).bind rfl ?_
      intro m₁ value _
      exact repeats_assignTo left place value

theorem repeats_arguments_succ (hfuel : 8 * n + 3 ≤ min fuel fuel') :
    Repeats k False n 0 false (Expr.relabelAll k.change) (arguments (fuel + 1))
      (arguments (fuel' + 1)) := by
  rw [arguments, arguments]
  refine (repeats_check _).bind rfl ?_
  intro m b hm
  refine .ite ?_ ?_
  · intro _
    exact .pure rfl
  · intro _
    exact ih.moreArguments 0 (by omega)

theorem repeats_moreArguments_succ (count : Nat) (hfuel : 8 * n + 2 ≤ min fuel fuel') :
    Repeats k False n 0 false (Expr.relabelAll k.change) (moreArguments (fuel + 1) count)
      (moreArguments (fuel' + 1) count) := by
  rw [moreArguments, moreArguments]
  refine (repeats_limit _ count).bind rfl ?_
  intro m₁ _ hm₁
  refine (ih.expressionAt 0 (by omega)).bind rfl ?_
  intro m₂ first hm₂
  refine (repeats_accept (by decide)).bind rfl ?_
  intro m₃ b hm₃
  refine .ite ?_ ?_
  · intro _
    refine (ih.moreArguments (count + 1) (by omega)).bind rfl ?_
    intro m₄ others _
    exact .pure rfl
  · intro _
    exact .pure rfl

end Step

theorem repeatsExpressions (k : Rereading) (fuel : Nat) :
    ∀ fuel', RepeatsExpressions k fuel fuel' := by
  induction fuel with
  | zero =>
      -- Without fuel there are no tokens for which it is enough.
      intro fuel'
      refine ⟨?_, ?_, ?_, ?_, ?_, ?_⟩ <;> intros <;> omega
  | succ fuel ih =>
      intro fuel'
      cases fuel' with
      | zero =>
          refine ⟨?_, ?_, ?_, ?_, ?_, ?_⟩ <;> intros <;> omega
      | succ fuel' =>
          refine ⟨?_, ?_, ?_, ?_, ?_, ?_⟩
          · intro hand n least hfuel
            exact repeats_expressionAt_succ (ih fuel') least (by omega)
          · intro hand n hfuel
            exact repeats_operand_succ (ih fuel') (by omega)
          · intro n least left hfuel
            exact repeats_continueFrom_succ (ih fuel') least left (by omega)
          · intro n left place follow hfuel
            exact repeats_followOperand_succ (ih fuel') left place follow (by omega)
          · intro n hfuel
            exact repeats_arguments_succ (ih fuel') (by omega)
          · intro n count hfuel
            exact repeats_moreArguments_succ (ih fuel') count (by omega)

theorem repeats_expression :
    Repeats k hand n 1 false (Expr.relabel k.change) expression expression := by
  refine .fuelled ?_
  intro m fuel fuel' hfuel _
  exact (repeatsExpressions k fuel fuel').expressionAt 0 (by omega)

end Parse

end Lox
