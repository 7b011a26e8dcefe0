import Mathlib.Logic.Function.Iterate
import Lox.Proofs.Progress.Rules

/-!
# Reading an expression comes to an end

The steps that read expressions call each other, and fuel counts how deeply the calls may be nested. Here
the count is taken away: `ExpressionCalls.body` says what each step does with the calls it makes,
whatever these do. Iterated `n` times it answers the calls down to the depth `n`, and leaves open what is
done below.

Main statement: `ExpressionCalls.walk_iterate`. At a depth of eight times as many calls as there are
tokens it makes no difference what would be done below, so no call is ever nested so deeply.
-/

namespace Lox

namespace Parse

/-- The steps that read expressions, as they are called. -/
structure ExpressionCalls where
  expressionAt : Nat → Parse Expr
  operand : Parse Expr
  continueFrom : Nat → Expr → Parse Expr
  followOperand : Expr → Span → Follow → Parse Expr
  arguments : Parse (List Expr)
  moreArguments : Nat → Parse (List Expr)

namespace ExpressionCalls

/-- What each step does if its calls are answered by `k`. -/
def body (k : ExpressionCalls) : ExpressionCalls where
  expressionAt least := do
    let left ← k.operand
    k.continueFrom least left
  operand := do
    let token ← peek
    match UnaryOp.ofKind? token.kind, token.kind with
    | some op, _ =>
        let _ ← advance
        let inner ← k.expressionAt UnaryOp.power
        return .unary (← node token.span) op inner
    | none, .leftParen =>
        let _ ← advance
        let inner ← k.expressionAt 0
        let _ ← expect .rightParen .closeGroup
        return .group (← node token.span) inner
    | none, _ => atom token
  continueFrom least left := do
    let token ← peek
    match Follow.ofKind? token.kind with
    | none => return left
    | some follow =>
        if follow.leftPower < least then return left
        else
          let _ ← advance
          let longer ← k.followOperand left token.span follow
          k.continueFrom least longer
  followOperand left place follow := do
    match follow with
    | .call =>
        let values ← k.arguments
        let close ← expect .rightParen .closeArguments
        return .call (← node close.span) left values
    | .access =>
        let name ← ident .propertyName
        return .get (← node name.span).id left name
    | .binary op =>
        let right ← k.expressionAt follow.rightPower
        return .binary (← node place) op left right
    | .logical op =>
        let right ← k.expressionAt follow.rightPower
        return .logical (← node place) op left right
    | .assign =>
        let value ← k.expressionAt follow.rightPower
        assignTo left place value
  arguments := do
    if ← check .rightParen then return []
    else k.moreArguments 0
  moreArguments count := do
    limit .tooManyArguments count
    let first ← k.expressionAt 0
    if ← accept .comma then
      let others ← k.moreArguments (count + 1)
      return first :: others
    else return [first]

/-- The steps with as much fuel. -/
def ofFuel (fuel : Nat) : ExpressionCalls where
  expressionAt := Parse.expressionAt fuel
  operand := Parse.operand fuel
  continueFrom := Parse.continueFrom fuel
  followOperand := Parse.followOperand fuel
  arguments := Parse.arguments fuel
  moreArguments := Parse.moreArguments fuel

/-- Fuel counts how deeply calls may be nested. -/
theorem ofFuel_succ (fuel : Nat) : ofFuel (fuel + 1) = (ofFuel fuel).body :=
  rfl

theorem ofFuel_eq_iterate (fuel : Nat) : ofFuel fuel = body^[fuel] (ofFuel 0) := by
  induction fuel with
  | zero =>
      rfl
  | succ fuel ih =>
      rw [ofFuel_succ, ih, Function.iterate_succ_apply']

end ExpressionCalls

variable {ts : List Token} {n : Nat} {s : ParseState} {k k' : ExpressionCalls}

/-! ## Steps that make no calls -/

theorem walks_atom : Walks ts 1 (atom s.current) (atom s.current) s := by
  unfold atom
  split
  · -- A literal.
    rename_i value hvalue
    have hrest : s.rest ≠ [] := ne_nil_of_kind (Literal.kind_ne_eof hvalue) rfl
    exact (Walks.advance hrest).bind fun _ _ _ _ => (Walks.node _).andReturn
  · -- A variable.
    rename_i hkind
    have hrest : s.rest ≠ [] := ne_nil_of_kind (by decide) hkind
    exact (Walks.advance hrest).bind fun _ _ _ _ => (Walks.reference _).andReturn
  · -- The keyword `this`.
    rename_i hkind
    have hrest : s.rest ≠ [] := ne_nil_of_kind (by decide) hkind
    exact (Walks.advance hrest).bind fun _ _ _ _ => (Walks.node _).andReturn
  · -- The keyword `super` and a method of it.
    rename_i hkind
    have hrest : s.rest ≠ [] := ne_nil_of_kind (by decide) hkind
    refine (Walks.advance hrest).bind fun _ _ _ _ => ?_
    refine (Walks.expect (by decide) _).bind fun _ _ _ _ => ?_
    exact (Walks.ident _).bind fun _ _ _ _ => (Walks.node _).andReturn
  · exact .fail _

theorem walks_assignTo (target value : Expr) {equals : Span} (h : equals ∈ ts.map Token.span) :
    Walks ts 0 (assignTo target equals value) (assignTo target equals value) s := by
  cases target with
  | var old =>
      exact (Walks.reference _).andReturn
  | get id object name =>
      exact (Walks.node _).andReturn
  | _ =>
      exact (Walks.record _ h).andReturn

/-! ## Steps that call each other -/

/-- Calls that do the same, and go on, where they are nested at most `n` deep. How deep the calls below a
call can be nested depends on how many tokens are left. -/
structure ExpressionCalls.Walk (ts : List Token) (n : Nat) (k k' : ExpressionCalls) : Prop where
  -- At one state the calls lead from greater numbers to smaller ones, and a passed token is worth eight.
  expressionAt : ∀ least s, 8 * s.rest.length + 2 ≤ n →
    Walks ts 1 (k.expressionAt least) (k'.expressionAt least) s
  operand : ∀ s, 8 * s.rest.length + 1 ≤ n → Walks ts 1 k.operand k'.operand s
  continueFrom : ∀ least left s, 8 * s.rest.length + 1 ≤ n →
    Walks ts 0 (k.continueFrom least left) (k'.continueFrom least left) s
  followOperand : ∀ left place follow s, place ∈ ts.map Token.span → 8 * s.rest.length + 5 ≤ n →
    Walks ts 0 (k.followOperand left place follow) (k'.followOperand left place follow) s
  arguments : ∀ s, 8 * s.rest.length + 4 ≤ n → Walks ts 0 k.arguments k'.arguments s
  moreArguments : ∀ count s, 8 * s.rest.length + 3 ≤ n →
    Walks ts 0 (k.moreArguments count) (k'.moreArguments count) s

namespace ExpressionCalls.Walk

section Body

variable (h : Walk ts n k k')

include h

theorem body_expressionAt (least : Nat) (hn : 8 * s.rest.length + 1 ≤ n) :
    Walks ts 1 (k.body.expressionAt least) (k'.body.expressionAt least) s := by
  refine (h.operand s hn).bind ?_
  intro left t _ hlength
  exact h.continueFrom least left t (by omega)

theorem body_operand (hn : 8 * s.rest.length ≤ n) :
    Walks ts 1 k.body.operand k'.body.operand s := by
  refine .peek ?_
  split
  · -- An operator before its operand.
    rename_i op hop
    have hkind : s.current.kind ≠ .eof := by
      intro heof
      rw [heof] at hop
      cases hop
    have hrest : s.rest ≠ [] := ne_nil_of_kind hkind rfl
    refine (Walks.advance hrest).bind ?_
    intro _ t₁ _ hlength₁
    refine (h.expressionAt _ t₁ (by omega)).bind ?_
    intro inner t₂ _ _
    exact (Walks.node _).andReturn
  · -- A group.
    rename_i hkind
    have hrest : s.rest ≠ [] := ne_nil_of_kind (by decide) hkind
    refine (Walks.advance hrest).bind ?_
    intro _ t₁ _ hlength₁
    refine (h.expressionAt _ t₁ (by omega)).bind ?_
    intro inner t₂ _ _
    refine (Walks.expect (by decide) _).bind ?_
    intro _ t₃ _ _
    exact (Walks.node _).andReturn
  · exact walks_atom

theorem body_continueFrom (least : Nat) (left : Expr) (hn : 8 * s.rest.length ≤ n) :
    Walks ts 0 (k.body.continueFrom least left) (k'.body.continueFrom least left) s := by
  intro hs
  refine Walks.peek ?_ hs
  cases hfollow : Follow.ofKind? s.current.kind with
  | none =>
      exact .pure left
  | some follow =>
      have hkind : s.current.kind ≠ .eof := by
        intro heof
        rw [heof] at hfollow
        cases hfollow
      have hrest : s.rest ≠ [] := ne_nil_of_kind hkind rfl
      dsimp only
      split
      · exact .pure left
      · -- The operator is passed, so eight more calls may be nested.
        refine (Walks.advance hrest).bind ?_
        intro _ t₁ _ hlength₁
        refine (h.followOperand left _ follow t₁ hs.span_current (by omega)).bind ?_
        intro longer t₂ _ hlength₂
        exact h.continueFrom least longer t₂ (by omega)

theorem body_followOperand (left : Expr) {place : Span} (follow : Follow)
    (hplace : place ∈ ts.map Token.span) (hn : 8 * s.rest.length + 4 ≤ n) :
    Walks ts 0 (k.body.followOperand left place follow) (k'.body.followOperand left place follow) s := by
  cases follow with
  | call =>
      refine (h.arguments s hn).bind ?_
      intro values t₁ _ _
      refine (Walks.expect (by decide) _).bind ?_
      intro close t₂ _ _
      exact (Walks.node _).andReturn
  | access =>
      refine (Walks.ident _).bind ?_
      intro name t₁ _ _
      exact (Walks.node _).andReturn
  | binary op =>
      refine (h.expressionAt _ s (by omega)).bind ?_
      intro right t₁ _ _
      exact (Walks.node _).andReturn
  | logical op =>
      refine (h.expressionAt _ s (by omega)).bind ?_
      intro right t₁ _ _
      exact (Walks.node _).andReturn
  | assign =>
      refine (h.expressionAt _ s (by omega)).bind ?_
      intro value t₁ _ _
      exact walks_assignTo left value hplace

theorem body_arguments (hn : 8 * s.rest.length + 3 ≤ n) :
    Walks ts 0 k.body.arguments k'.body.arguments s :=
  .check (.ite (fun _ => .pure []) fun _ => h.moreArguments 0 s hn)

theorem body_moreArguments (count : Nat) (hn : 8 * s.rest.length + 2 ≤ n) :
    Walks ts 0 (k.body.moreArguments count) (k'.body.moreArguments count) s := by
  refine (Walks.limit _ count).bind ?_
  intro _ t₁ _ hlength₁
  refine (h.expressionAt 0 t₁ (by omega)).bind ?_
  intro first t₂ _ hlength₂
  refine .accept (by decide) ?_ (.pure _)
  intro hlength₃
  exact (h.moreArguments (count + 1) _ (by omega)).andReturn

theorem body : Walk ts (n + 1) k.body k'.body where
  expressionAt least _ hn := h.body_expressionAt least (by omega)
  operand _ hn := h.body_operand (by omega)
  continueFrom least left _ hn := h.body_continueFrom least left (by omega)
  followOperand left _ follow _ hplace hn := h.body_followOperand left follow hplace (by omega)
  arguments _ hn := h.body_arguments (by omega)
  moreArguments count _ hn := h.body_moreArguments count (by omega)

end Body

end ExpressionCalls.Walk

namespace ExpressionCalls

/-- What is done below makes no difference. -/
theorem walk_iterate (ts : List Token) (n : Nat) (k k' : ExpressionCalls) :
    Walk ts n (ExpressionCalls.body^[n] k) (ExpressionCalls.body^[n] k') := by
  induction n with
  | zero =>
      -- No call fits into no depth at all.
      refine ⟨?_, ?_, ?_, ?_, ?_, ?_⟩ <;> intros <;> omega
  | succ n ih =>
      rw [Function.iterate_succ_apply', Function.iterate_succ_apply']
      exact ih.body

theorem walk_ofFuel (ts : List Token) (k : ExpressionCalls) {n depth fuel : Nat} (hdepth : n ≤ depth)
    (hfuel : n ≤ fuel) : Walk ts n (ExpressionCalls.body^[depth] k) (ofFuel fuel) := by
  rcases Nat.exists_eq_add_of_le hdepth with ⟨d, rfl⟩
  rcases Nat.exists_eq_add_of_le hfuel with ⟨d', rfl⟩
  rw [ofFuel_eq_iterate, Function.iterate_add_apply, Function.iterate_add_apply]
  exact walk_iterate ts n _ _

end ExpressionCalls

theorem walks_expression (s : ParseState) : Walks ts 1 expression expression s := by
  have hwalk := ExpressionCalls.walk_ofFuel ts (.ofFuel 0) (Nat.le_refl s.fuel) (Nat.le_refl s.fuel)
  have hfuel : 8 * s.rest.length + 2 ≤ s.fuel := by
    simp only [ParseState.fuel]
    omega
  exact Walks.self (.fuelled (hwalk.expressionAt 0 s hfuel))

end Parse

end Lox
