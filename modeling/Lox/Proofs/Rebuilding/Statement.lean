import Lox.Arena.Statement
import Lox.Proofs.Rebuilding.Expression

/-!
# Reading statements into an arena once more

A complete statement that has no mistake adds the nodes that it added before, whatever stands behind
it. What a `for` loop stands for is added behind its body, so nothing behind the loop is seen for that
either.

Main statement: `Build.repeats_fuelled_declaration`.
-/

namespace Lox

namespace Build

variable {k : Sequel} {hand : Prop} {n : Nat}

/-! ## Statements that hold no other statement -/

/-- A statement is added when its semicolon has been passed. -/
theorem repeats_ended (what : Expectation) (node : StmtNode) :
    Repeats k hand n 1 true
      (do
        let _ ← read (Parse.expect .semicolon what)
        pushStatement node)
      (do
        let _ ← read (Parse.expect .semicolon what)
        pushStatement node) := by
  refine (repeats_expect (by decide) what).bind rfl ?_
  intro m _ _
  exact repeats_pushStatement node

theorem repeats_expressionStatement :
    Repeats k hand n 2 true expressionStatement expressionStatement := by
  refine repeats_expression.bind rfl ?_
  intro m value _
  exact repeats_ended _ _

theorem repeats_printStatement (hhand : hand) :
    Repeats k hand n 3 true printStatement printStatement := by
  refine (repeats_advance hhand).bind rfl ?_
  intro m₁ _ _
  refine repeats_expression.bind rfl ?_
  intro m₂ value _
  exact repeats_ended _ _

theorem repeats_returnStatement (hhand : hand) :
    Repeats k hand n 2 true returnStatement returnStatement := by
  refine (repeats_advance hhand).bind rfl ?_
  intro m₁ keyword _
  refine (Repeats.unlessAt (repeats_expression.less (Nat.zero_le 1))).bind rfl ?_
  intro m₂ value _
  exact repeats_ended _ _

theorem repeats_varDeclaration (hhand : hand) :
    Repeats k hand n 3 true varDeclaration varDeclaration := by
  refine (repeats_advance hhand).bind rfl ?_
  intro m₁ _ _
  refine (repeats_ident _).bind rfl ?_
  intro m₂ name _
  refine (Repeats.behind rfl (repeats_accept (by decide))
    (repeats_expression.less (Nat.zero_le 1))).bind rfl ?_
  intro m₃ initial _
  exact repeats_ended _ _

/-! ## Loops -/

theorem repeats_forInitializer : Repeats k hand n 0 false forInitializer forInitializer := by
  refine (repeats_accept (by decide)).bind rfl ?_
  intro m x _
  refine .ite ?_ ?_
  · intro _
    exact .pure none
  · intro _
    refine Repeats.map some ?_
    refine (repeats_check _).bindSeen (seen_read (Parse.seen_check (by decide))) rfl ?_
    intro m' x' _
    refine .ite ?_ ?_
    · intro hx
      exact ((repeats_varDeclaration hx).less (Nat.zero_le 3)).ofClosed
    · intro _
      exact (repeats_expressionStatement.less (Nat.zero_le 2)).ofClosed

theorem repeats_forParts : Repeats k hand n 2 true forParts forParts := by
  refine repeats_forInitializer.bind rfl ?_
  intro m₁ initializer _
  refine (Repeats.unlessAt (repeats_expression.less (Nat.zero_le 1))).bind rfl ?_
  intro m₂ condition _
  refine (repeats_expect (by decide) _).bind rfl ?_
  intro m₃ semicolon _
  refine (Repeats.unlessAt (repeats_expression.less (Nat.zero_le 1))).bind rfl ?_
  intro m₄ increment _
  refine (repeats_expect (by decide) _).bind rfl ?_
  intro m₅ _ _
  exact .pure _

theorem repeats_round (parts : ForParts) (body : Index) :
    Repeats k hand n 0 true (parts.round body) (parts.round body) := by
  rcases parts with ⟨initializer, condition, semicolon, _ | increment⟩
  · exact .pure body
  · refine (repeats_pushStatement _).bind rfl ?_
    intro m step _
    exact repeats_pushStatement _

theorem repeats_test (parts : ForParts) : Repeats k hand n 0 true parts.test parts.test := by
  rcases parts with ⟨initializer, _ | condition, semicolon, increment⟩
  · exact repeats_pushExpression _ _
  · exact .pure condition

theorem repeats_around (parts : ForParts) (loop : Index) :
    Repeats k hand n 0 true (parts.around loop) (parts.around loop) := by
  rcases parts with ⟨_ | initializer, condition, semicolon, increment⟩
  · exact .pure loop
  · exact repeats_pushStatement _

theorem repeats_forLoop (parts : ForParts) (body : Index) :
    Repeats k hand n 0 true (forLoop parts body) (forLoop parts body) := by
  refine (repeats_round parts body).bind rfl ?_
  intro m₁ round _
  refine (repeats_test parts).bind rfl ?_
  intro m₂ condition _
  refine (repeats_pushStatement _).bind rfl ?_
  intro m₃ loop _
  exact repeats_around parts loop

/-! ## Functions and classes -/

theorem repeats_parameters :
    Repeats k hand n 0 false (read Parse.parameters) (read Parse.parameters) :=
  .read Parse.repeats_parameters fun names => List.map_id names

theorem repeats_superclass : Repeats k hand n 0 false superclass superclass := by
  refine Repeats.behind rfl (repeats_accept (by decide)) ?_
  refine (repeats_ident _).bind rfl ?_
  intro m name _
  exact repeats_node _ _

/-! ## Statements and declarations -/

/-- The steps that read statements into an arena add the same once more if there is enough fuel for the
tokens that are left. -/
structure RepeatsStatements (k : Sequel) (fuel fuel' : Nat) : Prop where
  declaration : ∀ {hand : Prop} {n}, hand → 8 * n + 2 ≤ min fuel fuel' →
    Repeats k hand n 1 true (declaration fuel) (declaration fuel')
  declarations : ∀ {n}, 8 * n + 3 ≤ min fuel fuel' →
    Repeats k False n 0 false (declarations fuel) (declarations fuel')
  blockBody : ∀ {n}, 8 * n + 4 ≤ min fuel fuel' →
    Repeats k False n 1 true (blockBody fuel) (blockBody fuel')
  routine : ∀ {hand n} kind, 8 * n + 1 ≤ min fuel fuel' →
    Repeats k hand n 1 true (routine fuel kind) (routine fuel' kind)
  methods : ∀ {n}, 8 * n + 2 ≤ min fuel fuel' →
    Repeats k False n 0 false (methods fuel) (methods fuel')
  classDeclaration : ∀ {hand : Prop} {n}, hand → 8 * n + 1 ≤ min fuel fuel' →
    Repeats k hand n 1 true (classDeclaration fuel) (classDeclaration fuel')
  statement : ∀ {hand n}, 8 * n + 1 ≤ min fuel fuel' →
    Repeats k hand n 1 true (statement fuel) (statement fuel')

section Step

variable {fuel fuel' : Nat} (ih : RepeatsStatements k fuel fuel')

include ih

theorem repeats_declaration_succ (hhand : hand) (hfuel : 8 * n + 1 ≤ min fuel fuel') :
    Repeats k hand n 1 true (declaration (fuel + 1)) (declaration (fuel' + 1)) := by
  rw [declaration, declaration]
  refine Repeats.recover hhand ?_
  refine repeats_peek.bindSeen (seen_read Parse.seen_peek) rfl ?_
  intro m token hm
  split
  · rename_i hkind
    exact ih.classDeclaration (by simp [hkind]) (by omega)
  · rename_i hkind
    refine (repeats_advance (by simp [hkind])).bind rfl ?_
    intro m₁ _ hm₁
    refine ((ih.routine .function (by omega)).less (Nat.zero_le 1)).bind rfl ?_
    intro m₂ decl _
    exact repeats_pushStatement _
  · rename_i hkind
    exact (repeats_varDeclaration (by simp [hkind])).less (by decide)
  · exact ih.statement (by omega)

theorem repeats_declarations_succ (hfuel : 8 * n + 2 ≤ min fuel fuel') :
    Repeats k False n 0 false (declarations (fuel + 1)) (declarations (fuel' + 1)) := by
  rw [declarations, declarations]
  refine (repeats_check _).bind rfl ?_
  intro m₁ closed hm₁
  refine repeats_atEnd.bindSeen (seen_read Parse.seen_atEnd) rfl ?_
  intro m₂ ended hm₂
  cases closed with
  | true =>
      exact .pure []
  | false =>
      cases ended with
      | true =>
          exact .pure []
      | false =>
          refine (ih.declaration rfl (by omega)).bind rfl ?_
          intro m₃ first hm₃
          refine (ih.declarations (by omega)).bind rfl ?_
          intro m₄ others _
          exact .pure _

theorem repeats_blockBody_succ (hfuel : 8 * n + 3 ≤ min fuel fuel') :
    Repeats k False n 1 true (blockBody (fuel + 1)) (blockBody (fuel' + 1)) := by
  rw [blockBody, blockBody]
  refine (ih.declarations hfuel).bind rfl ?_
  intro m₁ body _
  refine (repeats_expect (by decide) _).bind rfl ?_
  intro m₂ _ _
  exact .pure body

theorem repeats_routine_succ (kind : RoutineKind) (hfuel : 8 * n ≤ min fuel fuel') :
    Repeats k hand n 1 true (routine (fuel + 1) kind) (routine (fuel' + 1) kind) := by
  rw [routine, routine]
  refine Repeats.less ?_ (show 1 ≤ 5 by decide)
  refine (repeats_ident _).bind rfl ?_
  intro m₁ name hm₁
  refine (repeats_expect (by decide) _).bind rfl ?_
  intro m₂ _ hm₂
  refine repeats_parameters.bind rfl ?_
  intro m₃ names hm₃
  refine (repeats_expect (by decide) _).bind rfl ?_
  intro m₄ _ hm₄
  refine (repeats_expect (by decide) _).bind rfl ?_
  intro m₅ _ hm₅
  refine (ih.blockBody (by omega)).bind rfl ?_
  intro m₆ body _
  exact repeats_pushFunction _

theorem repeats_methods_succ (hfuel : 8 * n + 1 ≤ min fuel fuel') :
    Repeats k False n 0 false (methods (fuel + 1)) (methods (fuel' + 1)) := by
  rw [methods, methods]
  refine (repeats_check _).bind rfl ?_
  intro m₁ closed hm₁
  refine repeats_atEnd.bind rfl ?_
  intro m₂ ended hm₂
  refine .ite ?_ ?_
  · intro _
    exact .pure []
  · intro _
    refine (ih.routine .method (by omega)).bind rfl ?_
    intro m₃ first hm₃
    refine (ih.methods (by omega)).bind rfl ?_
    intro m₄ others _
    exact .pure _

theorem repeats_classDeclaration_succ (hhand : hand) (hfuel : 8 * n ≤ min fuel fuel') :
    Repeats k hand n 1 true (classDeclaration (fuel + 1)) (classDeclaration (fuel' + 1)) := by
  rw [classDeclaration, classDeclaration]
  refine Repeats.less ?_ (show 1 ≤ 4 by decide)
  refine (repeats_advance hhand).bind rfl ?_
  intro m₁ _ hm₁
  refine (repeats_ident _).bind rfl ?_
  intro m₂ name hm₂
  refine repeats_superclass.bind rfl ?_
  intro m₃ parent hm₃
  refine (repeats_expect (by decide) _).bind rfl ?_
  intro m₄ _ hm₄
  refine (ih.methods (by omega)).bind rfl ?_
  intro m₅ members _
  refine (repeats_expect (by decide) _).bind rfl ?_
  intro m₆ _ _
  exact repeats_pushStatement _

theorem repeats_statement_succ (hfuel : 8 * n ≤ min fuel fuel') :
    Repeats k hand n 1 true (statement (fuel + 1)) (statement (fuel' + 1)) := by
  rw [statement, statement]
  refine repeats_peek.bindSeen (seen_read Parse.seen_peek) rfl ?_
  intro m token hm
  split
  · rename_i hkind
    refine (repeats_advance (by simp [hkind])).bind rfl ?_
    intro m₁ _ hm₁
    refine (repeats_expect (by decide) _).bind rfl ?_
    intro m₂ _ hm₂
    refine repeats_forParts.bind rfl ?_
    intro m₃ parts hm₃
    refine (ih.statement (by omega)).bind rfl ?_
    intro m₄ body _
    exact repeats_forLoop parts body
  · rename_i hkind
    refine Repeats.less ?_ (show 1 ≤ 4 by decide)
    refine (repeats_advance (by simp [hkind])).bind rfl ?_
    intro m₁ _ hm₁
    refine (repeats_expect (by decide) _).bind rfl ?_
    intro m₂ _ hm₂
    refine repeats_expression.bind rfl ?_
    intro m₃ condition hm₃
    refine (repeats_expect (by decide) _).bind rfl ?_
    intro m₄ _ hm₄
    refine (ih.statement (by omega)).bind rfl ?_
    intro m₅ consequent hm₅
    refine (Repeats.behind rfl repeats_accept_else
      ((ih.statement (by omega)).less (Nat.zero_le 1))).bind rfl ?_
    intro m₆ alternative _
    exact repeats_pushStatement _
  · rename_i hkind
    exact (repeats_printStatement (by simp [hkind])).less (by decide)
  · rename_i hkind
    exact (repeats_returnStatement (by simp [hkind])).less (by decide)
  · rename_i hkind
    refine Repeats.less ?_ (show 1 ≤ 4 by decide)
    refine (repeats_advance (by simp [hkind])).bind rfl ?_
    intro m₁ _ hm₁
    refine (repeats_expect (by decide) _).bind rfl ?_
    intro m₂ _ hm₂
    refine repeats_expression.bind rfl ?_
    intro m₃ condition hm₃
    refine (repeats_expect (by decide) _).bind rfl ?_
    intro m₄ _ hm₄
    refine ((ih.statement (by omega)).less (Nat.zero_le 1)).bind rfl ?_
    intro m₅ body _
    exact repeats_pushStatement _
  · rename_i hkind
    refine (repeats_advance (by simp [hkind])).bind rfl ?_
    intro m₁ _ hm₁
    refine (ih.blockBody (by omega)).bind rfl ?_
    intro m₂ body _
    exact repeats_pushStatement _
  · exact repeats_expressionStatement.less (by decide)

end Step

theorem repeatsStatements (k : Sequel) (fuel : Nat) :
    ∀ fuel', RepeatsStatements k fuel fuel' := by
  induction fuel with
  | zero =>
      -- Without fuel there are no tokens for which it is enough.
      intro fuel'
      refine ⟨?_, ?_, ?_, ?_, ?_, ?_, ?_⟩ <;> intros <;> omega
  | succ fuel ih =>
      intro fuel'
      cases fuel' with
      | zero =>
          refine ⟨?_, ?_, ?_, ?_, ?_, ?_, ?_⟩ <;> intros <;> omega
      | succ fuel' =>
          refine ⟨?_, ?_, ?_, ?_, ?_, ?_, ?_⟩
          · intro hand n hhand hfuel
            exact repeats_declaration_succ (ih fuel') hhand (by omega)
          · intro n hfuel
            exact repeats_declarations_succ (ih fuel') (by omega)
          · intro n hfuel
            exact repeats_blockBody_succ (ih fuel') (by omega)
          · intro hand n kind hfuel
            exact repeats_routine_succ (ih fuel') kind (by omega)
          · intro n hfuel
            exact repeats_methods_succ (ih fuel') (by omega)
          · intro hand n hhand hfuel
            exact repeats_classDeclaration_succ (ih fuel') hhand (by omega)
          · intro hand n hfuel
            exact repeats_statement_succ (ih fuel') (by omega)

theorem repeats_fuelled_declaration (hhand : hand) :
    Repeats k hand n 1 true (fuelled declaration) (fuelled declaration) := by
  refine .fuelled ?_
  intro m fuel fuel' hfuel _
  exact (repeatsStatements k fuel fuel').declaration hhand (by omega)

end Build

end Lox
