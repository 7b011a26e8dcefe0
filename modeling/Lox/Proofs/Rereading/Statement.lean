import Lox.Proofs.Rereading.Expression
import Lox.Syntax.Statement

/-!
# Reading statements once more

A complete statement that has no mistake reads as it did before, whatever stands behind it. Only an
`if` looks at what follows it, and there only for `else`.

Main statement: `Parse.repeatsStatements`.
-/

namespace Lox

namespace Parse

variable {k : Rereading} {hand : Prop} {n : Nat}

/-! ## Statements that hold no other statement -/

theorem repeats_expressionStatement :
    Repeats k hand n 2 true (Stmt.relabel k.change) expressionStatement expressionStatement := by
  refine repeats_expression.bind rfl ?_
  intro m₁ value _
  refine (repeats_expect (by decide) _).bind rfl ?_
  intro m₂ _ _
  exact .pure rfl

theorem repeats_printStatement (hhand : hand) :
    Repeats k hand n 3 true (Stmt.relabel k.change) printStatement printStatement := by
  refine (repeats_advance hhand).bind rfl ?_
  intro m₁ _ _
  refine repeats_expression.bind rfl ?_
  intro m₂ value _
  refine (repeats_expect (by decide) _).bind rfl ?_
  intro m₃ _ _
  exact .pure rfl

theorem repeats_returnStatement (hhand : hand) :
    Repeats k hand n 2 true (Stmt.relabel k.change) returnStatement returnStatement := by
  refine (repeats_advance hhand).bind rfl ?_
  intro m₁ keyword _
  refine (Repeats.unlessAt (repeats_expression.less (Nat.zero_le 1))).bind rfl ?_
  intro m₂ value _
  refine (repeats_expect (by decide) _).bind rfl ?_
  intro m₃ _ _
  exact .pure rfl

theorem repeats_varDeclaration (hhand : hand) :
    Repeats k hand n 3 true (Stmt.relabel k.change) varDeclaration varDeclaration := by
  refine (repeats_advance hhand).bind rfl ?_
  intro m₁ _ _
  refine (repeats_ident _).bind rfl ?_
  intro m₂ name _
  refine (Repeats.behind rfl (repeats_accept (by decide))
    (repeats_expression.less (Nat.zero_le 1))).bind rfl ?_
  intro m₃ initial _
  refine (repeats_expect (by decide) _).bind rfl ?_
  intro m₄ _ _
  exact .pure rfl

/-! ## Loops -/

/-- The clauses of a loop with other numbers and places. -/
def ForClauses.relabel (f : Relabel) (clauses : ForClauses) : ForClauses :=
  ⟨clauses.initializer.map (Stmt.relabel f), clauses.condition.map (Expr.relabel f),
    f.place clauses.semicolon, clauses.increment.map (Expr.relabel f)⟩

theorem repeats_forInitializer :
    Repeats k hand n 0 false (Option.map (Stmt.relabel k.change)) forInitializer
      forInitializer := by
  refine (repeats_accept (by decide)).bind rfl ?_
  intro m b _
  refine .ite ?_ ?_
  · intro _
    exact .pure rfl
  · intro _
    refine Repeats.map ?_ fun _ => rfl
    refine (repeats_check _).bindSeen (seen_check (by decide)) rfl ?_
    intro m' b' _
    refine .ite ?_ ?_
    · intro hb
      exact ((repeats_varDeclaration hb).less (Nat.zero_le 3)).ofClosed
    · intro _
      exact (repeats_expressionStatement.less (Nat.zero_le 2)).ofClosed

theorem repeats_forClauses :
    Repeats k hand n 2 true (ForClauses.relabel k.change) forClauses forClauses := by
  refine repeats_forInitializer.bind rfl ?_
  intro m₁ initializer _
  refine (Repeats.unlessAt (repeats_expression.less (Nat.zero_le 1))).bind rfl ?_
  intro m₂ condition _
  refine (repeats_expect (by decide) _).bind rfl ?_
  intro m₃ semicolon _
  refine (Repeats.unlessAt (repeats_expression.less (Nat.zero_le 1))).bind rfl ?_
  intro m₄ increment _
  refine (repeats_expect (by decide) _).bind rfl ?_
  intro m₅ _ _
  exact .pure rfl

theorem repeats_test (clauses : ForClauses) :
    Repeats k hand n 0 true (Expr.relabel k.change) clauses.test
      (clauses.relabel k.change).test := by
  rcases clauses with ⟨initializer, _ | condition, semicolon, increment⟩
  · refine (repeats_node rfl).bind rfl ?_
    intro m node _
    exact .pure rfl
  · exact .pure rfl

theorem relabel_round (f : Relabel) (clauses : ForClauses) (body : Stmt) :
    (clauses.relabel f).round (body.relabel f) = (clauses.round body).relabel f := by
  rcases clauses with ⟨initializer, condition, semicolon, _ | increment⟩ <;> rfl

theorem relabel_around (f : Relabel) (clauses : ForClauses) (loop : Stmt) :
    (clauses.relabel f).around (loop.relabel f) = (clauses.around loop).relabel f := by
  rcases clauses with ⟨_ | initializer, condition, semicolon, increment⟩ <;> rfl

theorem repeats_forLoop (clauses : ForClauses) (body : Stmt) :
    Repeats k hand n 0 true (Stmt.relabel k.change) (forLoop clauses body)
      (forLoop (clauses.relabel k.change) (body.relabel k.change)) := by
  refine (repeats_test clauses).bind rfl ?_
  intro m condition _
  refine .pure ?_
  rw [relabel_round, ← relabel_around]
  rfl

/-! ## Functions and classes -/

theorem repeats_moreParameters (fuel : Nat) : ∀ {fuel' n count}, 8 * n + 1 ≤ min fuel fuel' →
    Repeats k False n 0 false (List.map (Ident.relabel k.change)) (moreParameters fuel count)
      (moreParameters fuel' count) := by
  induction fuel with
  | zero =>
      intro fuel' n count hfuel
      omega
  | succ fuel ih =>
      intro fuel' n count hfuel
      cases fuel' with
      | zero =>
          omega
      | succ fuel' =>
          rw [moreParameters, moreParameters]
          refine (repeats_limit _ count).bind rfl ?_
          intro m₁ _ hm₁
          refine (repeats_ident _).bind rfl ?_
          intro m₂ first hm₂
          refine (repeats_accept (by decide)).bind rfl ?_
          intro m₃ b hm₃
          refine .ite ?_ ?_
          · intro _
            refine (ih (by omega)).bind rfl ?_
            intro m₄ others _
            exact .pure rfl
          · intro _
            exact .pure rfl

theorem repeats_parameters :
    Repeats k hand n 0 false (List.map (Ident.relabel k.change)) parameters parameters := by
  refine (repeats_check _).bind rfl ?_
  intro m b _
  refine .ite ?_ ?_
  · intro _
    exact .pure rfl
  · intro _
    refine .fuelled ?_
    intro m' fuel fuel' hfuel _
    exact repeats_moreParameters fuel (by omega)

theorem repeats_superclass :
    Repeats k hand n 0 false (Option.map (Reference.relabel k.change)) superclass superclass := by
  refine Repeats.behind rfl (repeats_accept (by decide)) ?_
  refine (repeats_ident _).bind rfl ?_
  intro m name _
  exact (repeats_reference rfl).ofClosed

/-! ## Statements and declarations -/

theorem relabelAll_toList (f : Relabel) (first : Option Stmt) (others : List Stmt) :
    (first.map (Stmt.relabel f)).toList ++ Stmt.relabelAll f others =
      Stmt.relabelAll f (first.toList ++ others) := by
  cases first <;> rfl

/-- The steps that read statements read the same once more if there is enough fuel for the tokens that
are left. -/
structure RepeatsStatements (k : Rereading) (fuel fuel' : Nat) : Prop where
  declaration : ∀ {hand : Prop} {n}, hand → 8 * n + 2 ≤ min fuel fuel' →
    Repeats k hand n 1 true (Option.map (Stmt.relabel k.change)) (declaration fuel)
      (declaration fuel')
  declarations : ∀ {n}, 8 * n + 3 ≤ min fuel fuel' →
    Repeats k False n 0 false (Stmt.relabelAll k.change) (declarations fuel)
      (declarations fuel')
  blockBody : ∀ {n}, 8 * n + 4 ≤ min fuel fuel' →
    Repeats k False n 1 true (Stmt.relabelAll k.change) (blockBody fuel) (blockBody fuel')
  routine : ∀ {hand n} kind, 8 * n + 1 ≤ min fuel fuel' →
    Repeats k hand n 1 true (Stmt.relabelRoutine k.change) (routine fuel kind)
      (routine fuel' kind)
  methods : ∀ {n}, 8 * n + 2 ≤ min fuel fuel' →
    Repeats k False n 0 false (Stmt.relabelMethods k.change) (methods fuel) (methods fuel')
  classDeclaration : ∀ {hand : Prop} {n}, hand → 8 * n + 1 ≤ min fuel fuel' →
    Repeats k hand n 1 true (Stmt.relabel k.change) (classDeclaration fuel)
      (classDeclaration fuel')
  statement : ∀ {hand n}, 8 * n + 1 ≤ min fuel fuel' →
    Repeats k hand n 1 true (Stmt.relabel k.change) (statement fuel) (statement fuel')

section Step

variable {fuel fuel' : Nat} (ih : RepeatsStatements k fuel fuel')

include ih

theorem repeats_declaration_succ (hhand : hand) (hfuel : 8 * n + 1 ≤ min fuel fuel') :
    Repeats k hand n 1 true (Option.map (Stmt.relabel k.change)) (declaration (fuel + 1))
      (declaration (fuel' + 1)) := by
  rw [declaration, declaration]
  refine Repeats.recover hhand ?_
  refine repeats_peek.bindSeen seen_peek rfl ?_
  intro m token hm
  rw [show (token.relabel k.change).kind = token.kind from rfl]
  split
  · rename_i hkind
    exact ih.classDeclaration (by simp [hkind]) (by omega)
  · rename_i hkind
    refine (repeats_advance (by simp [hkind])).bind rfl ?_
    intro m₁ _ hm₁
    refine ((ih.routine .function (by omega)).less (Nat.zero_le 1)).bind rfl ?_
    intro m₂ decl _
    exact .pure rfl
  · rename_i hkind
    exact (repeats_varDeclaration (by simp [hkind])).less (by decide)
  · exact ih.statement (by omega)

theorem repeats_declarations_succ (hfuel : 8 * n + 2 ≤ min fuel fuel') :
    Repeats k False n 0 false (Stmt.relabelAll k.change) (declarations (fuel + 1))
      (declarations (fuel' + 1)) := by
  rw [declarations, declarations]
  refine (repeats_check _).bind rfl ?_
  intro m₁ closed hm₁
  refine repeats_atEnd.bindSeen seen_atEnd rfl ?_
  intro m₂ ended hm₂
  cases closed with
  | true =>
      exact .pure rfl
  | false =>
      cases ended with
      | true =>
          exact .pure rfl
      | false =>
          refine (ih.declaration rfl (by omega)).bind rfl ?_
          intro m₃ first hm₃
          refine (ih.declarations (by omega)).bind rfl ?_
          intro m₄ others _
          exact .pure (relabelAll_toList k.change first others)

theorem repeats_blockBody_succ (hfuel : 8 * n + 3 ≤ min fuel fuel') :
    Repeats k False n 1 true (Stmt.relabelAll k.change) (blockBody (fuel + 1))
      (blockBody (fuel' + 1)) := by
  rw [blockBody, blockBody]
  refine (ih.declarations hfuel).bind rfl ?_
  intro m₁ body _
  refine (repeats_expect (by decide) _).bind rfl ?_
  intro m₂ _ _
  exact .pure rfl

theorem repeats_routine_succ (kind : RoutineKind) (hfuel : 8 * n ≤ min fuel fuel') :
    Repeats k hand n 1 true (Stmt.relabelRoutine k.change) (routine (fuel + 1) kind)
      (routine (fuel' + 1) kind) := by
  rw [routine, routine]
  refine Repeats.less ?_ (show 1 ≤ 5 by decide)
  refine (repeats_ident _).bind rfl ?_
  intro m₁ name hm₁
  refine (repeats_expect (by decide) _).bind rfl ?_
  intro m₂ _ hm₂
  refine repeats_parameters.bind rfl ?_
  intro m₃ names hm₃
  refine (repeats_expect (by decide) _).bind rfl ?_
  intro m₄ _ hm₄
  refine (repeats_expect (by decide) _).bind rfl ?_
  intro m₅ _ hm₅
  refine (ih.blockBody (by omega)).bind rfl ?_
  intro m₆ body _
  exact .pure rfl

theorem repeats_methods_succ (hfuel : 8 * n + 1 ≤ min fuel fuel') :
    Repeats k False n 0 false (Stmt.relabelMethods k.change) (methods (fuel + 1))
      (methods (fuel' + 1)) := by
  rw [methods, methods]
  refine (repeats_check _).bind rfl ?_
  intro m₁ closed hm₁
  refine repeats_atEnd.bind rfl ?_
  intro m₂ ended hm₂
  refine .ite ?_ ?_
  · intro _
    exact .pure rfl
  · intro _
    refine (ih.routine .method (by omega)).bind rfl ?_
    intro m₃ first hm₃
    refine (ih.methods (by omega)).bind rfl ?_
    intro m₄ others _
    exact .pure rfl

theorem repeats_classDeclaration_succ (hhand : hand) (hfuel : 8 * n ≤ min fuel fuel') :
    Repeats k hand n 1 true (Stmt.relabel k.change) (classDeclaration (fuel + 1))
      (classDeclaration (fuel' + 1)) := by
  rw [classDeclaration, classDeclaration]
  refine Repeats.less ?_ (show 1 ≤ 4 by decide)
  refine (repeats_advance hhand).bind rfl ?_
  intro m₁ _ hm₁
  refine (repeats_ident _).bind rfl ?_
  intro m₂ name hm₂
  refine repeats_superclass.bind rfl ?_
  intro m₃ parent hm₃
  refine (repeats_expect (by decide) _).bind rfl ?_
  intro m₄ _ hm₄
  refine (ih.methods (by omega)).bind rfl ?_
  intro m₅ members _
  refine (repeats_expect (by decide) _).bind rfl ?_
  intro m₆ _ _
  exact .pure rfl

theorem repeats_statement_succ (hfuel : 8 * n ≤ min fuel fuel') :
    Repeats k hand n 1 true (Stmt.relabel k.change) (statement (fuel + 1))
      (statement (fuel' + 1)) := by
  rw [statement, statement]
  refine repeats_peek.bindSeen seen_peek rfl ?_
  intro m token hm
  rw [show (token.relabel k.change).kind = token.kind from rfl]
  split
  · rename_i hkind
    refine (repeats_advance (by simp [hkind])).bind rfl ?_
    intro m₁ _ hm₁
    refine (repeats_expect (by decide) _).bind rfl ?_
    intro m₂ _ hm₂
    refine repeats_forClauses.bind rfl ?_
    intro m₃ clauses hm₃
    refine (ih.statement (by omega)).bind rfl ?_
    intro m₄ body _
    exact repeats_forLoop clauses body
  · rename_i hkind
    refine Repeats.less ?_ (show 1 ≤ 4 by decide)
    refine (repeats_advance (by simp [hkind])).bind rfl ?_
    intro m₁ _ hm₁
    refine (repeats_expect (by decide) _).bind rfl ?_
    intro m₂ _ hm₂
    refine repeats_expression.bind rfl ?_
    intro m₃ condition hm₃
    refine (repeats_expect (by decide) _).bind rfl ?_
    intro m₄ _ hm₄
    refine (ih.statement (by omega)).bind rfl ?_
    intro m₅ consequent hm₅
    refine (Repeats.behind rfl repeats_accept_else
      ((ih.statement (by omega)).less (Nat.zero_le 1))).bind rfl ?_
    intro m₆ alternative _
    refine .pure ?_
    rw [Stmt.relabel, Stmt.relabelOption_eq]
  · rename_i hkind
    exact (repeats_printStatement (by simp [hkind])).less (by decide)
  · rename_i hkind
    exact (repeats_returnStatement (by simp [hkind])).less (by decide)
  · rename_i hkind
    refine Repeats.less ?_ (show 1 ≤ 4 by decide)
    refine (repeats_advance (by simp [hkind])).bind rfl ?_
    intro m₁ _ hm₁
    refine (repeats_expect (by decide) _).bind rfl ?_
    intro m₂ _ hm₂
    refine repeats_expression.bind rfl ?_
    intro m₃ condition hm₃
    refine (repeats_expect (by decide) _).bind rfl ?_
    intro m₄ _ hm₄
    refine ((ih.statement (by omega)).less (Nat.zero_le 1)).bind rfl ?_
    intro m₅ body _
    exact .pure rfl
  · rename_i hkind
    refine (repeats_advance (by simp [hkind])).bind rfl ?_
    intro m₁ _ hm₁
    refine (ih.blockBody (by omega)).bind rfl ?_
    intro m₂ body _
    exact .pure rfl
  · exact repeats_expressionStatement.less (by decide)

end Step

theorem repeatsStatements (k : Rereading) (fuel : Nat) :
    ∀ fuel', RepeatsStatements k fuel fuel' := by
  induction fuel with
  | zero =>
      intro fuel'
      refine ⟨?_, ?_, ?_, ?_, ?_, ?_, ?_⟩ <;> intros <;> omega
  | succ fuel ih =>
      intro fuel'
      cases fuel' with
      | zero =>
          refine ⟨?_, ?_, ?_, ?_, ?_, ?_, ?_⟩ <;> intros <;> omega
      | succ fuel' =>
          refine ⟨?_, ?_, ?_, ?_, ?_, ?_, ?_⟩
          · intro hand n hhand hfuel
            exact repeats_declaration_succ (ih fuel') hhand (by omega)
          · intro n hfuel
            exact repeats_declarations_succ (ih fuel') (by omega)
          · intro n hfuel
            exact repeats_blockBody_succ (ih fuel') (by omega)
          · intro hand n kind hfuel
            exact repeats_routine_succ (ih fuel') kind (by omega)
          · intro n hfuel
            exact repeats_methods_succ (ih fuel') (by omega)
          · intro hand n hhand hfuel
            exact repeats_classDeclaration_succ (ih fuel') hhand (by omega)
          · intro hand n hfuel
            exact repeats_statement_succ (ih fuel') (by omega)

theorem repeats_fuelled_declaration (hhand : hand) :
    Repeats k hand n 1 true (Option.map (Stmt.relabel k.change)) (fuelled declaration)
      (fuelled declaration) := by
  refine .fuelled ?_
  intro m fuel fuel' hfuel _
  exact (repeatsStatements k fuel fuel').declaration hhand (by omega)

end Parse

end Lox
