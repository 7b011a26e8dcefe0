import Lox.Proofs.Grammar.Complete.Expression

/-!
# What follows the grammar is read without mistakes: statements

If tokens are declarations of the grammar in which every `else` belongs to the nearest `if` that is
open, then reading records no mistake and gives the statements they are written for. The numbers of the
expressions may be others.

An open statement is read as it is only where no `else` stands behind it; this is what makes the
nearest `if` the right one.

Main statement: `Parse.accepts_program`.
-/

namespace Lox

/-- Statements that differ in the numbers of their expressions at most. -/
def Stmt.Alike (s s' : Stmt) : Prop :=
  s.relabel .numberless = s'.relabel .numberless

/-- Lists of statements that differ in the numbers of expressions at most. -/
def Stmt.AllAlike (ss ss' : List Stmt) : Prop :=
  Stmt.relabelAll .numberless ss' = Stmt.relabelAll .numberless ss

namespace Parse

open Grammar
open Stmt (AllAlike)

variable {ts us after : List Token}

/-! ## Statements that hold no other statement -/

theorem accepts_expressionStatement {s : Stmt} (h : ExpressionStatement ts s) :
    Accepts expressionStatement ts after fun s' => s'.Alike s := by
  rcases h with ⟨hvalue, hsemicolon⟩
  refine .bind (accepts_expression hvalue hsemicolon rfl) ?_
  intro value' hvalue'
  exact .expect hsemicolon (.pure (congrArg Stmt.expression hvalue'))

theorem accepts_optional {value : Option Expr} {kind : Kind} (h : Optional Expression ts value)
    (hkind : headKind after = kind) (hend : Follow.ofKind? kind = none)
    (hne : kind.beginsExpression = false) :
    Accepts (unlessAt kind expression) ts after fun value' =>
      value'.map (Expr.relabel .numberless) = value.map (Expr.relabel .numberless) := by
  refine .unlessAt hkind h ?_ ?_
  · intro us e he hhead
    have hbegins := ((derives_begins he).append after).1
    rw [hhead, hne] at hbegins
    cases hbegins
  · intro us e he
    exact accepts_expression he hkind hend

theorem accepts_initial {initial : Option Expr}
    (h : Optional (Behind .equal Expression) ts initial) (hkind : headKind after = .semicolon) :
    Accepts (behind .equal expression) ts after fun initial' =>
      initial'.map (Expr.relabel .numberless) = initial.map (Expr.relabel .numberless) := by
  refine .behind (by rw [hkind]; decide) h ?_
  intro us e he
  exact accepts_expression he hkind rfl

theorem accepts_varDeclaration {s : Stmt} (h : Variable ts s) :
    Accepts varDeclaration ts after fun s' => s'.Alike s := by
  rcases h with ⟨hword, hname, hinitial, hsemicolon⟩
  refine .advance (.ident hname (.bind (accepts_initial hinitial hsemicolon) ?_))
  intro initial' hinitial'
  exact .expect hsemicolon (.pure (congrArg (Stmt.var _) hinitial'))

theorem accepts_printStatement {word semicolon : Token} {value : Expr} (hvalue : Expression ts value)
    (hsemicolon : semicolon.kind = .semicolon) :
    Accepts printStatement (word :: (ts ++ [semicolon])) after fun s' => s'.Alike (.print value) := by
  refine .advance (.bind (accepts_expression hvalue hsemicolon rfl) ?_)
  intro value' hvalue'
  exact .expect hsemicolon (.pure (congrArg Stmt.print hvalue'))

theorem accepts_returnStatement {word semicolon : Token} {value : Option Expr}
    (hvalue : Optional Expression ts value) (hsemicolon : semicolon.kind = .semicolon) :
    Accepts returnStatement (word :: (ts ++ [semicolon])) after fun s' =>
      s'.Alike (.return word.span value) := by
  refine .advance (.bind (accepts_optional hvalue hsemicolon rfl rfl) ?_)
  intro value' hvalue'
  exact .expect hsemicolon (.pure (congrArg (Stmt.return word.span) hvalue'))

/-! ## Loops -/

theorem accepts_forInitializer {initializer : Option Stmt} (h : Initializer ts initializer) :
    Accepts forInitializer ts after fun initializer' =>
      initializer'.map (Stmt.relabel .numberless) =
        initializer.map (Stmt.relabel .numberless) := by
  cases h with
  | none hsemicolon =>
      exact .accept hsemicolon (.pure rfl)
  | @«variable» _ s hs =>
      have hhead : headKind (ts ++ after) = .keyword .var := by
        rcases hs with ⟨hword, -, -, -⟩
        exact hword
      refine .notAccept (by rw [hhead]; decide) ?_
      rw [if_neg (by decide), map_eq_pure_bind]
      refine .andReturn (.check ?_)
      rw [hhead, if_pos (beq_self_eq_true _)]
      refine (accepts_varDeclaration hs).mono ?_
      intro s' hs'
      exact congrArg some hs'
  | @expression _ s hs =>
      have hbegins := ((expressionStatement_begins hs).append after).1
      refine .notAccept ?_ ?_
      · intro hkind
        rw [hkind] at hbegins
        cases hbegins
      · rw [if_neg (by decide), map_eq_pure_bind]
        refine .andReturn (.check ?_)
        have hne : headKind (ts ++ after) ≠ .keyword .var := by
          intro hkind
          rw [hkind] at hbegins
          cases hbegins
        rw [if_neg (by simpa using hne)]
        refine (accepts_expressionStatement hs).mono ?_
        intro s' hs'
        exact congrArg some hs'

theorem accepts_forClauses {clauses : ForClauses} (h : Clauses ts clauses) :
    Accepts forClauses ts after fun clauses' =>
      clauses'.relabel .numberless = clauses.relabel .numberless := by
  rcases h with ⟨hinitializer, hcondition, hsemicolon, hincrement, hclosing⟩
  refine .bind (accepts_forInitializer hinitializer) ?_
  intro initializer' hinitializer'
  refine .bind (accepts_optional hcondition hsemicolon rfl rfl) ?_
  intro condition' hcondition'
  refine .expect hsemicolon (.bind (accepts_optional hincrement hclosing rfl rfl) ?_)
  intro increment' hincrement'
  refine .expect hclosing (.pure ?_)
  simp only [ForClauses.relabel, hinitializer', hcondition', hincrement']

/-- The tree for a loop is put together in the same way. -/
theorem forTree_eq (clauses : ForClauses) (condition : Expr) (body : Stmt) :
    forTree clauses.initializer condition clauses.increment body =
      clauses.around (.while condition (clauses.round body)) := by
  rcases clauses with ⟨_ | initializer, written, semicolon, _ | increment⟩ <;> rfl

/-- A missing condition stands at the same semicolon, and one that is written is alike. -/
theorem accepts_test {clauses clauses' : ForClauses} {condition : Expr}
    (hclauses : clauses'.relabel .numberless = clauses.relabel .numberless)
    (htest : Test clauses.semicolon clauses.condition condition) :
    Accepts clauses'.test [] after fun condition' => condition'.Alike condition := by
  rcases clauses with ⟨initializer, written, semicolon, increment⟩
  rcases clauses' with ⟨initializer', written', semicolon', increment'⟩
  simp only [ForClauses.relabel, ForClauses.mk.injEq] at hclauses
  rcases hclauses with ⟨-, hwritten, hsemicolon, -⟩
  have hsemicolon : semicolon' = semicolon := hsemicolon
  subst hsemicolon
  cases htest with
  | always =>
      cases written' with
      | none => exact .node fun id => .pure rfl
      | some condition' => cases hwritten
  | written =>
      cases written' with
      | none => cases hwritten
      | some condition' => exact .pure (Option.some.inj hwritten)

theorem accepts_forLoop {clauses clauses' : ForClauses} {condition : Expr} {body body' : Stmt}
    (hclauses : clauses'.relabel .numberless = clauses.relabel .numberless)
    (htest : Test clauses.semicolon clauses.condition condition) (hbody : body'.Alike body) :
    Accepts (forLoop clauses' body') [] after fun s' =>
      s'.Alike (forTree clauses.initializer condition clauses.increment body) := by
  refine (accepts_test hclauses htest).andThen ?_
  intro condition' hcondition
  refine .pure ?_
  have hround : (clauses'.round body').Alike (clauses.round body) := by
    unfold Stmt.Alike
    rw [← relabel_round, ← relabel_round, hclauses, hbody]
  rw [forTree_eq]
  unfold Stmt.Alike
  rw [← relabel_around, ← relabel_around, hclauses]
  exact congrArg _ (congrArg₂ Stmt.while hcondition hround)

/-! ## Functions and classes -/

theorem length_names {names : List Ident} (h : Names ts names) : names.length ≤ ts.length := by
  induction h with
  | one _ =>
      exact Nat.le_refl 1
  | more _ _ _ ih =>
      simp only [List.length_cons]
      omega

theorem accepts_moreParameters {names : List Ident} (h : Names ts names)
    (hafter : headKind after = .rightParen) : ∀ {fuel count : Nat}, names.length ≤ fuel →
      count + names.length ≤ maxArguments →
        Accepts (moreParameters fuel count) ts after fun names' => names' = names := by
  -- The fuel and the count change along the list, so both stand behind the induction.
  induction h with
  | one hname =>
      intro fuel count hfuel hcount
      rcases fuel with _ | fuel
      · cases hfuel
      · rw [moreParameters]
        refine .limit hcount (.ident hname (.notAccept ?_ (.pure rfl)))
        rw [List.nil_append, hafter]
        decide
  | more hname hcomma _ ih =>
      intro fuel count hfuel hcount
      rw [List.length_cons] at hfuel hcount
      rcases fuel with _ | fuel
      · cases hfuel
      · rw [moreParameters]
        refine .limit (by omega) (.ident hname (.accept hcomma ?_))
        rw [if_pos rfl]
        refine .andReturn ((ih (Nat.le_of_succ_le_succ hfuel) (by omega)).mono ?_)
        intro others hothers
        rw [hothers]

theorem accepts_parameters {names : List Ident} (h : Parameters ts names)
    (hafter : headKind after = .rightParen) :
    Accepts parameters ts after fun names' => names' = names := by
  cases h with
  | none =>
      refine .check ?_
      rw [List.nil_append, hafter, if_pos (beq_self_eq_true _)]
      exact .pure rfl
  | some hnames hcount =>
      have hhead : headKind (ts ++ after) = .identifier := by
        cases hnames with
        | one hname => exact hname
        | more hname _ _ => exact hname
      have hlength := length_names hnames
      refine .check ?_
      rw [hhead, if_neg (by decide)]
      refine .fuelled (accepts_moreParameters hnames hafter ?_ (by omega))
      rw [List.length_append]
      omega

theorem accepts_superclass {parent : Option Reference}
    (h : Optional (Behind .less Parent) ts parent) (hafter : headKind after = .leftBrace) :
    Accepts superclass ts after fun parent' =>
      parent'.map (Reference.relabel .numberless) = parent.map (Reference.relabel .numberless) := by
  refine .behind (by rw [hafter]; decide) h ?_
  intro us target htarget
  rcases htarget with ⟨hname⟩
  refine .ident hname ?_
  intro s hs
  exact ⟨⟨s.nextId, _⟩, { s with nextId := s.nextId + 1 }, rfl, hs, rfl⟩

/-! ## Statements and declarations -/

/-- An expression statement is what is read where no keyword or brace decides otherwise. -/
theorem statement_of_expression (fuel : Nat) {s : ParseState}
    (h : s.current.kind.beginsExpression = true) : statement (fuel + 1) s = expressionStatement s := by
  rw [statement, peek_bind]
  refine congrFun ?_ s
  split <;> first | (rename_i hkind; rw [hkind] at h; cases h) | rfl

theorem recover_congr {α : Type} {p p' : Parse α} {s : ParseState} (h : p s = p' s) :
    recover p s = recover p' s := by
  rw [recover, recover, h]

/-- A statement is what is read where no keyword of a declaration decides otherwise. -/
theorem declaration_of_statement (fuel : Nat) {s : ParseState}
    (h : s.current.kind.beginsStatement = true) :
    declaration (fuel + 1) s = recover (statement fuel) s := by
  rw [declaration]
  refine recover_congr ?_
  rw [peek_bind]
  refine congrFun ?_ s
  split <;> first | (rename_i hkind; rw [hkind] at h; cases h) | rfl

theorem allAlike_cons {s : Stmt} {first : Option Stmt} {ss others : List Stmt}
    (hfirst : first.map (Stmt.relabel .numberless) = some (s.relabel .numberless))
    (hothers : AllAlike ss others) : AllAlike (s :: ss) (first.toList ++ others) := by
  cases first with
  | none => cases hfirst
  | some s' => exact congrArg₂ List.cons (Option.some.inj hfirst) hothers

/-- No declaration begins with `else`. -/
theorem declarations_head {nearest : Prop} {ss : List Stmt} (h : Declarations nearest ts ss)
    (hafter : headKind after ≠ .keyword .else) : headKind (ts ++ after) ≠ .keyword .else := by
  cases h with
  | nil =>
      exact hafter
  | @cons ts us _ _ hs hss =>
      have hbegins := ((declaration_begins hs).append (us ++ after)).1
      rw [List.append_assoc]
      intro hkind
      rw [hkind] at hbegins
      cases hbegins

section Step

variable {fuel : Nat} {word opening closing : Token} {condition : Expr} {body : Stmt}

theorem accepts_while (hword : word.kind = .keyword .while) (hopening : opening.kind = .leftParen)
    (hcondition : Expression ts condition) (hclosing : closing.kind = .rightParen)
    (hbody : Accepts (statement fuel) us after fun s' => s'.Alike body) :
    Accepts (statement (fuel + 1)) (word :: opening :: (ts ++ closing :: us)) after fun s' =>
      s'.Alike (.while condition body) := by
  rw [statement]
  refine .peek ?_
  simp only [hword]
  refine .advance (.expect hopening (.bind (accepts_expression hcondition hclosing rfl) ?_))
  intro condition' hcondition'
  refine .expect hclosing (.andReturn (hbody.mono ?_))
  intro body' hbody'
  exact congrArg₂ Stmt.while hcondition' hbody'

theorem accepts_for {clauses : ForClauses} (hword : word.kind = .keyword .for)
    (hopening : opening.kind = .leftParen) (hclauses : Clauses ts clauses)
    (htest : Test clauses.semicolon clauses.condition condition)
    (hbody : Accepts (statement fuel) us after fun s' => s'.Alike body) :
    Accepts (statement (fuel + 1)) (word :: opening :: (ts ++ us)) after fun s' =>
      s'.Alike (forTree clauses.initializer condition clauses.increment body) := by
  rw [statement]
  refine .peek ?_
  simp only [hword]
  refine .advance (.expect hopening (.bind (accepts_forClauses hclauses) ?_))
  intro clauses' hclauses'
  refine hbody.andThen ?_
  intro body' hbody'
  exact accepts_forLoop hclauses' htest hbody'

/-- An `if` without `else` is read where no `else` stands behind it. -/
theorem accepts_ifThen (hword : word.kind = .keyword .if) (hopening : opening.kind = .leftParen)
    (hcondition : Expression ts condition) (hclosing : closing.kind = .rightParen)
    (helse : headKind after ≠ .keyword .else)
    (hbody : Accepts (statement fuel) us after fun s' => s'.Alike body) :
    Accepts (statement (fuel + 1)) (word :: opening :: (ts ++ closing :: us)) after fun s' =>
      s'.Alike (.ifElse condition body none) := by
  rw [statement]
  refine .peek ?_
  simp only [hword]
  refine .advance (.expect hopening (.bind (accepts_expression hcondition hclosing rfl) ?_))
  intro condition' hcondition'
  refine .expect hclosing (hbody.andThen ?_)
  intro body' hbody'
  rw [behind, bind_assoc]
  refine .notAccept helse (.pure ?_)
  exact congrArg₂ (Stmt.ifElse · · none) hcondition' hbody'

theorem accepts_ifElse {other : Token} {vs : List Token} {alternative : Stmt}
    (hword : word.kind = .keyword .if) (hopening : opening.kind = .leftParen)
    (hcondition : Expression ts condition) (hclosing : closing.kind = .rightParen)
    (hbody : Accepts (statement fuel) us (other :: (vs ++ after)) fun s' => s'.Alike body)
    (hother : other.kind = .keyword .else)
    (halternative : Accepts (statement fuel) vs after fun s' => s'.Alike alternative) :
    Accepts (statement (fuel + 1)) (word :: opening :: (ts ++ closing :: (us ++ other :: vs))) after
      fun s' => s'.Alike (.ifElse condition body (some alternative)) := by
  rw [statement]
  refine .peek ?_
  simp only [hword]
  refine .advance (.expect hopening (.bind (accepts_expression hcondition hclosing rfl) ?_))
  intro condition' hcondition'
  refine .expect hclosing (.bind hbody ?_)
  intro body' hbody'
  rw [behind, bind_assoc]
  refine .accept hother ?_
  rw [if_pos rfl, map_eq_pure_bind, bind_assoc]
  simp only [pure_bind]
  refine .andReturn (halternative.mono ?_)
  intro alternative' halternative'
  have hbranches : (Stmt.ifElse condition' body' (some alternative')).Alike
      (.ifElse condition body (some alternative)) := by
    unfold Stmt.Alike
    simp only [Stmt.relabel, Stmt.relabelOption]
    rw [hbody', halternative', hcondition']
  exact hbranches

theorem accepts_block {body : List Stmt} (hopening : opening.kind = .leftBrace)
    (hbody : Accepts (blockBody fuel) ts after (AllAlike body)) :
    Accepts (statement (fuel + 1)) (opening :: ts) after fun s' => s'.Alike (.block body) := by
  rw [statement]
  refine .peek ?_
  simp only [hopening]
  refine .advance (.andReturn (hbody.mono ?_))
  intro body' hbody'
  exact congrArg Stmt.block hbody'

theorem accepts_blockBody {body : List Stmt} (hclosing : closing.kind = .rightBrace)
    (hbody : Accepts (declarations fuel) ts (closing :: after) (AllAlike body)) :
    Accepts (blockBody (fuel + 1)) (ts ++ [closing]) after (AllAlike body) := by
  rw [blockBody]
  refine .bind hbody ?_
  intro body' hbody'
  exact .expect hclosing (.pure hbody')

theorem accepts_routine {name brace : Token} {parameters : List Ident} {body : List Stmt}
    (kind : RoutineKind) (hname : name.kind = .identifier) (hopening : opening.kind = .leftParen)
    (hparameters : Parameters ts parameters) (hclosing : closing.kind = .rightParen)
    (hbrace : brace.kind = .leftBrace)
    (hbody : Accepts (blockBody fuel) us after (AllAlike body)) :
    Accepts (routine (fuel + 1) kind) (name :: opening :: (ts ++ closing :: brace :: us)) after
      fun decl' => Stmt.relabelRoutine .numberless decl' =
        Stmt.relabelRoutine .numberless ⟨name.ident, parameters, body⟩ := by
  rw [routine]
  refine .ident hname (.expect hopening (.bind (accepts_parameters hparameters hclosing) ?_))
  rintro parameters' rfl
  refine .expect hclosing (.expect hbrace (.andReturn (hbody.mono ?_)))
  intro body' hbody'
  exact congrArg (Routine.mk _ _) hbody'

theorem accepts_methods_nil (hafter : headKind after = .rightBrace) :
    Accepts (methods (fuel + 1)) [] after fun members' => Stmt.relabelMethods .numberless members' = [] := by
  rw [methods]
  refine .check (.atEnd ?_)
  rw [List.nil_append, hafter, if_pos (by simp)]
  exact .pure rfl

theorem accepts_methods_cons {method : FunctionDecl} {members : List FunctionDecl}
    (hhead : headKind (ts ++ us ++ after) = .identifier)
    (hmethod : Accepts (routine fuel .method) ts (us ++ after) fun method' =>
      Stmt.relabelRoutine .numberless method' = Stmt.relabelRoutine .numberless method)
    (hmembers : Accepts (methods fuel) us after fun members' =>
      Stmt.relabelMethods .numberless members' = Stmt.relabelMethods .numberless members) :
    Accepts (methods (fuel + 1)) (ts ++ us) after fun members' =>
      Stmt.relabelMethods .numberless members' =
        Stmt.relabelMethods .numberless (method :: members) := by
  have hrest : (ts ++ us ++ after).isEmpty = false :=
    isEmpty_of_headKind_ne (by rw [hhead]; decide)
  rw [methods]
  refine .check (.atEnd ?_)
  rw [hhead, hrest, if_neg (by decide)]
  refine hmethod.bind ?_
  intro method' hmethod'
  refine .andReturn (hmembers.mono ?_)
  intro members' hmembers'
  exact congrArg₂ List.cons hmethod' hmembers'

theorem accepts_classDeclaration {name : Token} {parent : Option Reference}
    {members : List FunctionDecl} (hname : name.kind = .identifier)
    (hparent : Optional (Behind .less Parent) ts parent) (hopening : opening.kind = .leftBrace)
    (hmembers : Accepts (methods fuel) us (closing :: after) fun members' =>
      Stmt.relabelMethods .numberless members' = Stmt.relabelMethods .numberless members)
    (hclosing : closing.kind = .rightBrace) :
    Accepts (classDeclaration (fuel + 1)) (word :: name :: (ts ++ opening :: (us ++ [closing]))) after
      fun s' => s'.Alike (.class name.ident parent members) := by
  rw [classDeclaration]
  refine .advance (.ident hname (.bind (accepts_superclass hparent hopening) ?_))
  intro parent' hparent'
  refine .expect hopening (hmembers.bind ?_)
  intro members' hmembers'
  refine .expect hclosing (.pure ?_)
  exact congrArg₂ (Stmt.class name.ident) hparent' hmembers'

theorem accepts_declarations_nil (hafter : headKind after = .rightBrace) :
    Accepts (declarations (fuel + 1)) [] after (AllAlike []) := by
  rw [declarations]
  refine .check (.atEnd ?_)
  rw [List.nil_append, hafter, if_pos (by simp)]
  exact .pure rfl

theorem accepts_declarations_cons {s : Stmt} {ss : List Stmt}
    (hhead : (headKind (ts ++ us ++ after)).beginsDeclaration = true)
    (hfirst : Accepts (declaration fuel) ts (us ++ after) fun first =>
      first.map (Stmt.relabel .numberless) = some (s.relabel .numberless))
    (hothers : Accepts (declarations fuel) us after (AllAlike ss)) :
    Accepts (declarations (fuel + 1)) (ts ++ us) after (AllAlike (s :: ss)) := by
  have hrest : (ts ++ us ++ after).isEmpty = false := by
    refine isEmpty_of_headKind_ne ?_
    intro hkind
    rw [hkind] at hhead
    cases hhead
  have hbrace : (headKind (ts ++ us ++ after) == .rightBrace) = false := by
    rw [beq_eq_false_iff_ne]
    intro hkind
    rw [hkind] at hhead
    cases hhead
  rw [declarations]
  refine .check (.atEnd ?_)
  rw [hbrace, hrest, if_neg (by decide)]
  refine hfirst.bind ?_
  intro first hfirst'
  refine .andReturn (hothers.mono ?_)
  intro others hothers'
  exact allAlike_cons hfirst' hothers'

end Step

mutual

theorem accepts_statement : ∀ {isOpen : Bool} {ts : List Token} {s : Stmt},
    Statement True isOpen ts s → ∀ {after : List Token} {fuel : Nat},
      (isOpen = true → headKind after ≠ .keyword .else) → 8 * (ts ++ after).length + 1 ≤ fuel →
        Accepts (statement fuel) ts after fun s' => s'.Alike s
  | _, _, _, _, _, 0, _, hfuel => absurd hfuel (Nat.not_succ_le_zero _)
  | _, ts, _, .expression hs, after, fuel + 1, _, _ => by
      have hbegins := ((expressionStatement_begins hs).append after).1
      refine .look ?_ (accepts_expressionStatement hs)
      intro s hs
      exact statement_of_expression fuel (by rw [hs.kind]; exact hbegins)
  | _, _, _, .print hword hvalue hsemicolon, _, fuel + 1, _, _ => by
      rw [statement]
      refine .peek ?_
      simp only [hword]
      exact accepts_printStatement hvalue hsemicolon
  | _, _, _, .return hword hvalue hsemicolon, _, fuel + 1, _, _ => by
      rw [statement]
      refine .peek ?_
      simp only [hword]
      exact accepts_returnStatement hvalue hsemicolon
  | _, _, _, .block hopening hbody, _, fuel + 1, _, hfuel => by
      refine accepts_block hopening (accepts_body hbody ?_)
      simp only [List.length_append, List.length_cons] at hfuel ⊢
      omega
  | _, _, _, .while hword hopening hcondition hclosing hbody, _, fuel + 1, helse, hfuel => by
      refine accepts_while hword hopening hcondition hclosing (accepts_statement hbody helse ?_)
      simp only [List.length_append, List.length_cons] at hfuel ⊢
      omega
  | _, _, _, .for hword hopening hclauses htest hbody, _, fuel + 1, helse, hfuel => by
      refine accepts_for hword hopening hclauses htest (accepts_statement hbody helse ?_)
      simp only [List.length_append, List.length_cons] at hfuel ⊢
      omega
  | _, _, _, .ifThen hword hopening hcondition hclosing hbody, _, fuel + 1, helse, hfuel => by
      refine accepts_ifThen hword hopening hcondition hclosing (helse rfl)
        (accepts_statement hbody (fun _ => helse rfl) ?_)
      simp only [List.length_append, List.length_cons] at hfuel ⊢
      omega
  | _, _, _, .ifElse hword hopening hcondition hclosing hbody hnearest hother halternative, _,
      fuel + 1, helse, hfuel => by
      -- What stands in front of the `else` is not open, so it is read as a whole.
      have hclosed := hnearest trivial
      refine accepts_ifElse hword hopening hcondition hclosing
        (accepts_statement hbody (fun hopen => absurd (hopen.symm.trans hclosed) (by decide)) ?_)
        hother (accepts_statement halternative helse ?_)
      · simp only [List.length_append, List.length_cons] at hfuel ⊢
        omega
      · simp only [List.length_append, List.length_cons] at hfuel ⊢
        omega

theorem accepts_body : ∀ {ts : List Token} {body : List Stmt}, Body True ts body →
    ∀ {after : List Token} {fuel : Nat}, 8 * (ts ++ after).length + 4 ≤ fuel →
      Accepts (blockBody fuel) ts after (AllAlike body)
  | _, _, _, _, 0, hfuel => absurd hfuel (Nat.not_succ_le_zero _)
  | _, _, .intro hbody hclosing, _, fuel + 1, hfuel => by
      refine accepts_blockBody hclosing (accepts_declarations hbody hclosing ?_)
      simp only [List.length_append, List.length_cons, List.length_nil] at hfuel ⊢
      omega

theorem accepts_function : ∀ {ts : List Token} {decl : FunctionDecl}, Function True ts decl →
    ∀ (kind : RoutineKind) {after : List Token} {fuel : Nat}, 8 * (ts ++ after).length + 1 ≤ fuel →
      Accepts (routine fuel kind) ts after fun decl' =>
        Stmt.relabelRoutine .numberless decl' = Stmt.relabelRoutine .numberless decl
  | _, _, _, _, _, 0, hfuel => absurd hfuel (Nat.not_succ_le_zero _)
  | _, _, .intro hname hopening hparameters hclosing hbrace hbody, kind, _, fuel + 1, hfuel => by
      refine accepts_routine kind hname hopening hparameters hclosing hbrace (accepts_body hbody ?_)
      simp only [List.length_append, List.length_cons] at hfuel ⊢
      omega

theorem accepts_methods : ∀ {ts : List Token} {members : List FunctionDecl}, Methods True ts members →
    ∀ {after : List Token} {fuel : Nat}, headKind after = .rightBrace →
      8 * (ts ++ after).length + 2 ≤ fuel →
        Accepts (methods fuel) ts after fun members' =>
          Stmt.relabelMethods .numberless members' = Stmt.relabelMethods .numberless members
  | _, _, _, _, 0, _, hfuel => absurd hfuel (Nat.not_succ_le_zero _)
  | _, _, .nil, _, fuel + 1, hafter, _ => accepts_methods_nil hafter
  | _, _, .cons hmethod hmembers, after, fuel + 1, hafter, hfuel => by
      have hlength : 0 < _ := List.length_pos_iff.mpr (function_ne_nil hmethod)
      refine accepts_methods_cons ?_ (accepts_function hmethod .method ?_)
        (accepts_methods hmembers hafter ?_)
      · cases hmethod with
        | intro hname _ _ _ _ _ => exact hname
      · simp only [List.length_append] at hfuel ⊢
        omega
      · simp only [List.length_append] at hfuel ⊢
        omega

theorem accepts_declaration : ∀ {ts : List Token} {s : Stmt}, Declaration True ts s →
    ∀ {after : List Token} {fuel : Nat}, headKind after ≠ .keyword .else →
      8 * (ts ++ after).length + 2 ≤ fuel →
        Accepts (declaration fuel) ts after fun first =>
          first.map (Stmt.relabel .numberless) = some (s.relabel .numberless)
  | _, _, _, _, 0, _, hfuel => absurd hfuel (Nat.not_succ_le_zero _)
  | _, _, .class hword hname hparent hopening hmembers hclosing, _, fuel + 1, _, hfuel => by
      rcases fuel with _ | fuel
      · omega
      · rw [declaration]
        refine .recover (.peek ?_)
        simp only [hword]
        refine (accepts_classDeclaration hname hparent hopening
          (accepts_methods hmembers hclosing ?_) hclosing).mono ?_
        · simp only [List.length_append, List.length_cons, List.length_nil] at hfuel ⊢
          omega
        · intro s' hs'
          exact congrArg some hs'
  | _, _, .function hword hdecl, _, fuel + 1, _, hfuel => by
      rw [declaration]
      refine .recover (.peek ?_)
      simp only [hword]
      refine .advance (.andReturn ((accepts_function hdecl .function ?_).mono ?_))
      · simp only [List.length_append, List.length_cons] at hfuel ⊢
        omega
      · intro decl' hdecl'
        exact congrArg (fun decl => some (Stmt.function decl)) hdecl'
  | _, _, .variable hs, _, fuel + 1, _, _ => by
      cases hs with
      | intro hword hname hinitial hsemicolon =>
          rw [declaration]
          refine .recover (.peek ?_)
          simp only [hword]
          refine (accepts_varDeclaration (.intro hword hname hinitial hsemicolon)).mono ?_
          intro s' hs'
          exact congrArg some hs'
  | _, _, .statement hs, after, fuel + 1, helse, hfuel => by
      have hbegins := ((statement_begins hs).append after).1
      refine .look (fun s hs => declaration_of_statement fuel (by rw [hs.kind]; exact hbegins)) ?_
      refine .recover ((accepts_statement hs (fun _ => helse) (by omega)).mono ?_)
      intro s' hs'
      exact congrArg some hs'

theorem accepts_declarations : ∀ {ts : List Token} {ss : List Stmt}, Declarations True ts ss →
    ∀ {after : List Token} {fuel : Nat}, headKind after = .rightBrace →
      8 * (ts ++ after).length + 3 ≤ fuel → Accepts (declarations fuel) ts after (AllAlike ss)
  | _, _, _, _, 0, _, hfuel => absurd hfuel (Nat.not_succ_le_zero _)
  | _, _, .nil, _, fuel + 1, hafter, _ => accepts_declarations_nil hafter
  | _, _, .cons hs hss, after, fuel + 1, hafter, hfuel => by
      have hbegins := declaration_begins hs
      have hlength : 0 < _ := List.length_pos_iff.mpr hbegins.2
      have helse : headKind after ≠ .keyword .else := by
        rw [hafter]
        decide
      refine accepts_declarations_cons ?_ (accepts_declaration hs (declarations_head hss helse) ?_)
        (accepts_declarations hss hafter ?_)
      · rw [List.append_assoc]
        exact (hbegins.append _).1
      · simp only [List.length_append] at hfuel ⊢
        omega
      · simp only [List.length_append] at hfuel ⊢
        omega

end

/-! ## Programs -/

/-- A program of the grammar is read up to its end. -/
theorem accepts_program {ts : List Token} {ss : List Stmt} (h : Declarations True ts ss)
    {fuel : Nat} (hfuel : ts.length < fuel) : Accepts (program fuel) ts [] (AllAlike ss) := by
  -- The fuel bounds how many declarations are read; each takes a token at least.
  induction fuel generalizing ts ss with
  | zero =>
      exact absurd hfuel (Nat.not_lt_zero _)
  | succ fuel ih =>
      rw [program]
      refine .atEnd ?_
      cases h with
      | nil =>
          rw [List.append_nil, List.isEmpty_nil, if_pos rfl]
          exact .pure rfl
      | @cons ts us _ _ hs hss =>
          have hlength : 0 < ts.length := List.length_pos_iff.mpr (declaration_begins hs).2
          have hrest : (ts ++ us ++ []).isEmpty = false := by
            rw [List.append_nil, List.isEmpty_eq_false_iff]
            exact ((declaration_begins hs).append us).2
          rw [List.length_append] at hfuel
          rw [hrest, if_neg (by decide)]
          have henough :
              8 * (ts ++ (us ++ [])).length + 2 ≤ 8 * ((ts ++ (us ++ [])).length + 1) := by
            omega
          refine .bind
            (.fuelled (accepts_declaration hs (declarations_head hss (by decide)) henough)) ?_
          intro first hfirst
          refine .andReturn ((ih hss (by omega)).mono ?_)
          intro others hothers
          exact allAlike_cons hfirst hothers

end Parse

end Lox
