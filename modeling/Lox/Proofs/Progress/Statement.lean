import Lox.Proofs.Progress.Expression
import Lox.Syntax.Statement

/-!
# Reading a statement comes to an end

The steps that read statements, as `Lox.Proofs.Progress.Expression` has those that read expressions: what
each of them does with its calls, and that the calls are never nested more deeply than eight times for
each token. The lists of declarations and of methods go on only behind a token that has been passed, also
after a mistake.

Main statement: `StatementCalls.walk_iterate`.
-/

namespace Lox

namespace Parse

variable {ts : List Token} {n : Nat} {s : ParseState}

/-! ## Statements that hold no other statement -/

theorem walks_expressionStatement (s : ParseState) :
    Walks ts 1 expressionStatement expressionStatement s := by
  refine (walks_expression s).bind ?_
  intro value t _ _
  exact ((Walks.expect (by decide) _).andReturn).less (Nat.zero_le 1)

theorem walks_printStatement (hrest : s.rest ≠ []) : Walks ts 1 printStatement printStatement s := by
  refine (Walks.advance hrest).bind ?_
  intro _ t₁ _ _
  refine ((walks_expression t₁).less (Nat.zero_le 1)).bind ?_
  intro value t₂ _ _
  exact ((Walks.expect (by decide) _).andReturn).less (Nat.zero_le 1)

theorem walks_returnStatement (hrest : s.rest ≠ []) :
    Walks ts 1 returnStatement returnStatement s := by
  refine (Walks.advance hrest).bind ?_
  intro keyword t₁ _ _
  refine (Walks.unlessAt ((walks_expression t₁).less (Nat.zero_le 1))).bind ?_
  intro value t₂ _ _
  exact ((Walks.expect (by decide) _).andReturn).less (Nat.zero_le 1)

theorem walks_varDeclaration (hrest : s.rest ≠ []) : Walks ts 1 varDeclaration varDeclaration s := by
  refine (Walks.advance hrest).bind ?_
  intro _ t₁ _ _
  refine ((Walks.ident _).less (Nat.zero_le 1)).bind ?_
  intro name t₂ _ _
  refine (Walks.behind (by decide) fun _ => (walks_expression _).less (Nat.zero_le 1)).bind ?_
  intro initial t₃ _ _
  exact ((Walks.expect (by decide) _).andReturn).less (Nat.zero_le 1)

/-! ## Loops -/

theorem walks_forInitializer (s : ParseState) : Walks ts 0 forInitializer forInitializer s := by
  refine .accept (by decide) (fun _ => .pure none) (.map (.check ?_))
  refine .ite ?_ ?_
  · intro hvar
    have hrest : s.rest ≠ [] := ne_nil_of_kind (by decide) (eq_of_beq hvar)
    exact (walks_varDeclaration hrest).less (Nat.zero_le 1)
  · intro _
    exact (walks_expressionStatement s).less (Nat.zero_le 1)

theorem walks_forClauses (s : ParseState) : Walks ts 0 forClauses forClauses s := by
  refine (walks_forInitializer s).bind ?_
  intro initializer t₁ _ _
  refine (Walks.unlessAt ((walks_expression t₁).less (Nat.zero_le 1))).bind ?_
  intro condition t₂ _ _
  refine ((Walks.expect (by decide) _).less (Nat.zero_le 1)).bind ?_
  intro semicolon t₃ _ _
  refine (Walks.unlessAt ((walks_expression t₃).less (Nat.zero_le 1))).bind ?_
  intro increment t₄ _ _
  exact ((Walks.expect (by decide) _).andReturn).less (Nat.zero_le 1)

theorem walks_forLoop (clauses : ForClauses) (body : Stmt) (s : ParseState) :
    Walks ts 0 (forLoop clauses body) (forLoop clauses body) s := by
  refine .andReturn ?_
  rcases clauses with ⟨initializer, _ | condition, semicolon, increment⟩
  · exact (Walks.node _).andReturn
  · exact .pure condition

/-! ## Parameters -/

/-- What reading parameters does if its call is answered by `k`. -/
def parameterBody (k : Nat → Parse (List Ident)) (count : Nat) : Parse (List Ident) := do
  limit .tooManyParameters count
  let first ← ident .parameterName
  if ← accept .comma then
    let others ← k (count + 1)
    return first :: others
  else return [first]

theorem moreParameters_eq_iterate (fuel : Nat) :
    moreParameters fuel = parameterBody^[fuel] (moreParameters 0) := by
  induction fuel with
  | zero =>
      rfl
  | succ fuel ih =>
      rw [Function.iterate_succ_apply', ← ih]
      rfl

/-- Each parameter has a token, so reading them comes to an end. -/
theorem walks_parameterBody (n : Nat) (k k' : Nat → Parse (List Ident)) :
    ∀ count s, s.rest.length + 1 ≤ n →
      Walks ts 0 (parameterBody^[n] k count) (parameterBody^[n] k' count) s := by
  induction n with
  | zero =>
      intro count s hn
      omega
  | succ n ih =>
      intro count s hn
      rw [Function.iterate_succ_apply', Function.iterate_succ_apply']
      refine (Walks.limit _ count).bind ?_
      intro _ t₁ _ hlength₁
      refine ((Walks.ident _).less (Nat.zero_le 1)).bind ?_
      intro first t₂ _ hlength₂
      refine .accept (by decide) ?_ (.pure _)
      intro hlength₃
      exact (ih (count + 1) _ (by omega)).andReturn

theorem walks_moreParameters (k : Nat → Parse (List Ident)) (count : Nat) {depth fuel : Nat}
    (hn : s.rest.length + 1 ≤ n) (hdepth : n ≤ depth) (hfuel : n ≤ fuel) :
    Walks ts 0 (parameterBody^[depth] k count) (moreParameters fuel count) s := by
  rcases Nat.exists_eq_add_of_le hdepth with ⟨d, rfl⟩
  rcases Nat.exists_eq_add_of_le hfuel with ⟨d', rfl⟩
  rw [moreParameters_eq_iterate, Function.iterate_add_apply, Function.iterate_add_apply]
  exact walks_parameterBody n _ _ count s hn

theorem walks_parameters (s : ParseState) : Walks ts 0 parameters parameters s := by
  have hfuel : s.rest.length + 1 ≤ s.fuel := by
    simp only [ParseState.fuel]
    omega
  have hwalks : Walks ts 0 (parameterBody^[s.fuel] (moreParameters 0) 0) (moreParameters s.fuel 0) s :=
    walks_moreParameters _ 0 hfuel (Nat.le_refl _) (Nat.le_refl _)
  exact .check (.ite (fun _ => .pure []) fun _ => Walks.self (.fuelled hwalks))

theorem walks_superclass (s : ParseState) : Walks ts 0 superclass superclass s := by
  refine .behind (by decide) fun _ => ?_
  refine ((Walks.ident _).less (Nat.zero_le 1)).bind ?_
  intro name t _ _
  exact .reference name

/-! ## Steps that call each other -/

/-- The steps that read statements, as they are called. -/
structure StatementCalls where
  declaration : Parse (Option Stmt)
  declarations : Parse (List Stmt)
  blockBody : Parse (List Stmt)
  routine : RoutineKind → Parse FunctionDecl
  methods : Parse (List FunctionDecl)
  classDeclaration : Parse Stmt
  statement : Parse Stmt

namespace StatementCalls

/-- Reads what a declaration consists of, with the calls answered by `k`. -/
def declared (k : StatementCalls) : Parse Stmt := do
  let token ← peek
  match token.kind with
  | .keyword .class => k.classDeclaration
  | .keyword .fun =>
      let _ ← advance
      let decl ← k.routine .function
      return .function decl
  | .keyword .var => varDeclaration
  | _ => k.statement

/-- What each step does if its calls are answered by `k`. -/
def body (k : StatementCalls) : StatementCalls where
  declaration := recover k.declared
  declarations := do
    if (← check .rightBrace) || (← atEnd) then return []
    else
      let first ← k.declaration
      let others ← k.declarations
      return first.toList ++ others
  blockBody := do
    let body ← k.declarations
    let _ ← expect .rightBrace .closeBlock
    return body
  routine kind := do
    let name ← ident (.routineName kind)
    let _ ← expect .leftParen (.openParameters kind)
    let names ← parameters
    let _ ← expect .rightParen .closeParameters
    let _ ← expect .leftBrace (.openRoutine kind)
    let body ← k.blockBody
    return ⟨name, names, body⟩
  methods := do
    if (← check .rightBrace) || (← atEnd) then return []
    else
      let first ← k.routine .method
      let others ← k.methods
      return first :: others
  classDeclaration := do
    let _ ← advance
    let name ← ident .className
    let parent ← superclass
    let _ ← expect .leftBrace .openClass
    let members ← k.methods
    let _ ← expect .rightBrace .closeClass
    return .class name parent members
  statement := do
    let token ← peek
    match token.kind with
    | .keyword .for =>
        let _ ← advance
        let _ ← expect .leftParen .openFor
        let clauses ← forClauses
        let body ← k.statement
        forLoop clauses body
    | .keyword .if =>
        let _ ← advance
        let _ ← expect .leftParen .openIf
        let condition ← expression
        let _ ← expect .rightParen .closeIf
        let consequent ← k.statement
        let alternative ← behind (.keyword .else) k.statement
        return .ifElse condition consequent alternative
    | .keyword .print => printStatement
    | .keyword .return => returnStatement
    | .keyword .while =>
        let _ ← advance
        let _ ← expect .leftParen .openWhile
        let condition ← expression
        let _ ← expect .rightParen .closeWhile
        let body ← k.statement
        return .while condition body
    | .leftBrace =>
        let _ ← advance
        let body ← k.blockBody
        return .block body
    | _ => expressionStatement

/-- The steps with as much fuel. -/
def ofFuel (fuel : Nat) : StatementCalls where
  declaration := Parse.declaration fuel
  declarations := Parse.declarations fuel
  blockBody := Parse.blockBody fuel
  routine := Parse.routine fuel
  methods := Parse.methods fuel
  classDeclaration := Parse.classDeclaration fuel
  statement := Parse.statement fuel

/-- Fuel counts how deeply calls may be nested. -/
theorem ofFuel_succ (fuel : Nat) : ofFuel (fuel + 1) = (ofFuel fuel).body :=
  rfl

theorem ofFuel_eq_iterate (fuel : Nat) : ofFuel fuel = body^[fuel] (ofFuel 0) := by
  induction fuel with
  | zero =>
      rfl
  | succ fuel ih =>
      rw [ofFuel_succ, ih, Function.iterate_succ_apply']

end StatementCalls

/-- Calls that do the same, and go on, where they are nested at most `n` deep. -/
structure StatementCalls.Walk (ts : List Token) (n : Nat) (k k' : StatementCalls) : Prop where
  -- Here too the numbers fall from call to call while no token is passed. No expression calls a statement.
  declaration : ∀ s, s.rest ≠ [] → 8 * s.rest.length + 2 ≤ n →
    Walks ts 1 k.declaration k'.declaration s
  declarations : ∀ s, 8 * s.rest.length + 3 ≤ n → Walks ts 0 k.declarations k'.declarations s
  blockBody : ∀ s, 8 * s.rest.length + 4 ≤ n → Walks ts 0 k.blockBody k'.blockBody s
  routine : ∀ kind s, 8 * s.rest.length + 1 ≤ n → Walks ts 1 (k.routine kind) (k'.routine kind) s
  methods : ∀ s, 8 * s.rest.length + 2 ≤ n → Walks ts 0 k.methods k'.methods s
  classDeclaration : ∀ s, s.rest ≠ [] → 8 * s.rest.length + 1 ≤ n →
    Walks ts 1 k.classDeclaration k'.classDeclaration s
  statement : ∀ s, 8 * s.rest.length + 1 ≤ n → Walks ts 1 k.statement k'.statement s

namespace StatementCalls.Walk

section Body

variable {k k' : StatementCalls} (h : Walk ts n k k')

include h

theorem declared (hn : 8 * s.rest.length + 1 ≤ n) : Walks ts 1 k.declared k'.declared s := by
  refine .peek ?_
  split
  · -- A class.
    rename_i hkind
    exact h.classDeclaration s (ne_nil_of_kind (by decide) hkind) hn
  · -- A function.
    rename_i hkind
    refine (Walks.advance (ne_nil_of_kind (by decide) hkind)).bind ?_
    intro _ t₁ _ hlength₁
    exact ((h.routine .function t₁ (by omega)).andReturn).less (Nat.zero_le 1)
  · -- A variable.
    rename_i hkind
    exact walks_varDeclaration (ne_nil_of_kind (by decide) hkind)
  · exact h.statement s hn

theorem body_declarations (hn : 8 * s.rest.length + 2 ≤ n) :
    Walks ts 0 k.body.declarations k'.body.declarations s := by
  refine .check (.atEnd (.ite (fun _ => .pure []) ?_))
  intro hmore
  have hrest : s.rest ≠ [] := by
    intro hnil
    rw [hnil, List.isEmpty_nil, Bool.or_true] at hmore
    cases hmore
  -- The rest of the list is read behind a token that has been passed.
  refine (h.declaration s hrest hn).bind ?_
  intro first t₁ _ hlength₁
  exact (h.declarations t₁ (by omega)).andReturn

theorem body_blockBody (hn : 8 * s.rest.length + 3 ≤ n) :
    Walks ts 0 k.body.blockBody k'.body.blockBody s := by
  refine (h.declarations s hn).bind ?_
  intro body t₁ _ _
  exact ((Walks.expect (by decide) _).andReturn).less (Nat.zero_le 1)

theorem body_routine (kind : RoutineKind) (hn : 8 * s.rest.length ≤ n) :
    Walks ts 1 (k.body.routine kind) (k'.body.routine kind) s := by
  refine (Walks.ident _).bind ?_
  intro name t₁ _ hlength₁
  refine (Walks.expect (by decide) _).bind ?_
  intro _ t₂ _ hlength₂
  refine (walks_parameters t₂).bind ?_
  intro names t₃ _ hlength₃
  refine (Walks.expect (by decide) _).bind ?_
  intro _ t₄ _ hlength₄
  refine (Walks.expect (by decide) _).bind ?_
  intro _ t₅ _ hlength₅
  exact (h.blockBody t₅ (by omega)).andReturn

theorem body_methods (hn : 8 * s.rest.length + 1 ≤ n) :
    Walks ts 0 k.body.methods k'.body.methods s := by
  refine .check (.atEnd (.ite (fun _ => .pure []) fun _ => ?_))
  refine (h.routine .method s hn).bind ?_
  intro first t₁ _ hlength₁
  exact (h.methods t₁ (by omega)).andReturn

theorem body_classDeclaration (hrest : s.rest ≠ []) (hn : 8 * s.rest.length ≤ n) :
    Walks ts 1 k.body.classDeclaration k'.body.classDeclaration s := by
  refine (Walks.advance hrest).bind ?_
  intro _ t₁ _ hlength₁
  refine (Walks.ident _).bind ?_
  intro name t₂ _ hlength₂
  refine (walks_superclass t₂).bind ?_
  intro parent t₃ _ hlength₃
  refine (Walks.expect (by decide) _).bind ?_
  intro _ t₄ _ hlength₄
  refine (h.methods t₄ (by omega)).bind ?_
  intro members t₅ _ _
  exact ((Walks.expect (by decide) _).andReturn).less (Nat.zero_le 1)

theorem body_statement (hn : 8 * s.rest.length ≤ n) :
    Walks ts 1 k.body.statement k'.body.statement s := by
  refine .peek ?_
  split
  · -- A `for` loop.
    rename_i hkind
    refine (Walks.advance (ne_nil_of_kind (by decide) hkind)).bind ?_
    intro _ t₁ _ hlength₁
    refine (Walks.expect (by decide) _).bind ?_
    intro _ t₂ _ hlength₂
    refine (walks_forClauses t₂).bind ?_
    intro clauses t₃ _ hlength₃
    refine (h.statement t₃ (by omega)).bind ?_
    intro body t₄ _ _
    exact walks_forLoop clauses body t₄
  · -- A branch.
    rename_i hkind
    refine (Walks.advance (ne_nil_of_kind (by decide) hkind)).bind ?_
    intro _ t₁ _ hlength₁
    refine (Walks.expect (by decide) _).bind ?_
    intro _ t₂ _ hlength₂
    refine (walks_expression t₂).bind ?_
    intro condition t₃ _ hlength₃
    refine (Walks.expect (by decide) _).bind ?_
    intro _ t₄ _ hlength₄
    refine (h.statement t₄ (by omega)).bind ?_
    intro consequent t₅ _ hlength₅
    refine .andReturn (.behind (by decide) ?_)
    intro hlength₆
    exact (h.statement _ (by omega)).less (Nat.zero_le 1)
  · rename_i hkind
    exact walks_printStatement (ne_nil_of_kind (by decide) hkind)
  · rename_i hkind
    exact walks_returnStatement (ne_nil_of_kind (by decide) hkind)
  · -- A `while` loop.
    rename_i hkind
    refine (Walks.advance (ne_nil_of_kind (by decide) hkind)).bind ?_
    intro _ t₁ _ hlength₁
    refine (Walks.expect (by decide) _).bind ?_
    intro _ t₂ _ hlength₂
    refine (walks_expression t₂).bind ?_
    intro condition t₃ _ hlength₃
    refine (Walks.expect (by decide) _).bind ?_
    intro _ t₄ _ hlength₄
    exact ((h.statement t₄ (by omega)).andReturn).less (Nat.zero_le 1)
  · -- A block.
    rename_i hkind
    refine (Walks.advance (ne_nil_of_kind (by decide) hkind)).bind ?_
    intro _ t₁ _ hlength₁
    exact (h.blockBody t₁ (by omega)).andReturn
  · exact walks_expressionStatement s

theorem body : Walk ts (n + 1) k.body k'.body where
  declaration _ hrest hn := .recover hrest (h.declared (by omega))
  declarations _ hn := h.body_declarations (by omega)
  blockBody _ hn := h.body_blockBody (by omega)
  routine kind _ hn := h.body_routine kind (by omega)
  methods _ hn := h.body_methods (by omega)
  classDeclaration _ hrest hn := h.body_classDeclaration hrest (by omega)
  statement _ hn := h.body_statement (by omega)

end Body

end StatementCalls.Walk

namespace StatementCalls

/-- What is done below makes no difference. -/
theorem walk_iterate (ts : List Token) (n : Nat) (k k' : StatementCalls) :
    Walk ts n (StatementCalls.body^[n] k) (StatementCalls.body^[n] k') := by
  induction n with
  | zero =>
      refine ⟨?_, ?_, ?_, ?_, ?_, ?_, ?_⟩ <;> intros <;> omega
  | succ n ih =>
      rw [Function.iterate_succ_apply', Function.iterate_succ_apply']
      exact ih.body

theorem walk_ofFuel (ts : List Token) (k : StatementCalls) {n depth fuel : Nat} (hdepth : n ≤ depth)
    (hfuel : n ≤ fuel) : Walk ts n (StatementCalls.body^[depth] k) (ofFuel fuel) := by
  rcases Nat.exists_eq_add_of_le hdepth with ⟨d, rfl⟩
  rcases Nat.exists_eq_add_of_le hfuel with ⟨d', rfl⟩
  rw [ofFuel_eq_iterate, Function.iterate_add_apply, Function.iterate_add_apply]
  exact walk_iterate ts n _ _

end StatementCalls

end Parse

end Lox
