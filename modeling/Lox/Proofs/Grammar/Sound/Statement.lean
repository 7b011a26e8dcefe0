import Lox.Proofs.Grammar.Sound.Expression

/-!
# What is read without mistakes: statements

If no mistake is recorded when a program has been read, then its tokens are declarations of the grammar,
and the statements are the ones they are written for. An `else` goes to the nearest `if` that is open:
where an `if` is read without one, no `else` stands behind it.

Main statement: `Parse.yields_program`.
-/

namespace Lox

namespace Parse

open Grammar

variable {s : ParseState}

/-! ## Statements that hold no other statement -/

theorem yields_expressionStatement (s : ParseState) :
    Yields expressionStatement (fun ts a _ => ExpressionStatement ts a) s := by
  refine (yields_expression s).bind ?_
  intro value t
  refine .expect (by decide) ?_
  intro semicolon w hsemicolon _
  refine .pure ?_
  intro ts _ hvalue
  exact .intro hvalue hsemicolon

theorem yields_printStatement (hword : s.current.kind = .keyword .print) :
    Yields printStatement (fun ts a _ => Statement True false ts a) s := by
  refine .advance (ne_nil_of_kind (by decide) hword) ?_
  intro _
  refine (yields_expression s.next).bind ?_
  intro value t
  refine .expect (by decide) ?_
  intro semicolon w hsemicolon _
  refine .pure ?_
  intro ts _ hvalue
  exact .print hword hvalue hsemicolon

theorem yields_returnStatement (hword : s.current.kind = .keyword .return) :
    Yields returnStatement (fun ts a _ => Statement True false ts a) s := by
  refine .advance (ne_nil_of_kind (by decide) hword) ?_
  intro _
  refine (Yields.unlessAt (yields_expression s.next)).bind ?_
  intro value t
  refine .expect (by decide) ?_
  intro semicolon w hsemicolon _
  refine .pure ?_
  intro ts _ hvalue
  exact .return hword hvalue hsemicolon

theorem yields_varDeclaration (hword : s.current.kind = .keyword .var) :
    Yields varDeclaration (fun ts a _ => Variable ts a) s := by
  refine .advance (ne_nil_of_kind (by decide) hword) ?_
  intro _
  refine .ident ?_
  intro name t hname _
  refine (Yields.behind (by decide) yields_expression).bind ?_
  intro initial w
  refine .expect (by decide) ?_
  intro semicolon v hsemicolon _
  refine .pure ?_
  intro ts _ hinitial
  exact .intro hword hname hinitial hsemicolon

/-! ## Loops -/

theorem yields_forInitializer (s : ParseState) :
    Yields forInitializer (fun ts a _ => Initializer ts a) s := by
  refine .accept (by decide) ?_ ?_
  · intro hsemicolon _
    exact .pure (.none hsemicolon)
  · intro _
    rw [if_neg (by decide), map_eq_pure_bind]
    refine .andReturn (.check (.ite ?_ ?_))
    · intro hword
      refine (yields_varDeclaration (by simpa using hword)).mono ?_
      intro ts a _ ha
      exact .variable ha
    · intro _
      refine (yields_expressionStatement s).mono ?_
      intro ts a _ ha
      exact .expression ha

theorem yields_forClauses (s : ParseState) :
    Yields forClauses (fun ts clauses _ => Clauses ts clauses) s := by
  refine (yields_forInitializer s).bind ?_
  intro initializer t₁
  refine (Yields.unlessAt (yields_expression t₁)).bind ?_
  intro condition t₂
  refine .expect (by decide) ?_
  intro semicolon t₃ hsemicolon _
  refine (Yields.unlessAt (yields_expression t₃)).bind ?_
  intro increment t₄
  refine .expect (by decide) ?_
  intro closing t₅ hclosing _
  refine .pure ?_
  intro ws _ hincrement us _ hcondition ts _ hinitializer
  exact .intro hinitializer hcondition hsemicolon hincrement hclosing

/-- A loop reads nothing more when its clauses and its body have been read. -/
theorem yields_forLoop (clauses : ForClauses) (body : Stmt) (s : ParseState) :
    Yields (forLoop clauses body) (fun ts a t => ts = [] ∧ t.current = s.current ∧
      ∃ condition, Test clauses.semicolon clauses.condition condition ∧
        a = forTree clauses.initializer condition clauses.increment body) s := by
  rcases clauses with ⟨initializer, _ | condition, semicolon, increment⟩
  · simp only [forLoop, ForClauses.test, bind_assoc, pure_bind]
    refine .node (.pure ?_)
    refine ⟨rfl, rfl, .literal ⟨s.nextId, semicolon⟩ (.boolean true), .always, ?_⟩
    cases initializer <;> cases increment <;> rfl
  · simp only [forLoop, ForClauses.test, pure_bind]
    refine .pure ?_
    refine ⟨rfl, rfl, condition, .written, ?_⟩
    cases initializer <;> cases increment <;> rfl

/-! ## Functions and classes -/

theorem yields_moreParameters (fuel : Nat) : ∀ count s,
    Yields (moreParameters fuel count) (fun ts names _ =>
      s.rest.length < fuel → Names ts names ∧ count + names.length ≤ maxArguments) s := by
  induction fuel with
  | zero =>
      intro count s
      exact .pure fun hfuel => absurd hfuel (Nat.not_lt_zero _)
  | succ fuel ih =>
      intro count s
      rw [moreParameters]
      refine .limit ?_
      intro t hrest
      refine .ident ?_
      intro name w hname hlength
      refine .accept (by decide) ?_ ?_
      · intro hcomma hlength'
        rw [if_pos rfl]
        refine .andReturn ((ih (count + 1) w.next).mono ?_)
        intro us others _ hothers hcount hfuel
        rw [hrest] at hlength
        rcases hothers (by omega) with ⟨hnames, htotal⟩
        refine ⟨.more hname hcomma hnames, ?_⟩
        rw [List.length_cons]
        omega
      · intro _
        refine .pure ?_
        intro hcount _
        exact ⟨.one hname, hcount⟩

theorem yields_parameters (s : ParseState) :
    Yields parameters (fun ts names _ => Parameters ts names) s := by
  refine .check (.ite ?_ ?_)
  · intro _
    exact .pure .none
  · intro _
    have henough : s.rest.length < s.fuel := by
      simp only [ParseState.fuel]
      omega
    refine .fuelled ((yields_moreParameters s.fuel 0 s).mono ?_)
    intro ts names _ hnames
    rcases hnames henough with ⟨hlist, hcount⟩
    exact .some hlist (by omega)

theorem yields_superclass (s : ParseState) :
    Yields superclass (fun ts parent _ => Optional (Behind .less Parent) ts parent) s := by
  refine .behind (by decide) ?_
  intro t
  refine .ident ?_
  intro name w hname _ r v hrun herrors
  -- The number of the reference is all that is left to take.
  cases hrun
  exact ⟨herrors, [], rfl, .intro hname⟩

/-! ## Statements and declarations -/

/-- What is known of a statement that has been read: if it is open, no `else` stands behind it. -/
def Settled (ts : List Token) (a : Stmt) (t : ParseState) : Prop :=
  ∃ isOpen, Statement True isOpen ts a ∧ (isOpen = true → t.current.kind ≠ .keyword .else)

theorem Settled.closed {ts : List Token} {a : Stmt} (h : Statement True false ts a)
    (t : ParseState) : Settled ts a t :=
  ⟨false, h, fun hopen => absurd hopen (by decide)⟩

/-- What reading statements gives with some amount of fuel, if it is enough for the tokens that are
left. -/
structure StatementsYield (fuel : Nat) : Prop where
  declaration : ∀ s, Yields (declaration fuel) (fun ts first _ =>
    8 * s.rest.length + 2 ≤ fuel → ∃ a, first = some a ∧ Declaration True ts a) s
  declarations : ∀ s, Yields (declarations fuel) (fun ts ss _ =>
    8 * s.rest.length + 3 ≤ fuel → Declarations True ts ss) s
  blockBody : ∀ s, Yields (blockBody fuel) (fun ts ss _ =>
    8 * s.rest.length + 4 ≤ fuel → Body True ts ss) s
  routine : ∀ kind s, Yields (routine fuel kind) (fun ts decl _ =>
    8 * s.rest.length + 1 ≤ fuel → Function True ts decl) s
  methods : ∀ s, Yields (methods fuel) (fun ts members _ =>
    8 * s.rest.length + 2 ≤ fuel → Methods True ts members) s
  classDeclaration : ∀ s, s.current.kind = .keyword .class →
    Yields (classDeclaration fuel) (fun ts a _ =>
      8 * s.rest.length + 1 ≤ fuel → Declaration True ts a) s
  statement : ∀ s, Yields (statement fuel) (fun ts a t =>
    8 * s.rest.length + 1 ≤ fuel → Settled ts a t) s

section Step

variable {fuel : Nat} (ih : StatementsYield fuel)

include ih

theorem yields_declaration (s : ParseState) :
    Yields (declaration (fuel + 1)) (fun ts first _ =>
      8 * s.rest.length + 2 ≤ fuel + 1 → ∃ a, first = some a ∧ Declaration True ts a) s := by
  rw [declaration]
  refine Yields.recover (.peek ?_)
  split
  · rename_i hkind
    refine (ih.classDeclaration s hkind).mono ?_
    intro ts a _ ha hfuel
    exact ⟨a, rfl, ha (by omega)⟩
  · rename_i hkind
    refine .advance (ne_nil_of_kind (by decide) hkind) ?_
    intro hnext
    refine .andReturn ((ih.routine .function s.next).mono ?_)
    intro ts decl _ hdecl hfuel
    exact ⟨_, rfl, .function hkind (hdecl (by omega))⟩
  · rename_i hkind
    refine (yields_varDeclaration hkind).mono ?_
    intro ts a _ ha _
    exact ⟨a, rfl, .variable ha⟩
  · refine (ih.statement s).mono ?_
    intro ts a _ ha hfuel
    rcases ha (by omega) with ⟨isOpen, hstatement, -⟩
    exact ⟨a, rfl, .statement hstatement⟩

theorem yields_declarations (s : ParseState) :
    Yields (declarations (fuel + 1)) (fun ts ss _ =>
      8 * s.rest.length + 3 ≤ fuel + 1 → Declarations True ts ss) s := by
  rw [declarations]
  refine .check (.atEnd (.ite ?_ ?_))
  · intro _
    exact .pure fun _ => .nil
  · intro _
    refine (ih.declaration s).bind ?_
    intro first t
    refine .andReturn ((ih.declarations t).mono ?_)
    intro us others _ hothers ts hlength hfirst hfuel
    rcases hfirst (by omega) with ⟨a, rfl, ha⟩
    -- A declaration has tokens, so there is fuel enough for those behind it.
    have hpos : 0 < ts.length := List.length_pos_iff.mpr ((declaration_begins ha).2)
    exact .cons ha (hothers (by omega))

theorem yields_blockBody (s : ParseState) :
    Yields (blockBody (fuel + 1)) (fun ts ss _ =>
      8 * s.rest.length + 4 ≤ fuel + 1 → Body True ts ss) s := by
  rw [blockBody]
  refine (ih.declarations s).bind ?_
  intro body t
  refine .expect (by decide) ?_
  intro closing w hclosing _
  refine .pure ?_
  intro ts _ hbody hfuel
  exact .intro (hbody (by omega)) hclosing

theorem yields_routine (kind : RoutineKind) (s : ParseState) :
    Yields (routine (fuel + 1) kind) (fun ts decl _ =>
      8 * s.rest.length + 1 ≤ fuel + 1 → Function True ts decl) s := by
  rw [routine]
  refine .ident ?_
  intro name t₁ hname hlength₁
  refine .expect (by decide) ?_
  intro opening t₂ hopening hlength₂
  refine (yields_parameters t₂).bind ?_
  intro names t₃
  refine .expect (by decide) ?_
  intro closing t₄ hclosing hlength₄
  refine .expect (by decide) ?_
  intro brace t₅ hbrace hlength₅
  refine .andReturn ((ih.blockBody t₅).mono ?_)
  intro us body _ hbody ts hlength₃ hnames hfuel
  exact .intro hname hopening hnames hclosing hbrace (hbody (by omega))

theorem yields_methods (s : ParseState) :
    Yields (methods (fuel + 1)) (fun ts members _ =>
      8 * s.rest.length + 2 ≤ fuel + 1 → Methods True ts members) s := by
  rw [methods]
  refine .check (.atEnd (.ite ?_ ?_))
  · intro _
    exact .pure fun _ => .nil
  · intro _
    refine (ih.routine .method s).bind ?_
    intro first t
    refine .andReturn ((ih.methods t).mono ?_)
    intro us others _ hothers ts hlength hfirst hfuel
    have hmethod := hfirst (by omega)
    have hpos : 0 < ts.length := List.length_pos_iff.mpr (function_ne_nil hmethod)
    exact .cons hmethod (hothers (by omega))

theorem yields_classDeclaration (s : ParseState) (hword : s.current.kind = .keyword .class) :
    Yields (classDeclaration (fuel + 1)) (fun ts a _ =>
      8 * s.rest.length + 1 ≤ fuel + 1 → Declaration True ts a) s := by
  rw [classDeclaration]
  refine .advance (ne_nil_of_kind (by decide) hword) ?_
  intro hnext
  refine .ident ?_
  intro name t₁ hname hlength₁
  refine (yields_superclass t₁).bind ?_
  intro parent t₂
  refine .expect (by decide) ?_
  intro opening t₃ hopening hlength₃
  refine (ih.methods t₃).bind ?_
  intro members t₄
  refine .expect (by decide) ?_
  intro closing t₅ hclosing _
  refine .pure ?_
  intro us hlength₄ hmembers ts hlength₂ hparent hfuel
  exact .class hword hname hparent hopening (hmembers (by omega)) hclosing

theorem yields_for (s : ParseState) (hword : s.current.kind = .keyword .for) :
    Yields (do
      let _ ← advance
      let _ ← expect .leftParen .openFor
      let clauses ← forClauses
      let body ← statement fuel
      forLoop clauses body) (fun ts a t => 8 * s.rest.length + 1 ≤ fuel + 1 → Settled ts a t) s := by
  refine .advance (ne_nil_of_kind (by decide) hword) ?_
  intro hnext
  refine .expect (by decide) ?_
  intro opening t₁ hopening hlength₁
  refine (yields_forClauses t₁).bind ?_
  intro clauses t₂
  refine (ih.statement t₂).bind ?_
  intro body t₃
  refine (yields_forLoop clauses body t₃).mono ?_
  rintro vs a t ⟨rfl, hcurrent, condition, htest, rfl⟩ us hlength₃ hbody ts hlength₂ hclauses hfuel
  rcases hbody (by omega) with ⟨isOpen, hstatement, helse⟩
  rw [List.append_nil]
  exact ⟨isOpen, .for hword hopening hclauses htest hstatement, by rwa [hcurrent]⟩

/-- An `if` takes the `else` behind it, if there is one. -/
theorem yields_if (s : ParseState) (hword : s.current.kind = .keyword .if) :
    Yields (do
      let _ ← advance
      let _ ← expect .leftParen .openIf
      let condition ← expression
      let _ ← expect .rightParen .closeIf
      let consequent ← statement fuel
      let alternative ← behind (.keyword .else) (statement fuel)
      return .ifElse condition consequent alternative)
      (fun ts a t => 8 * s.rest.length + 1 ≤ fuel + 1 → Settled ts a t) s := by
  refine .advance (ne_nil_of_kind (by decide) hword) ?_
  intro hnext
  refine .expect (by decide) ?_
  intro opening t₁ hopening hlength₁
  refine (yields_expression t₁).bind ?_
  intro condition t₂
  refine .expect (by decide) ?_
  intro closing t₃ hclosing hlength₃
  refine (ih.statement t₃).bind ?_
  intro consequent t₄
  rw [behind, bind_assoc]
  refine .accept (by decide) ?_ ?_
  · intro hother hlength₅
    rw [if_pos rfl, map_eq_pure_bind, bind_assoc]
    simp only [pure_bind]
    refine .andReturn ((ih.statement t₄.next).mono ?_)
    intro vs alternative t halternative us hlength₄ hconsequent ts hlength₂ hcondition hfuel
    rcases hconsequent (by omega) with ⟨within, hwithin, hclosed⟩
    rcases halternative (by omega) with ⟨isOpen, hstatement, helse⟩
    -- An `else` is at hand, so what was read before it is not open.
    have hnearest : within = false := by
      cases within with
      | false => rfl
      | true => exact absurd hother (hclosed rfl)
    exact ⟨isOpen, .ifElse hword hopening hcondition hclosing hwithin (fun _ => hnearest) hother
      hstatement, helse⟩
  · intro hno
    refine .pure ?_
    intro us hlength₄ hconsequent ts hlength₂ hcondition hfuel
    rcases hconsequent (by omega) with ⟨isOpen, hstatement, -⟩
    rw [List.append_nil]
    exact ⟨true, .ifThen hword hopening hcondition hclosing hstatement, fun _ => hno⟩

theorem yields_while (s : ParseState) (hword : s.current.kind = .keyword .while) :
    Yields (do
      let _ ← advance
      let _ ← expect .leftParen .openWhile
      let condition ← expression
      let _ ← expect .rightParen .closeWhile
      let body ← statement fuel
      return .while condition body)
      (fun ts a t => 8 * s.rest.length + 1 ≤ fuel + 1 → Settled ts a t) s := by
  refine .advance (ne_nil_of_kind (by decide) hword) ?_
  intro hnext
  refine .expect (by decide) ?_
  intro opening t₁ hopening hlength₁
  refine (yields_expression t₁).bind ?_
  intro condition t₂
  refine .expect (by decide) ?_
  intro closing t₃ hclosing hlength₃
  refine .andReturn ((ih.statement t₃).mono ?_)
  intro us body t hbody ts hlength₂ hcondition hfuel
  rcases hbody (by omega) with ⟨isOpen, hstatement, helse⟩
  exact ⟨isOpen, .while hword hopening hcondition hclosing hstatement, helse⟩

theorem yields_statement (s : ParseState) :
    Yields (statement (fuel + 1)) (fun ts a t =>
      8 * s.rest.length + 1 ≤ fuel + 1 → Settled ts a t) s := by
  rw [statement]
  refine .peek ?_
  split
  · rename_i hword
    exact yields_for ih s hword
  · rename_i hword
    exact yields_if ih s hword
  · rename_i hword
    refine (yields_printStatement hword).mono ?_
    intro ts a t ha _
    exact .closed ha t
  · rename_i hword
    refine (yields_returnStatement hword).mono ?_
    intro ts a t ha _
    exact .closed ha t
  · rename_i hword
    exact yields_while ih s hword
  · rename_i hopening
    refine .advance (ne_nil_of_kind (by decide) hopening) ?_
    intro hnext
    refine .andReturn ((ih.blockBody s.next).mono ?_)
    intro ts body t hbody hfuel
    exact .closed (.block hopening (hbody (by omega))) t
  · refine (yields_expressionStatement s).mono ?_
    intro ts a t ha _
    exact .closed (.expression ha) t

end Step

theorem statementsYield (fuel : Nat) : StatementsYield fuel := by
  induction fuel with
  | zero =>
      refine ⟨?_, ?_, ?_, ?_, ?_, ?_, ?_⟩
      · intro s
        exact .pure fun hfuel => absurd hfuel (by omega)
      · intro s
        exact .pure fun hfuel => absurd hfuel (by omega)
      · intro s
        exact .pure fun hfuel => absurd hfuel (by omega)
      · intro kind s
        exact .fail
      · intro s
        exact .pure fun hfuel => absurd hfuel (by omega)
      · intro s _
        exact .fail
      · intro s
        exact .fail
  | succ fuel ih =>
      exact ⟨yields_declaration ih, yields_declarations ih, yields_blockBody ih, yields_routine ih,
        yields_methods ih, yields_classDeclaration ih, yields_statement ih⟩

/-! ## Programs -/

/-- A program that is read without mistakes is one of the grammar. -/
theorem yields_program (fuel : Nat) : ∀ s, Yields (program fuel) (fun ts ss _ =>
    s.rest.length < fuel → Declarations True ts ss) s := by
  induction fuel with
  | zero =>
      intro s
      exact .pure fun hfuel => absurd hfuel (Nat.not_lt_zero _)
  | succ fuel ih =>
      intro s
      rw [program]
      refine .atEnd (.ite ?_ ?_)
      · intro _
        exact .pure fun _ => .nil
      · intro _
        have henough : 8 * s.rest.length + 2 ≤ s.fuel := by
          simp only [ParseState.fuel]
          omega
        refine (Yields.fuelled ((statementsYield s.fuel).declaration s)).bind ?_
        intro first t
        refine .andReturn ((ih t).mono ?_)
        intro us others _ hothers ts hlength hfirst hfuel
        rcases hfirst henough with ⟨a, rfl, ha⟩
        have hpos : 0 < ts.length := List.length_pos_iff.mpr (declaration_begins ha).2
        exact .cons ha (hothers (by omega))

end Parse

end Lox
