import Lox.Proofs.Arena.Text
import Lox.Proofs.Spelling.Expression

/-!
# Statements are added as they are written

The names of statements and functions, and the keyword that a `return` keeps the place of, are tokens of the
text. For the condition of a `for` loop that has none an expression is added which no token spells; it is
placed at the semicolon that the reading of the clauses comes to behind the first of them.

Main statement: `Arena.addsFrom_readText`.
-/

namespace Lox

namespace Build

variable {α β : Type} {ts us : List Token} {old : Arena} {limit fuel : Nat} {b : BuildState}

/-- A step adds only what is written. -/
abbrev Adds (ts : List Token) (old : Arena) (limit : Nat) (q : Build α) (b : BuildState) : Prop :=
  Writes ts old limit q (fun _ _ _ => True) b

theorem Writes.adds {q : Build α} {Q : List Token → α → BuildState → Prop}
    (hq : Writes ts old limit q Q b) : Adds ts old limit q b :=
  hq.mono fun _ _ _ _ _ => trivial

/-! ## Parameters -/

theorem read_bind (p : Parse α) (f : α → Parse β) :
    read (p >>= f) = read p >>= fun x => read (f x) := by
  funext b
  rw [bind_apply, read, read, Parse.bind_apply]
  cases p b.reading <;> rfl

theorem writes_moreParameters (fuel : Nat) : ∀ (count : Nat) (limit : Nat) (b : BuildState),
    Writes ts old limit (read (Parse.moreParameters fuel count))
      (fun _ names _ => ∀ name ∈ names, name.WrittenIn ts) b := by
  induction fuel with
  | zero =>
      intro count limit b
      exact .pure (List.forall_mem_nil _)
  | succ fuel ih =>
      intro count limit b
      rw [Parse.moreParameters, read_bind]
      refine .counted ?_
      intro s _
      rw [read_bind]
      refine .ident ?_
      intro hkind hmem _
      rw [read_bind]
      refine .accept (by decide) ?_ ?_
      · intro _ _
        rw [if_pos rfl, read_bind]
        refine (ih (count + 1) _ _).bind ?_
        intro us names b₁ _ _ _ hnames
        exact .pure (List.forall_mem_cons.mpr ⟨⟨_, hmem, hkind, rfl⟩, hnames⟩)
      · rw [if_neg Bool.false_ne_true]
        exact .pure (List.forall_mem_singleton.mpr ⟨_, hmem, hkind, rfl⟩)

theorem writes_parameters (ts : List Token) (old : Arena) (limit : Nat) (b : BuildState) :
    Writes ts old limit (read Parse.parameters)
      (fun _ names _ => ∀ name ∈ names, name.WrittenIn ts) b := by
  rw [Parse.parameters, read_bind]
  refine .check ?_
  cases b.reading.current.kind == .rightParen with
  | true => exact .pure (List.forall_mem_nil _)
  | false =>
      exact .readFuelled (fun fuel => Parse.moreParameters fuel 0) (writes_moreParameters _ 0 limit b)

/-! ## Statements that hold no other statement -/

theorem adds_expressionStatement (ts : List Token) (old : Arena) (limit : Nat) (b : BuildState) :
    Adds ts old limit expressionStatement b := by
  refine (writes_expression ts old _ b).bind ?_
  intro us value b₁ _ _ _ _
  refine .expect (by decide) ?_
  intro _ _ _
  exact .pushStatement (.of_bare rfl rfl)

theorem adds_printStatement (hrest : b.reading.rest ≠ []) : Adds ts old limit printStatement b := by
  refine .advance hrest fun _ => ?_
  refine (writes_expression ts old _ _).bind ?_
  intro us value b₁ _ _ _ _
  refine .expect (by decide) ?_
  intro _ _ _
  exact .pushStatement (.of_bare rfl rfl)

/-- A `return` keeps the place of its keyword. -/
theorem adds_returnStatement (hkind : b.reading.current.kind = .keyword .return) :
    Adds ts old limit returnStatement b := by
  refine .given fun hb => ?_
  have hrest := Parse.ne_nil_of_kind (by decide) hkind
  have hmem := hb.current_mem hrest
  refine .advance hrest fun _ => ?_
  have hvalue : Adds ts old b.next.load (unlessAt .semicolon expression) b.next :=
    .unlessAt (fun _ => trivial) (writes_expression ts old _ _).adds
  refine hvalue.bind ?_
  intro us value b₁ _ _ _ _
  refine .expect (by decide) ?_
  intro _ _ _
  refine .pushStatement ⟨List.forall_mem_nil _, ?_⟩
  rintro place ⟨⟩
  exact ⟨_, hmem, hkind, rfl⟩

theorem adds_varDeclaration (hrest : b.reading.rest ≠ []) :
    Adds ts old limit varDeclaration b := by
  refine .advance hrest fun _ => ?_
  refine .ident ?_
  intro hkind hmem _
  have hinitial : Adds ts old b.next.next.load (behind .equal expression) b.next.next :=
    .behind (by decide) trivial fun _ _ => (writes_expression ts old _ _).adds
  refine hinitial.bind ?_
  intro us initial b₁ _ _ _ _
  refine .expect (by decide) ?_
  intro _ _ _
  refine .pushStatement (.of_names ?_ rfl)
  exact List.forall_mem_singleton.mpr ⟨_, hmem, hkind, rfl⟩

/-! ## Loops -/

theorem adds_forInitializer (ts : List Token) (old : Arena) (limit : Nat) (b : BuildState) :
    Adds ts old limit forInitializer b := by
  refine .accept (by decide) (fun _ _ => .pure trivial) ?_
  rw [if_neg Bool.false_ne_true]
  refine .map (.check (.ite ?_ ?_))
  · intro hvar
    have hkind : b.reading.current.kind = .keyword .var := by simpa using hvar
    exact adds_varDeclaration (Parse.ne_nil_of_kind (by decide) hkind)
  · intro _
    exact adds_expressionStatement ts old _ b

/-- Where the condition is missing, the semicolon behind it is the token that reading comes to behind the
first clause. -/
theorem writes_forParts {before : List Token} {keyword opening : Token}
    (hts : ts = before ++ keyword :: opening :: b.reading.rest)
    (hkeyword : keyword.kind = .keyword .for) (hopening : opening.kind = .leftParen) :
    Writes ts old limit forParts (fun _ parts b' => b'.load + 1 ≤ b.load ∧
      (parts.condition = none → ∃ semicolon, EndsCondition ts semicolon ∧
        parts.semicolon = semicolon.span)) b := by
  -- Where the first clause ends is known only from reading it.
  refine (adds_forInitializer ts old _ b).run.bind ?_
  rintro clause initializer b₁ hload₁ - hclause ⟨hinitializer, -⟩
  -- A condition that is missing passes no token.
  have hcondition : Writes ts old b₁.load (unlessAt .semicolon expression)
      (fun us condition b' => condition = none → us = [] ∧ b' = b₁) b₁ := by
    refine .unlessAt (fun _ _ => ⟨rfl, rfl⟩) ((writes_expression ts old _ b₁).mono ?_)
    intro us value b' _ _ hnone
    cases hnone
  refine hcondition.bind ?_
  intro us condition b₂ hload₂ _ _ hmissing
  refine .expect (by decide) ?_
  intro hsemicolon _ hload₃
  have hincrement : Adds ts old b₂.next.load (unlessAt .rightParen expression) b₂.next :=
    .unlessAt (fun _ => trivial) (writes_expression ts old _ _).adds
  refine hincrement.bind ?_
  intro vs increment b₃ hload₄ _ _ _
  refine .expect (by decide) ?_
  intro _ _ hload₅
  refine .pure ⟨by omega, ?_⟩
  intro hnone
  rcases hmissing hnone with ⟨-, rfl⟩
  have hcons := BuildState.rest_eq_cons (Parse.ne_nil_of_kind (by decide) hsemicolon)
  rw [hcons] at hclause
  rw [hclause] at hts
  exact ⟨_, .intro hts hkeyword hopening hinitializer hclause hcons hsemicolon, rfl⟩

theorem adds_round (ts : List Token) (old : Arena) (limit : Nat) (b : BuildState) (parts : ForParts)
    (body : Index) : Adds ts old limit (parts.round body) b := by
  unfold ForParts.round
  split
  · refine (Writes.pushStatement (.of_bare rfl rfl)).bind ?_
    intro us step b₁ _ _ _ _
    exact .pushStatement (.of_bare rfl rfl)
  · exact .pure trivial

theorem adds_around (ts : List Token) (old : Arena) (limit : Nat) (b : BuildState) (parts : ForParts)
    (loop : Index) : Adds ts old limit (parts.around loop) b := by
  unfold ForParts.around
  split
  · exact .pushStatement (.of_bare rfl rfl)
  · exact .pure trivial

/-- A missing condition is placed at the semicolon that ends it. -/
theorem adds_test {parts : ForParts} (hload : b.load + 1 ≤ limit)
    (hparts : parts.condition = none → ∃ semicolon, EndsCondition ts semicolon ∧
      parts.semicolon = semicolon.span) : Adds ts old limit parts.test b := by
  unfold ForParts.test
  split
  · exact .pure trivial
  · rename_i hnone
    rcases hparts hnone with ⟨semicolon, hends, hspan⟩
    rw [hspan]
    exact (Writes.pushExpression hload fun c i _ hentry => .missing hends hentry).adds

theorem adds_forLoop {parts : ForParts} {body : Index} (hload : b.load + 1 ≤ limit)
    (hparts : parts.condition = none → ∃ semicolon, EndsCondition ts semicolon ∧
      parts.semicolon = semicolon.span) : Adds ts old limit (forLoop parts body) b := by
  refine (adds_round ts old _ b parts body).bind ?_
  intro us round b₁ hload₁ _ _ _
  refine .bindWithin (Nat.le_add_right _ 1) (by omega)
    (adds_test (Nat.le_refl (b₁.load + 1)) hparts) ?_
  intro vs condition b₂ _ _ _ _
  refine (Writes.pushStatement (.of_bare rfl rfl)).bind ?_
  intro ws loop b₃ _ _ _ _
  exact adds_around ts old limit b₃ parts loop

/-! ## Functions, classes and statements -/

theorem adds_superclass (ts : List Token) (old : Arena) (limit : Nat) (b : BuildState) :
    Adds ts old limit superclass b := by
  refine .behind (by decide) trivial fun _ _ => ?_
  refine .given fun hb => .ident ?_
  intro hkind _ hload
  have hcons := BuildState.rest_eq_cons (Parse.ne_nil_of_kind (by decide) hkind)
  exact (Writes.pushSpelled [b.next.reading.current] (fun _ => rfl) (by omega) (hb.infix_of_append hcons)
    fun c i _ hentry => .var hentry hkind).adds

/-- The steps that read statements add what is written, whatever fuel they are given. -/
structure AddsStatements (fuel : Nat) : Prop where
  declaration : ∀ {ts old limit b}, Adds ts old limit (declaration fuel) b
  declarations : ∀ {ts old limit b}, Adds ts old limit (declarations fuel) b
  blockBody : ∀ {ts old limit b}, Adds ts old limit (blockBody fuel) b
  routine : ∀ {ts old limit b} kind, Adds ts old limit (routine fuel kind) b
  methods : ∀ {ts old limit b}, Adds ts old limit (methods fuel) b
  classDeclaration : ∀ {ts old limit b}, b.reading.rest ≠ [] →
    Adds ts old limit (classDeclaration fuel) b
  statement : ∀ {ts old limit b}, Adds ts old limit (statement fuel) b

section Step

variable (ih : AddsStatements fuel)

include ih

theorem adds_declaration_succ : Adds ts old limit (declaration (fuel + 1)) b := by
  rw [declaration]
  refine .recover (.peek ?_)
  split
  · rename_i hkind
    exact ih.classDeclaration (Parse.ne_nil_of_kind (by decide) hkind)
  · rename_i hkind
    refine .advance (Parse.ne_nil_of_kind (by decide) hkind) fun _ => ?_
    refine (ih.routine .function).bind ?_
    intro us decl b₁ _ _ _ _
    exact .pushStatement (.of_bare rfl rfl)
  · rename_i hkind
    exact adds_varDeclaration (Parse.ne_nil_of_kind (by decide) hkind)
  · exact ih.statement

theorem adds_declarations_succ : Adds ts old limit (declarations (fuel + 1)) b := by
  rw [declarations]
  refine .check (.atEnd (.ite (fun _ => .pure trivial) fun _ => ?_))
  refine ih.declaration.bind ?_
  intro us first b₁ _ _ _ _
  exact ih.declarations.andReturn

theorem adds_blockBody_succ : Adds ts old limit (blockBody (fuel + 1)) b := by
  rw [blockBody]
  refine ih.declarations.bind ?_
  intro us body b₁ _ _ _ _
  exact .expect (by decide) fun _ _ _ => .pure trivial

theorem adds_routine_succ (kind : RoutineKind) : Adds ts old limit (routine (fuel + 1) kind) b := by
  rw [routine]
  refine .ident ?_
  intro hkind hmem _
  refine .expect (by decide) fun _ _ _ => ?_
  refine (writes_parameters ts old _ _).bind ?_
  intro us names b₁ _ _ _ hnames
  refine .expect (by decide) fun _ _ _ => ?_
  refine .expect (by decide) fun _ _ _ => ?_
  refine ih.blockBody.bind ?_
  intro vs body b₂ _ _ _ _
  exact .pushFunction (List.forall_mem_cons.mpr ⟨⟨_, hmem, hkind, rfl⟩, hnames⟩)

theorem adds_methods_succ : Adds ts old limit (methods (fuel + 1)) b := by
  rw [methods]
  refine .check (.atEnd (.ite (fun _ => .pure trivial) fun _ => ?_))
  refine (ih.routine .method).bind ?_
  intro us first b₁ _ _ _ _
  exact ih.methods.andReturn

theorem adds_classDeclaration_succ (hrest : b.reading.rest ≠ []) :
    Adds ts old limit (classDeclaration (fuel + 1)) b := by
  rw [classDeclaration]
  refine .advance hrest fun _ => ?_
  refine .ident ?_
  intro hkind hmem _
  refine (adds_superclass ts old _ _).bind ?_
  intro us parent b₁ _ _ _ _
  refine .expect (by decide) fun _ _ _ => ?_
  refine ih.methods.bind ?_
  intro vs members b₂ _ _ _ _
  refine .expect (by decide) fun _ _ _ => ?_
  refine .pushStatement (.of_names ?_ rfl)
  exact List.forall_mem_singleton.mpr ⟨_, hmem, hkind, rfl⟩

theorem adds_statement_for (hkind : b.reading.current.kind = .keyword .for) :
    Adds ts old limit (do
      let _ ← read Parse.advance
      let _ ← read (Parse.expect .leftParen .openFor)
      let parts ← forParts
      let body ← statement fuel
      forLoop parts body) b := by
  refine .given fun hb => ?_
  have hlimit := hb.load
  have hrest := Parse.ne_nil_of_kind (by decide) hkind
  rcases id hb.rest with ⟨before, hbefore⟩
  refine .advance hrest fun hload₁ => ?_
  refine .expect (by decide) ?_
  intro hopening _ hload₂
  have hts : ts = before ++ b.reading.current :: b.next.reading.current ::
      b.next.next.reading.rest := by
    rw [← BuildState.rest_eq_cons (Parse.ne_nil_of_kind (by decide) hopening),
      ← BuildState.rest_eq_cons hrest, hbefore]
  refine (writes_forParts hts hkind hopening).bind ?_
  rintro us parts b₁ - - - ⟨hload₃, hparts⟩
  refine ih.statement.bind ?_
  intro vs body b₂ hload₄ _ _ _
  exact adds_forLoop (by omega) hparts

theorem adds_statement_succ : Adds ts old limit (statement (fuel + 1)) b := by
  rw [statement]
  refine .peek ?_
  split
  · -- A `for` loop.
    rename_i hkind
    exact adds_statement_for ih hkind
  · -- A branch.
    rename_i hkind
    refine .advance (Parse.ne_nil_of_kind (by decide) hkind) fun _ => ?_
    refine .expect (by decide) fun _ _ _ => ?_
    refine (writes_expression ts old _ _).bind ?_
    intro us condition b₁ _ _ _ _
    refine .expect (by decide) fun _ _ _ => ?_
    refine ih.statement.bind ?_
    intro vs consequent b₂ _ _ _ _
    have halternative : Adds ts old b₂.load (behind (.keyword .else) (statement fuel)) b₂ :=
      .behind (by decide) trivial fun _ _ => ih.statement
    refine halternative.bind ?_
    intro ws alternative b₃ _ _ _ _
    exact .pushStatement (.of_bare rfl rfl)
  · rename_i hkind
    exact adds_printStatement (Parse.ne_nil_of_kind (by decide) hkind)
  · rename_i hkind
    exact adds_returnStatement hkind
  · -- A `while` loop.
    rename_i hkind
    refine .advance (Parse.ne_nil_of_kind (by decide) hkind) fun _ => ?_
    refine .expect (by decide) fun _ _ _ => ?_
    refine (writes_expression ts old _ _).bind ?_
    intro us condition b₁ _ _ _ _
    refine .expect (by decide) fun _ _ _ => ?_
    refine ih.statement.bind ?_
    intro vs body b₂ _ _ _ _
    exact .pushStatement (.of_bare rfl rfl)
  · -- A block.
    rename_i hkind
    refine .advance (Parse.ne_nil_of_kind (by decide) hkind) fun _ => ?_
    refine ih.blockBody.bind ?_
    intro us body b₁ _ _ _ _
    exact .pushStatement (.of_bare rfl rfl)
  · exact adds_expressionStatement ts old limit b

end Step

theorem addsStatements (fuel : Nat) : AddsStatements fuel := by
  induction fuel with
  | zero =>
      refine ⟨?_, ?_, ?_, ?_, ?_, ?_, ?_⟩ <;> intros
      · exact .pure trivial
      · exact .pure trivial
      · exact .pure trivial
      · exact .fail
      · exact .pure trivial
      · exact .fail
      · exact .fail
  | succ fuel ih =>
      exact ⟨adds_declaration_succ ih, adds_declarations_succ ih, adds_blockBody_succ ih,
        adds_routine_succ ih, adds_methods_succ ih, adds_classDeclaration_succ ih,
        adds_statement_succ ih⟩

theorem adds_program (fuel : Nat) : ∀ (limit : Nat) (b : BuildState),
    Adds ts old limit (program fuel) b := by
  induction fuel with
  | zero =>
      intro limit b
      exact .pure trivial
  | succ fuel ih =>
      intro limit b
      rw [program]
      refine .atEnd (.ite (fun _ => .pure trivial) fun _ => ?_)
      have hfirst : Adds ts old b.load (fuelled declaration) b :=
        .fuelled (addsStatements _).declaration
      refine hfirst.bind ?_
      intro us first b₁ _ _ _ _
      exact (ih _ _).andReturn

end Build

/-! ## Texts -/

theorem Token.length_le_weights (ts : List Token) : ts.length ≤ weights ts := by
  induction ts with
  | nil =>
      exact Nat.le_refl 0
  | cons t ts ih =>
      have hpos := t.weight_pos
      rw [weights, List.length_cons]
      omega

/-- The tokens of a text that begins at byte `offset`, without the end of the input. -/
def textTokens (offset : Nat) (text : List Char) : List Token :=
  (ParseState.start (scan offset text) 0).rest

/-- A text adds to an arena only nodes that are written by its tokens. -/
theorem Arena.addsFrom_readText {a : Arena} {offset : Nat} {text : List Char}
    (hsmall : a.count + byteLength text < UInt32.size) :
    AddsFrom (textTokens offset text) a (a.readText offset text).1 := by
  let start : BuildState := ⟨.start (scan offset text) a.expressions.size, a⟩
  -- Each token makes one expression at most, and each has a byte at least.
  have hload : start.load < UInt32.size := by
    have hweight := ParseState.weight_start offset text a.expressions.size
    have hlength := Token.length_le_weights start.reading.rest
    unfold Arena.count at hsmall
    unfold ParseState.weight at hweight
    change a.expressions.size + start.reading.rest.length < UInt32.size
    change Token.weights start.reading.rest ≤ _ at hweight
    omega
  have hstart : start.Faithful (textTokens offset text) a start.load :=
    ⟨List.suffix_refl _, Nat.le_refl _, hload, .refl _ a⟩
  have hpost : Build.Adds (textTokens offset text) a start.load (Build.fuelled Build.program) start :=
    .fuelled (Build.adds_program _ _ _)
  have hend := hpost hstart
  unfold readText readItems
  cases hrun : Build.fuelled Build.program start with
  | ok is b' =>
      rw [hrun] at hend
      exact hend.1.adds
  | error e b' =>
      rw [hrun] at hend
      exact hend.1.adds

end Lox
