import Lox.Proofs.Arena.Expression

/-!
# Statements in an arena

Each step that reads statements into an arena agrees with the one that reads them as trees. The nodes
that a `for` loop stands for are paid for by the tokens that only such a loop has.

Main statement: `Build.agrees_program`.
-/

namespace Lox

namespace BuildState

/-- An expression that may be missing has been read. -/
abbrev GotOptionalExpr :=
  Got (fun a => Option.Rel a.ShowsExpr) fun x? => x?.toList.map .expression

/-- The class that a class inherits from has been read, if there is one. -/
abbrev GotSuperclass :=
  Got (fun a => Option.Rel fun x reference => a.ShowsExpr x (.var reference))
    fun x? => x?.toList.map .expression

/-- A statement has been read. -/
abbrev GotStmt :=
  Got Arena.ShowsStmt fun i => [.statement i]

/-- A statement that may be missing has been read. -/
abbrev GotOptionalStmt :=
  Got Arena.ShowsOption fun i? => i?.toList.map .statement

/-- Statements have been read. -/
abbrev GotStmts :=
  Got Arena.ShowsAll fun is => is.map .statement

/-- A function has been read. -/
abbrev GotRoutine :=
  Got Arena.ShowsRoutine fun f => [.function f]

/-- Methods have been read. -/
abbrev GotMethods :=
  Got Arena.ShowsMethods fun fs => fs.map .function

end BuildState

namespace Arena

variable {a : Arena} {is js : List Index} {i? : Option Index} {s? : Option Stmt}
  {ss ts : List Stmt}

theorem ShowsAll.append (hs : a.ShowsAll is ss) (ht : a.ShowsAll js ts) :
    a.ShowsAll (is ++ js) (ss ++ ts) := by
  induction ss generalizing is with
  | nil =>
      rw [ShowsAll] at hs
      subst hs
      exact ht
  | cons s ss ih =>
      rcases hs with ⟨i, is, rfl, hi, his⟩
      exact ⟨i, is ++ js, rfl, hi, ih his⟩

theorem ShowsOption.toList (h : a.ShowsOption i? s?) : a.ShowsAll i?.toList s?.toList := by
  cases s? with
  | none =>
      rw [ShowsOption] at h
      subst h
      exact rfl
  | some s =>
      rcases h with ⟨i, rfl, hi⟩
      exact ⟨i, [], rfl, hi, rfl⟩

end Arena

namespace Build

variable {limit weight : Nat} {frame roots : List Handle} {b : BuildState}

/-! ## Statements that hold no other statement -/

/-- A statement is complete: its parts are roots, and it takes their place. -/
theorem agrees_completed {s : Stmt} {node : StmtNode} {held : List Handle}
    (h : b.Ready limit frame held) (hperm : held.Perm (node.children ++ roots))
    (hframe : frame.Sublist roots) (hweight : b.weight + 1 ≤ weight) (hle : weight ≤ limit)
    (hshows : ∀ {a : Arena} {x}, b.arena.Grows a → a.statements[x.toNat]? = some node →
      a.ShowsStmt x s) :
    Agrees limit frame b (pushStatement node) (pure s)
      (BuildState.GotStmt limit frame roots weight) := by
  refine (agrees_pushStatement h hperm hframe (Nat.le_trans hweight hle)).mono ?_
  rintro x v b' - ⟨rfl, hgrows, hnode, hready, hweight'⟩
  exact ⟨hshows hgrows hnode, hready, Nat.le_trans hweight' hweight⟩

theorem agrees_expressionStatement (h : b.Ready limit frame roots) :
    Agrees limit frame b expressionStatement Parse.expressionStatement
      (BuildState.GotStmt limit frame roots b.weight) := by
  have hlimit := h.weight
  refine (agrees_expression h).bind ?_
  intro x e b₁ _ he
  have hweight₁ := he.weight
  refine (agrees_expect he.ready (by decide) _).bind ?_
  rintro _ _ b₂ hgrows₂ ⟨-, h₂, hweight₂⟩
  refine agrees_completed h₂ (.refl _) h.frame (by omega) hlimit ?_
  intro a i hgrows hnode
  exact ⟨x, hnode, he.shows.grows (hgrows₂.trans hgrows)⟩

theorem agrees_printStatement (h : b.Ready limit frame roots)
    (hkind : b.reading.current.kind ≠ .eof) :
    Agrees limit frame b printStatement Parse.printStatement
      (BuildState.GotStmt limit frame roots b.weight) := by
  have hlimit := h.weight
  refine (agrees_advance h hkind).bind ?_
  rintro _ _ b₁ - ⟨-, h₁, hweight₁, -⟩
  refine (agrees_expression h₁).bind ?_
  intro x e b₂ _ he
  have hweight₂ := he.weight
  refine (agrees_expect he.ready (by decide) _).bind ?_
  rintro _ _ b₃ hgrows₃ ⟨-, h₃, hweight₃⟩
  refine agrees_completed h₃ (.refl _) h.frame (by omega) hlimit ?_
  intro a i hgrows hnode
  exact ⟨x, hnode, he.shows.grows (hgrows₃.trans hgrows)⟩

theorem agrees_optionalExpression {kind : Kind} (h : b.Ready limit frame roots) :
    Agrees limit frame b (unlessAt kind expression) (Parse.unlessAt kind Parse.expression)
      (BuildState.GotOptionalExpr limit frame roots b.weight) := by
  refine (agrees_unlessAt (agrees_expression h)).mono ?_
  rintro x? e? b' - (⟨rfl, rfl, rfl⟩ | ⟨x, e, rfl, rfl, he⟩)
  · exact ⟨.none, h, Nat.le_refl _⟩
  · exact ⟨.some he.shows, he.ready, he.weight⟩

theorem agrees_returnStatement (h : b.Ready limit frame roots)
    (hkind : b.reading.current.kind ≠ .eof) :
    Agrees limit frame b returnStatement Parse.returnStatement
      (BuildState.GotStmt limit frame roots b.weight) := by
  have hlimit := h.weight
  refine (agrees_advance h hkind).bind ?_
  rintro keyword _ b₁ - ⟨rfl, h₁, hweight₁, -⟩
  have hpos := keyword.weight_pos
  refine (agrees_optionalExpression h₁).bind ?_
  intro x? e? b₂ _ he
  have hweight₂ := he.weight
  refine (agrees_expect he.ready (by decide) _).bind ?_
  rintro _ _ b₃ hgrows₃ ⟨-, h₃, hweight₃⟩
  refine agrees_completed h₃ (.refl _) h.frame (by omega) hlimit ?_
  intro a i hgrows hnode
  exact ⟨x?, hnode, Arena.relGrows (fun _ _ hx => hx.grows (hgrows₃.trans hgrows)) he.shows⟩

theorem agrees_varDeclaration (h : b.Ready limit frame roots)
    (hkind : b.reading.current.kind ≠ .eof) :
    Agrees limit frame b varDeclaration Parse.varDeclaration
      (BuildState.GotStmt limit frame roots b.weight) := by
  have hlimit := h.weight
  refine (agrees_advance h hkind).bind ?_
  rintro _ _ b₁ - ⟨-, h₁, hweight₁, -⟩
  refine (agrees_ident h₁ _).bind ?_
  rintro name _ b₂ - ⟨rfl, h₂, hweight₂⟩
  have hinitial : Agrees limit frame b₂ (behind .equal expression)
      (Parse.behind .equal Parse.expression)
      (BuildState.GotOptionalExpr limit frame roots b₂.weight) := by
    have hvalue : ∀ b' : BuildState, b'.Ready limit frame roots → b'.weight + 1 ≤ b₂.weight →
        Agrees limit frame b' expression Parse.expression
          (BuildState.GotExpr limit frame roots b₂.weight) := fun b' hb' hweight =>
      (agrees_expression hb').mono fun _ _ _ _ he => he.le (Nat.le_of_succ_le hweight)
    refine (agrees_behind h₂ (by decide) hvalue).mono ?_
    rintro x? e? b' - (⟨rfl, rfl, h', hweight'⟩ | ⟨x, e, rfl, rfl, he⟩)
    · exact ⟨.none, h', hweight'⟩
    · exact ⟨.some he.shows, he.ready, he.weight⟩
  refine hinitial.bind ?_
  intro x? e? b₃ _ he
  have hweight₃ := he.weight
  refine (agrees_expect he.ready (by decide) _).bind ?_
  rintro _ _ b₄ hgrows₄ ⟨-, h₄, hweight₄⟩
  refine agrees_completed h₄ (.refl _) h.frame (by omega) hlimit ?_
  intro a i hgrows hnode
  exact ⟨x?, hnode, Arena.relGrows (fun _ _ hx => hx.grows (hgrows₄.trans hgrows)) he.shows⟩

/-! ## Loops -/

/-- The clauses of a loop stand in an arena. -/
structure ForParts.Shows (a : Arena) (parts : ForParts) (clauses : Parse.ForClauses) : Prop where
  initializer : a.ShowsOption parts.initializer clauses.initializer
  condition : Option.Rel a.ShowsExpr parts.condition clauses.condition
  semicolon : parts.semicolon = clauses.semicolon
  increment : Option.Rel a.ShowsExpr parts.increment clauses.increment

/-- What the clauses of a loop are until the loop is complete. The last clause is needed first. -/
def ForParts.handles (parts : ForParts) : List Handle :=
  parts.increment.toList.map .expression ++ (parts.condition.toList.map .expression ++
    parts.initializer.toList.map .statement)

/-- The clauses of a loop have been read. -/
abbrev GotForParts :=
  BuildState.Got ForParts.Shows ForParts.handles

theorem agrees_forInitializer (h : b.Ready limit frame roots) :
    Agrees limit frame b forInitializer Parse.forInitializer
      (BuildState.GotOptionalStmt limit frame roots b.weight) := by
  refine (agrees_accept h (by decide)).bind ?_
  rintro x v b₁ - ⟨rfl, h₁, hweight₁⟩
  refine .ite ?_ ?_
  · intro _
    exact .pure ⟨rfl, h₁, by omega⟩
  · intro _
    have hclause : Agrees limit frame b₁
        (do if ← read (Parse.check (.keyword .var)) then varDeclaration else expressionStatement)
        (do if ← Parse.check (.keyword .var) then Parse.varDeclaration
            else Parse.expressionStatement)
        (BuildState.GotStmt limit frame roots b₁.weight) := by
      refine (agrees_check _).bind ?_
      rintro var _ b₂ - ⟨rfl, rfl, hvar⟩
      refine .ite ?_ ?_
      · rintro rfl
        refine agrees_varDeclaration h₁ ?_
        rw [beq_iff_eq.mp hvar.symm]
        decide
      · intro _
        exact agrees_expressionStatement h₁
    refine hclause.map ?_
    intro x s b₂ _ hs
    exact ⟨⟨x, rfl, hs.shows⟩, hs.ready, by have := hs.weight; omega⟩

theorem agrees_forParts (h : b.Ready limit frame roots) :
    Agrees limit frame b forParts Parse.forClauses fun parts clauses b' =>
      GotForParts limit frame roots b.weight parts clauses b' ∧ b'.weight + 2 ≤ b.weight := by
  refine (agrees_forInitializer h).bind ?_
  intro i? s? b₁ _ hinitializer
  have hweight₁ := hinitializer.weight
  refine (agrees_optionalExpression hinitializer.ready).bind ?_
  intro x? e? b₂ hgrows₂ hcondition
  have hweight₂ := hcondition.weight
  refine (agrees_expect hcondition.ready (by decide) _).bind ?_
  rintro semicolon _ b₃ hgrows₃ ⟨rfl, h₃, hweight₃⟩
  refine (agrees_optionalExpression h₃).bind ?_
  intro y? f? b₄ hgrows₄ hincrement
  have hweight₄ := hincrement.weight
  refine (agrees_expect hincrement.ready (by decide) _).bind ?_
  rintro _ _ b₅ hgrows₅ ⟨-, h₅, hweight₅⟩
  have hgrows₃₅ := (hgrows₃.trans hgrows₄).trans hgrows₅
  refine .pure ⟨⟨⟨?_, ?_, rfl, ?_⟩, ?_, by omega⟩, by omega⟩
  · exact hinitializer.shows.grows (hgrows₂.trans hgrows₃₅) _
  · exact Arena.relGrows (fun _ _ hx => hx.grows hgrows₃₅) hcondition.shows
  · exact Arena.relGrows (fun _ _ hx => hx.grows hgrows₅) hincrement.shows
  · -- What was read last stands first among the roots.
    rw [ForParts.handles, List.append_assoc, List.append_assoc]
    exact h₅

section Loop

variable {parts : ForParts} {clauses : Parse.ForClauses} {rest : List Handle} {body : Index}
  {tree : Stmt}

/-- The body and the increment become the body of the loop. -/
theorem agrees_round (hparts : Option.Rel b.arena.ShowsExpr parts.increment clauses.increment)
    (hbody : b.arena.ShowsStmt body tree)
    (h : b.Ready limit frame
      (.statement body :: (parts.increment.toList.map .expression ++ rest)))
    (hframe : frame.Sublist rest) (hweight : b.weight + 2 ≤ limit) :
    Agrees limit frame b (parts.round body) (pure (clauses.round tree))
      (BuildState.GotStmt limit frame rest (b.weight + 2)) := by
  unfold ForParts.round Parse.ForClauses.round
  -- Only one of the clauses matters here.
  generalize parts.increment = x? at *
  generalize clauses.increment = e? at *
  cases hparts with
  | none =>
      exact .pure ⟨hbody, h, Nat.le_add_right _ _⟩
  | @some x e hx =>
      have hstep : Agrees limit frame b (pushStatement (.expression x))
          (pure (.expression e) : Parse Stmt)
          (BuildState.GotStmt limit frame (.statement body :: rest) (b.weight + 1)) :=
        agrees_completed h (.swap _ _ _) (.cons _ hframe) (Nat.le_refl _) (by omega)
          fun hgrows hnode => ⟨x, hnode, hx.grows hgrows⟩
      change Agrees limit frame b _ ((pure (.expression e) : Parse Stmt) >>= fun s =>
        pure (Stmt.block [tree, s])) _
      refine hstep.bind ?_
      intro j s b₁ hgrows₁ hs
      have hweight₁ := hs.weight
      refine agrees_completed hs.ready (.swap _ _ _) hframe (by omega) hweight ?_
      intro a i hgrows hnode
      exact ⟨[body, j], hnode, body, [j], rfl, hbody.grows (hgrows₁.trans hgrows) tree, j, [], rfl,
        hs.shows.grows hgrows s, rfl⟩

/-- A missing condition is added. -/
theorem agrees_test (hparts : Option.Rel b.arena.ShowsExpr parts.condition clauses.condition)
    (hsemicolon : parts.semicolon = clauses.semicolon)
    (h : b.Ready limit frame (parts.condition.toList.map .expression ++ rest)) (hweight : b.weight + 1 ≤ limit) :
    Agrees limit frame b parts.test clauses.test
      (BuildState.GotExpr limit frame rest (b.weight + 1)) := by
  unfold ForParts.test Parse.ForClauses.test
  rw [hsemicolon]
  generalize parts.condition = x? at *
  generalize clauses.condition = e? at *
  cases hparts with
  | none =>
      exact agrees_leaf (fun n => .literal ⟨n, clauses.semicolon⟩ (.boolean true)) (fun _ => rfl) h
        (Nat.le_refl _) hweight rfl (fun _ => rfl) (fun _ => rfl) (fun _ => rfl)
  | some hx =>
      exact .pure ⟨hx, h, Nat.le_add_right _ _⟩

/-- The initializer and the loop become a block. -/
theorem agrees_around (hparts : b.arena.ShowsOption parts.initializer clauses.initializer)
    (hbody : b.arena.ShowsStmt body tree)
    (h : b.Ready limit frame
      (.statement body :: (parts.initializer.toList.map .statement ++ roots)))
    (hframe : frame.Sublist roots) (hweight : b.weight + 1 ≤ limit) :
    Agrees limit frame b (parts.around body) (pure (clauses.around tree))
      (BuildState.GotStmt limit frame roots (b.weight + 1)) := by
  unfold ForParts.around Parse.ForClauses.around
  generalize parts.initializer = i? at *
  generalize clauses.initializer = s? at *
  cases s? with
  | none =>
      rw [Arena.ShowsOption] at hparts
      subst hparts
      exact .pure ⟨hbody, h, Nat.le_add_right _ _⟩
  | some s =>
      rcases hparts with ⟨i, rfl, hi⟩
      refine agrees_completed h (.swap _ _ _) hframe (Nat.le_refl _) hweight ?_
      intro a j hgrows hnode
      exact ⟨[i, body], hnode, i, [body], rfl, hi.grows hgrows s, body, [], rfl,
        hbody.grows hgrows tree, rfl⟩

/-- A loop is added from the inside outwards. -/
theorem agrees_forLoop (hparts : parts.Shows b.arena clauses) (hbody : b.arena.ShowsStmt body tree)
    (h : b.Ready limit frame (.statement body :: (parts.handles ++ roots)))
    (hframe : frame.Sublist roots) (hweight : b.weight + 5 ≤ limit) :
    Agrees limit frame b (forLoop parts body) (Parse.forLoop clauses tree)
      (BuildState.GotStmt limit frame roots (b.weight + 5)) := by
  have hframe₁ : frame.Sublist (parts.initializer.toList.map .statement ++ roots) :=
    hframe.trans (List.sublist_append_right _ _)
  have hframe₂ : frame.Sublist (parts.condition.toList.map .expression ++
      (parts.initializer.toList.map .statement ++ roots)) :=
    hframe₁.trans (List.sublist_append_right _ _)
  rw [ForParts.handles, List.append_assoc, List.append_assoc] at h
  change Agrees limit frame b (parts.round body >>= fun round => parts.test >>= fun condition =>
      pushStatement (.while condition round) >>= parts.around)
    (pure (clauses.round tree) >>= fun round => clauses.test >>= fun condition =>
      pure (.while condition round) >>= fun loop => pure (clauses.around loop)) _
  -- In every step the parts that it needs stand at the front of the roots.
  refine (agrees_round hparts.increment hbody h hframe₂ (by omega)).bind ?_
  intro j s b₁ hgrows₁ hs
  have hweight₁ := hs.weight
  have hready₁ : b₁.Ready limit frame (parts.condition.toList.map .expression ++
      (.statement j :: (parts.initializer.toList.map .statement ++ roots))) := by
    refine hs.root.perm List.perm_middle.symm ?_
    exact (hframe₁.trans (List.sublist_cons_self _ _)).trans (List.sublist_append_right _ _)
  refine (agrees_test (Arena.relGrows (fun _ _ hx => hx.grows hgrows₁) hparts.condition)
    hparts.semicolon hready₁ (by omega)).bind ?_
  intro x e b₂ hgrows₂ he
  have hweight₂ := he.weight
  have hwhile : Agrees limit frame b₂ (pushStatement (.while x j)) (pure (.while e s) : Parse Stmt)
      (BuildState.GotStmt limit frame (parts.initializer.toList.map .statement ++ roots)
        (b₂.weight + 1)) :=
    agrees_completed he.ready (.refl _) hframe₁ (Nat.le_refl _) (by omega)
      fun hgrows hnode => ⟨x, j, hnode, he.shows.grows hgrows,
        hs.shows.grows (hgrows₂.trans hgrows) s⟩
  refine hwhile.bind ?_
  intro k loop b₃ hgrows₃ hloop
  have hweight₃ := hloop.weight
  have hinitializer := hparts.initializer.grows ((hgrows₁.trans hgrows₂).trans hgrows₃) _
  refine (agrees_around hinitializer hloop.shows hloop.ready hframe (by omega)).mono ?_
  intro l t b₄ _ ht
  exact ht.le (by omega)

end Loop

/-! ## Functions, classes and statements -/

theorem agrees_superclass (h : b.Ready limit frame roots) :
    Agrees limit frame b superclass Parse.superclass
      (BuildState.GotSuperclass limit frame roots b.weight) := by
  have hlimit := h.weight
  have hnamed : ∀ b' : BuildState, b'.Ready limit frame roots → b'.weight + 1 ≤ b.weight →
      Agrees limit frame b'
        (do
          let name ← read (Parse.ident .superclassName)
          pushExpression (.var name) name.span)
        (do
          let name ← Parse.ident .superclassName
          Parse.reference name)
        fun x reference b'' =>
          BuildState.GotExpr limit frame roots b.weight x (.var reference) b'' := by
    intro b' h' hweight'
    refine (agrees_ident h' _).bind ?_
    rintro name _ b'' - ⟨rfl, h'', hweight''⟩
    refine Agrees.of_map ?_
    exact agrees_leaf (fun n => .var ⟨n, name⟩) (fun _ => rfl) h'' (by omega) hlimit rfl
      (fun _ => rfl) (fun _ => rfl) (fun _ => rfl)
  refine (agrees_behind h (by decide) hnamed).mono ?_
  rintro x? v? b' - (⟨rfl, rfl, h', hweight'⟩ | ⟨x, v, rfl, rfl, hx⟩)
  · exact ⟨.none, h', hweight'⟩
  · exact ⟨.some hx.shows, hx.ready, hx.weight⟩

/-- The steps that read statements agree. -/
structure AgreesStatements (fuel : Nat) : Prop where
  declaration : ∀ {limit frame roots b}, b.Ready limit frame roots →
    Agrees limit frame b (declaration fuel) (Parse.declaration fuel)
      (BuildState.GotOptionalStmt limit frame roots b.weight)
  declarations : ∀ {limit frame roots b}, b.Ready limit frame roots →
    Agrees limit frame b (declarations fuel) (Parse.declarations fuel)
      (BuildState.GotStmts limit frame roots b.weight)
  blockBody : ∀ {limit frame roots b}, b.Ready limit frame roots →
    Agrees limit frame b (blockBody fuel) (Parse.blockBody fuel)
      (BuildState.GotStmts limit frame roots b.weight)
  routine : ∀ {limit frame roots b} kind, b.Ready limit frame roots →
    Agrees limit frame b (routine fuel kind) (Parse.routine fuel kind)
      (BuildState.GotRoutine limit frame roots b.weight)
  methods : ∀ {limit frame roots b}, b.Ready limit frame roots →
    Agrees limit frame b (methods fuel) (Parse.methods fuel)
      (BuildState.GotMethods limit frame roots b.weight)
  classDeclaration : ∀ {limit frame roots b}, b.Ready limit frame roots →
    b.reading.current.kind ≠ .eof →
    Agrees limit frame b (classDeclaration fuel) (Parse.classDeclaration fuel)
      (BuildState.GotStmt limit frame roots b.weight)
  statement : ∀ {limit frame roots b}, b.Ready limit frame roots →
    Agrees limit frame b (statement fuel) (Parse.statement fuel)
      (BuildState.GotStmt limit frame roots b.weight)

section Step

variable {fuel : Nat} (ih : AgreesStatements fuel)

include ih

theorem agrees_declaration_succ (h : b.Ready limit frame roots) :
    Agrees limit frame b (declaration (fuel + 1)) (Parse.declaration (fuel + 1))
      (BuildState.GotOptionalStmt limit frame roots b.weight) := by
  rw [declaration, Parse.declaration]
  refine (agrees_recover h (Q := BuildState.GotStmt b.weight roots roots b.weight) ?_).mono ?_
  · have h := h.tight
    refine agrees_peek.bind ?_
    rintro _ token _ - ⟨rfl, rfl, rfl⟩
    cases hkind : b.reading.current.kind with
    | keyword word =>
        cases word with
        | «class» => exact ih.classDeclaration h (by simp [hkind])
        | «fun» =>
            refine (agrees_advance h (by simp [hkind])).bind ?_
            rintro _ t b₁ - ⟨-, h₁, hweight₁, -⟩
            have hpos := t.weight_pos
            refine (ih.routine _ h₁).bind ?_
            intro f r b₂ _ hr
            have hweight₂ := hr.weight
            exact agrees_completed hr.ready (.refl _) (.refl _) (by omega) (Nat.le_refl _)
              fun hgrows hnode => ⟨f, hnode, hr.shows.grows hgrows r⟩
        | var => exact agrees_varDeclaration h (by simp [hkind])
        | _ => exact ih.statement h
    | _ => exact ih.statement h
  · rintro i? s? b' - (⟨rfl, rfl, h', hweight'⟩ | ⟨i, s, rfl, rfl, hs⟩)
    · exact ⟨rfl, h', hweight'⟩
    · exact ⟨⟨i, rfl, hs.shows⟩, hs.ready.widen (.cons _ h.frame) h.weight h.small, hs.weight⟩

theorem agrees_declarations_succ (h : b.Ready limit frame roots) :
    Agrees limit frame b (declarations (fuel + 1)) (Parse.declarations (fuel + 1))
      (BuildState.GotStmts limit frame roots b.weight) := by
  rw [declarations, Parse.declarations]
  refine (agrees_check _).bind ?_
  rintro close _ b₁ - ⟨rfl, rfl, -⟩
  refine agrees_atEnd.bind ?_
  rintro stop _ b₂ - ⟨rfl, rfl⟩
  refine .ite ?_ ?_
  · intro _
    exact .pure ⟨rfl, h, Nat.le_refl _⟩
  · intro _
    refine (ih.declaration h).bind ?_
    intro i? s? b₁ _ hfirst
    refine (ih.declarations hfirst.ready).bind ?_
    intro is ss b₂ hgrows₂ hothers
    refine .pure ⟨(hfirst.shows.grows hgrows₂ s?).toList.append hothers.shows, ?_,
      Nat.le_trans hothers.weight hfirst.weight⟩
    -- The roots of the others stand in front, but the first one comes first in the list.
    rw [List.map_append, List.append_assoc]
    exact hothers.ready.exchange h.frame

theorem agrees_blockBody_succ (h : b.Ready limit frame roots) :
    Agrees limit frame b (blockBody (fuel + 1)) (Parse.blockBody (fuel + 1))
      (BuildState.GotStmts limit frame roots b.weight) := by
  rw [blockBody, Parse.blockBody]
  refine (ih.declarations h).bind ?_
  intro is ss b₁ _ hbody
  have hweight₁ := hbody.weight
  refine (agrees_expect hbody.ready (by decide) _).bind ?_
  rintro _ _ b₂ hgrows₂ ⟨-, h₂, hweight₂⟩
  exact .pure ⟨hbody.shows.grows hgrows₂ ss, h₂, by omega⟩

theorem agrees_routine_succ (kind : RoutineKind) (h : b.Ready limit frame roots) :
    Agrees limit frame b (routine (fuel + 1) kind) (Parse.routine (fuel + 1) kind)
      (BuildState.GotRoutine limit frame roots b.weight) := by
  have hlimit := h.weight
  rw [routine, Parse.routine]
  refine (agrees_ident h _).bind ?_
  rintro name _ b₁ - ⟨rfl, h₁, hweight₁⟩
  refine (agrees_expect h₁ (by decide) _).bind ?_
  rintro _ _ b₂ - ⟨-, h₂, hweight₂⟩
  refine (agrees_passes h₂ (passes_parameters _)).bind ?_
  rintro names _ b₃ - ⟨rfl, h₃, hweight₃⟩
  refine (agrees_expect h₃ (by decide) _).bind ?_
  rintro _ _ b₄ - ⟨-, h₄, hweight₄⟩
  refine (agrees_expect h₄ (by decide) _).bind ?_
  rintro _ _ b₅ - ⟨-, h₅, hweight₅⟩
  refine (ih.blockBody h₅).bind ?_
  intro is body b₆ _ hbody
  have hweight₆ := hbody.weight
  refine (agrees_pushFunction hbody.ready (.refl _) h.frame (by omega)).mono ?_
  rintro f r b₇ - ⟨rfl, hgrows₇, hnode, h₇, hweight₇⟩
  exact ⟨⟨is, hnode, hbody.shows.grows hgrows₇ body⟩, h₇, by omega⟩

theorem agrees_methods_succ (h : b.Ready limit frame roots) :
    Agrees limit frame b (methods (fuel + 1)) (Parse.methods (fuel + 1))
      (BuildState.GotMethods limit frame roots b.weight) := by
  rw [methods, Parse.methods]
  refine (agrees_check _).bind ?_
  rintro close _ b₁ - ⟨rfl, rfl, -⟩
  refine agrees_atEnd.bind ?_
  rintro stop _ b₂ - ⟨rfl, rfl⟩
  refine .ite ?_ ?_
  · intro _
    exact .pure ⟨rfl, h, Nat.le_refl _⟩
  · intro _
    refine (ih.routine _ h).bind ?_
    intro f r b₁ _ hfirst
    refine (ih.methods hfirst.ready).bind ?_
    intro fs rs b₂ hgrows₂ hothers
    exact .pure ⟨⟨f, fs, rfl, hfirst.shows.grows hgrows₂ r, hothers.shows⟩,
      hothers.ready.exchange h.frame, Nat.le_trans hothers.weight hfirst.weight⟩

theorem agrees_classDeclaration_succ (h : b.Ready limit frame roots)
    (hkind : b.reading.current.kind ≠ .eof) :
    Agrees limit frame b (classDeclaration (fuel + 1)) (Parse.classDeclaration (fuel + 1))
      (BuildState.GotStmt limit frame roots b.weight) := by
  have hlimit := h.weight
  rw [classDeclaration, Parse.classDeclaration]
  refine (agrees_advance h hkind).bind ?_
  rintro _ t b₁ - ⟨-, h₁, hweight₁, -⟩
  refine (agrees_ident h₁ _).bind ?_
  rintro name _ b₂ - ⟨rfl, h₂, hweight₂⟩
  refine (agrees_superclass h₂).bind ?_
  intro x? parent b₃ _ hparent
  have hweight₃ := hparent.weight
  refine (agrees_expect hparent.ready (by decide) _).bind ?_
  rintro _ _ b₄ hgrows₄ ⟨-, h₄, hweight₄⟩
  refine (ih.methods h₄).bind ?_
  intro fs rs b₅ hgrows₅ hmethods
  have hweight₅ := hmethods.weight
  refine (agrees_expect hmethods.ready (by decide) _).bind ?_
  rintro _ _ b₆ hgrows₆ ⟨-, h₆, hweight₆⟩
  have hgrows₄₆ := (hgrows₄.trans hgrows₅).trans hgrows₆
  refine agrees_completed (h₆.exchange h.frame) ?_ h.frame (by omega) hlimit ?_
  · rw [StmtNode.children, List.append_assoc]
  · intro a i hgrows hnode
    exact ⟨x?, fs, hnode,
      Arena.relGrows (fun _ _ hx => hx.grows (hgrows₄₆.trans hgrows)) hparent.shows,
      hmethods.shows.grows (hgrows₆.trans hgrows) rs⟩

theorem agrees_forStatement (h : b.Ready limit frame roots)
    (hkind : b.reading.current.kind = .keyword .for) :
    Agrees limit frame b
      (do
        let _ ← read Parse.advance
        let _ ← read (Parse.expect .leftParen .openFor)
        let parts ← forParts
        let body ← statement fuel
        forLoop parts body)
      (do
        let _ ← Parse.advance
        let _ ← Parse.expect .leftParen .openFor
        let clauses ← Parse.forClauses
        let body ← Parse.statement fuel
        Parse.forLoop clauses body)
      (BuildState.GotStmt limit frame roots b.weight) := by
  have hlimit := h.weight
  refine (agrees_advance h (by simp [hkind])).bind ?_
  rintro _ t b₁ - ⟨-, h₁, hweight₁, rfl⟩
  -- The keyword counts twice, and three more tokens of the loop are passed: there is room for the
  -- five nodes that it can make.
  have htwo : b.reading.current.weight = 2 := if_pos hkind
  refine (agrees_expect h₁ (by decide) _).bind ?_
  rintro _ _ b₂ - ⟨-, h₂, hweight₂⟩
  refine (agrees_forParts h₂).bind ?_
  rintro parts clauses b₃ - ⟨hparts, hweight₃⟩
  refine (ih.statement hparts.ready).bind ?_
  intro i s b₄ hgrows₄ hs
  have hweight₄ := hs.weight
  have hshown : parts.Shows b₄.arena clauses :=
    ⟨hparts.shows.initializer.grows hgrows₄ _,
      Arena.relGrows (fun _ _ hx => hx.grows hgrows₄) hparts.shows.condition,
      hparts.shows.semicolon,
      Arena.relGrows (fun _ _ hx => hx.grows hgrows₄) hparts.shows.increment⟩
  refine (agrees_forLoop hshown hs.shows hs.ready h.frame (by omega)).mono ?_
  intro j loop b₅ _ hloop
  exact hloop.le (by omega)

theorem agrees_ifStatement (h : b.Ready limit frame roots)
    (hkind : b.reading.current.kind ≠ .eof) :
    Agrees limit frame b
      (do
        let _ ← read Parse.advance
        let _ ← read (Parse.expect .leftParen .openIf)
        let condition ← expression
        let _ ← read (Parse.expect .rightParen .closeIf)
        let consequent ← statement fuel
        let alternative ← behind (.keyword .else) (statement fuel)
        pushStatement (.ifElse condition consequent alternative))
      (do
        let _ ← Parse.advance
        let _ ← Parse.expect .leftParen .openIf
        let condition ← Parse.expression
        let _ ← Parse.expect .rightParen .closeIf
        let consequent ← Parse.statement fuel
        let alternative ← Parse.behind (.keyword .else) (Parse.statement fuel)
        return .ifElse condition consequent alternative)
      (BuildState.GotStmt limit frame roots b.weight) := by
  have hlimit := h.weight
  refine (agrees_advance h hkind).bind ?_
  rintro _ _ b₁ - ⟨-, h₁, hweight₁, -⟩
  refine (agrees_expect h₁ (by decide) _).bind ?_
  rintro _ _ b₂ - ⟨-, h₂, hweight₂⟩
  refine (agrees_expression h₂).bind ?_
  intro x e b₃ _ he
  have hweight₃ := he.weight
  refine (agrees_expect he.ready (by decide) _).bind ?_
  rintro _ _ b₄ hgrows₄ ⟨-, h₄, hweight₄⟩
  refine (ih.statement h₄).bind ?_
  intro i s b₅ hgrows₅ hs
  have hweight₅ := hs.weight
  -- The other branch is read while the condition and the first branch are roots.
  have hbranch : ∀ b' : BuildState, b'.Ready limit frame (.statement i :: .expression x :: roots) →
      b'.weight + 1 ≤ b₅.weight → Agrees limit frame b' (statement fuel) (Parse.statement fuel)
        (BuildState.GotStmt limit frame (.statement i :: .expression x :: roots) b₅.weight) :=
    fun b' hb' hweight => (ih.statement hb').mono
      fun _ _ _ _ hs => hs.le (Nat.le_of_succ_le hweight)
  have halternative : Agrees limit frame b₅ (behind (.keyword .else) (statement fuel))
      (Parse.behind (.keyword .else) (Parse.statement fuel))
      (BuildState.GotOptionalStmt limit frame (.statement i :: .expression x :: roots)
        b₅.weight) := by
    refine (agrees_behind hs.ready (by decide) hbranch).mono ?_
    rintro k? s? b' - (⟨rfl, rfl, h', hweight'⟩ | ⟨k, s', rfl, rfl, hs'⟩)
    · exact ⟨rfl, h', hweight'⟩
    · exact ⟨⟨k, rfl, hs'.shows⟩, hs'.ready, hs'.weight⟩
  refine halternative.bind ?_
  intro k? s? b₆ hgrows₆ hs'
  have hweight₆ := hs'.weight
  refine agrees_completed hs'.ready ?_ h.frame (by omega) hlimit ?_
  · rw [StmtNode.children, List.cons_append, List.cons_append]
    exact (List.perm_append_comm_assoc _ [_, _] _).trans (.swap _ _ _)
  · intro a j hgrows hnode
    have hgrows₅' := hgrows₆.trans hgrows
    exact ⟨x, i, k?, hnode, he.shows.grows ((hgrows₄.trans hgrows₅).trans hgrows₅'),
      hs.shows.grows hgrows₅' s, hs'.shows.grows hgrows s?⟩

theorem agrees_whileStatement (h : b.Ready limit frame roots)
    (hkind : b.reading.current.kind ≠ .eof) :
    Agrees limit frame b
      (do
        let _ ← read Parse.advance
        let _ ← read (Parse.expect .leftParen .openWhile)
        let condition ← expression
        let _ ← read (Parse.expect .rightParen .closeWhile)
        let body ← statement fuel
        pushStatement (.while condition body))
      (do
        let _ ← Parse.advance
        let _ ← Parse.expect .leftParen .openWhile
        let condition ← Parse.expression
        let _ ← Parse.expect .rightParen .closeWhile
        let body ← Parse.statement fuel
        return .while condition body)
      (BuildState.GotStmt limit frame roots b.weight) := by
  have hlimit := h.weight
  refine (agrees_advance h hkind).bind ?_
  rintro _ _ b₁ - ⟨-, h₁, hweight₁, -⟩
  refine (agrees_expect h₁ (by decide) _).bind ?_
  rintro _ _ b₂ - ⟨-, h₂, hweight₂⟩
  refine (agrees_expression h₂).bind ?_
  intro x e b₃ _ he
  have hweight₃ := he.weight
  refine (agrees_expect he.ready (by decide) _).bind ?_
  rintro _ _ b₄ hgrows₄ ⟨-, h₄, hweight₄⟩
  refine (ih.statement h₄).bind ?_
  intro i s b₅ hgrows₅ hs
  have hweight₅ := hs.weight
  refine agrees_completed hs.ready (.swap _ _ _) h.frame (by omega) hlimit ?_
  intro a j hgrows hnode
  exact ⟨x, i, hnode, he.shows.grows ((hgrows₄.trans hgrows₅).trans hgrows),
    hs.shows.grows hgrows s⟩

theorem agrees_statement_succ (h : b.Ready limit frame roots) :
    Agrees limit frame b (statement (fuel + 1)) (Parse.statement (fuel + 1))
      (BuildState.GotStmt limit frame roots b.weight) := by
  have hlimit := h.weight
  rw [statement, Parse.statement]
  refine agrees_peek.bind ?_
  rintro _ token _ - ⟨rfl, rfl, rfl⟩
  cases hkind : b.reading.current.kind with
  | keyword word =>
      cases word with
      | «for» => exact agrees_forStatement ih h hkind
      | «if» => exact agrees_ifStatement ih h (by simp [hkind])
      | print => exact agrees_printStatement h (by simp [hkind])
      | «return» => exact agrees_returnStatement h (by simp [hkind])
      | «while» => exact agrees_whileStatement ih h (by simp [hkind])
      | _ => exact agrees_expressionStatement h
  | leftBrace =>
      refine (agrees_advance h (by simp [hkind])).bind ?_
      rintro _ t b₁ - ⟨-, h₁, hweight₁, -⟩
      have hpos := t.weight_pos
      refine (ih.blockBody h₁).bind ?_
      intro is body b₂ _ hbody
      have hweight₂ := hbody.weight
      exact agrees_completed hbody.ready (.refl _) h.frame (by omega) hlimit
        fun hgrows hnode => ⟨is, hnode, hbody.shows.grows hgrows body⟩
  | _ => exact agrees_expressionStatement h

end Step

theorem agreesStatements (fuel : Nat) : AgreesStatements fuel := by
  -- Without fuel both stop at the same mistake, or both give nothing.
  induction fuel with
  | zero =>
      refine ⟨?_, ?_, ?_, ?_, ?_, ?_, ?_⟩
      · intro limit frame roots b h
        exact .pure ⟨rfl, h, Nat.le_refl _⟩
      · intro limit frame roots b h
        exact .pure ⟨rfl, h, Nat.le_refl _⟩
      · intro limit frame roots b h
        exact .pure ⟨rfl, h, Nat.le_refl _⟩
      · intro limit frame roots b kind h
        exact agrees_fail h _
      · intro limit frame roots b h
        exact .pure ⟨rfl, h, Nat.le_refl _⟩
      · intro limit frame roots b h hkind
        exact agrees_fail h _
      · intro limit frame roots b h
        exact agrees_fail h _
  | succ fuel ih =>
      exact ⟨agrees_declaration_succ ih, agrees_declarations_succ ih, agrees_blockBody_succ ih,
        agrees_routine_succ ih, agrees_methods_succ ih, agrees_classDeclaration_succ ih,
        agrees_statement_succ ih⟩

/-- A program is read into an arena as it is read as trees. -/
theorem agrees_program (fuel : Nat) (h : b.Ready limit frame roots) :
    Agrees limit frame b (program fuel) (Parse.program fuel)
      (BuildState.GotStmts limit frame roots b.weight) := by
  -- Each declaration leaves its root, so the roots vary.
  induction fuel generalizing b roots with
  | zero =>
      exact .pure ⟨rfl, h, Nat.le_refl _⟩
  | succ fuel ih =>
      rw [program, Parse.program]
      refine agrees_atEnd.bind ?_
      rintro stop _ b₁ - ⟨rfl, rfl⟩
      refine .ite ?_ ?_
      · intro _
        exact .pure ⟨rfl, h, Nat.le_refl _⟩
      · intro _
        refine (agrees_fuelled fun fuel => (agreesStatements fuel).declaration h).bind ?_
        intro i? s? b₁ _ hfirst
        refine (ih hfirst.ready).bind ?_
        intro is ss b₂ hgrows₂ hothers
        refine .pure ⟨(hfirst.shows.grows hgrows₂ s?).toList.append hothers.shows, ?_,
          Nat.le_trans hothers.weight hfirst.weight⟩
        rw [List.map_append, List.append_assoc]
        exact hothers.ready.exchange h.frame

end Build

end Lox
