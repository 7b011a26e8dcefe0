import Lox.Proofs.Arena.Agreement

/-!
# Expressions in an arena

Each step that reads an expression into an arena agrees with the one that reads it as a tree. An
expression that is given on to the next step is a root until it becomes a part.

Main statement: `Build.agrees_expression`.
-/

namespace Lox

/-- An expression has been read. -/
abbrev BuildState.GotExpr :=
  BuildState.Got Arena.ShowsExpr fun x => [.expression x]

/-- Expressions have been read. -/
abbrev BuildState.GotExprs :=
  BuildState.Got (fun a => List.Forall₂ a.ShowsExpr) fun xs => xs.map .expression

namespace Build

variable {limit : Nat} {frame roots : List Handle} {b : BuildState}

/-- An expression without parts is added. -/
theorem agrees_leaf {p : Parse Expr} (make : Nat → Expr) {node : ExprNode} {span : Span}
    {weight : Nat} (hp : ∀ s, p s = .ok (make s.nextId) { s with nextId := s.nextId + 1 })
    (h : b.Ready limit frame roots) (hweight : b.weight + 1 ≤ weight) (hle : weight ≤ limit)
    (hnode : node.parts = []) (hnumber : ∀ n, (make n).number = n)
    (hentry : ∀ n, (make n).entry = ⟨node, span⟩) (hparts : ∀ n, (make n).parts = [make n]) :
    Agrees limit frame b (pushExpression node span) p
      (BuildState.GotExpr limit frame roots weight) := by
  have hchildren : node.children = [] := by
    rw [ExprNode.children, hnode]
    rfl
  refine (agrees_pushExpression make hp h (by rw [hchildren]; exact .refl _) h.frame (by omega) hnumber
    hentry ?_).mono ?_
  · intro n part hpart
    rw [hparts, List.mem_singleton] at hpart
    exact .inl hpart
  · rintro x e b' - ⟨hshows, hready, hw⟩
    exact ⟨hshows, hready, by omega⟩

/-- An expression with one part is added. -/
theorem agrees_onePart {p : Parse Expr} (make : Nat → Expr) {node : ExprNode} {span : Span}
    {weight : Nat} {x : Index} {inner : Expr}
    (hp : ∀ s, p s = .ok (make s.nextId) { s with nextId := s.nextId + 1 })
    (hinner : b.arena.ShowsExpr x inner) (h : b.Ready limit frame (.expression x :: roots))
    (hframe : frame.Sublist roots) (hweight : b.weight + 1 ≤ weight) (hle : weight ≤ limit)
    (hnode : node.parts = [x]) (hnumber : ∀ n, (make n).number = n)
    (hentry : ∀ n, (make n).entry = ⟨node, span⟩)
    (hparts : ∀ n, (make n).parts = inner.parts ++ [make n]) :
    Agrees limit frame b (pushExpression node span) p
      (BuildState.GotExpr limit frame roots weight) := by
  have hchildren : node.children = [.expression x] := by
    rw [ExprNode.children, hnode]
    rfl
  refine (agrees_pushExpression make hp h (by rw [hchildren]; exact .refl _) hframe (by omega)
    hnumber hentry ?_).mono ?_
  · intro n part hpart
    rw [hparts, List.mem_append, List.mem_singleton] at hpart
    exact hpart.symm.imp id fun hpart => hinner.parts part hpart
  · rintro x e b' - ⟨hshows, hready, hw⟩
    exact ⟨hshows, hready, by omega⟩

/-- An expression with two parts is added. -/
theorem agrees_twoParts {p : Parse Expr} (make : Nat → Expr) {node : ExprNode} {span : Span}
    {weight : Nat} {x y : Index} {left right : Expr}
    (hp : ∀ s, p s = .ok (make s.nextId) { s with nextId := s.nextId + 1 })
    (hleft : b.arena.ShowsExpr x left) (hright : b.arena.ShowsExpr y right)
    (h : b.Ready limit frame (.expression y :: .expression x :: roots))
    (hframe : frame.Sublist roots) (hweight : b.weight + 1 ≤ weight) (hle : weight ≤ limit)
    (hnode : node.parts = [x, y]) (hnumber : ∀ n, (make n).number = n)
    (hentry : ∀ n, (make n).entry = ⟨node, span⟩)
    (hparts : ∀ n, (make n).parts = left.parts ++ right.parts ++ [make n]) :
    Agrees limit frame b (pushExpression node span) p
      (BuildState.GotExpr limit frame roots weight) := by
  have hchildren : node.children = [.expression x, .expression y] := by
    rw [ExprNode.children, hnode]
    rfl
  refine (agrees_pushExpression make hp h (by rw [hchildren]; exact .swap _ _ _) hframe (by omega)
    hnumber hentry ?_).mono ?_
  · intro n part hpart
    rw [hparts, List.mem_append, List.mem_append, List.mem_singleton] at hpart
    rcases hpart with (hpart | hpart) | hpart
    · exact .inr (hleft.parts part hpart)
    · exact .inr (hright.parts part hpart)
    · exact .inl hpart
  · rintro x e b' - ⟨hshows, hready, hw⟩
    exact ⟨hshows, hready, by omega⟩

theorem agrees_atom (h : b.Ready limit frame roots) :
    Agrees limit frame b (atom b.reading.current) (Parse.atom b.reading.current)
      (BuildState.GotExpr limit frame roots b.weight) := by
  have hlimit := h.weight
  unfold atom Parse.atom
  cases hvalue : Literal.ofToken? b.reading.current with
  | some value =>
      have hkind : b.reading.current.kind ≠ .eof := by
        intro hkind
        rw [Literal.ofToken?, hkind] at hvalue
        cases hvalue
      refine (agrees_advance h hkind).bind ?_
      rintro _ t b₁ - ⟨-, h₁, hweight, -⟩
      have hpos := t.weight_pos
      exact agrees_leaf (fun n => .literal ⟨n, _⟩ value) (fun _ => rfl) h₁ (by omega) hlimit rfl
        (fun _ => rfl) (fun _ => rfl) (fun _ => rfl)
  | none =>
      cases hkind : b.reading.current.kind with
      | identifier =>
          refine (agrees_advance h (by simp [hkind])).bind ?_
          rintro _ t b₁ - ⟨-, h₁, hweight, -⟩
          have hpos := t.weight_pos
          exact agrees_leaf (fun n => .var ⟨n, _⟩) (fun _ => rfl) h₁ (by omega) hlimit rfl
            (fun _ => rfl) (fun _ => rfl) (fun _ => rfl)
      | keyword word =>
          cases word with
          | this =>
              refine (agrees_advance h (by simp [hkind])).bind ?_
              rintro _ t b₁ - ⟨-, h₁, hweight, -⟩
              have hpos := t.weight_pos
              exact agrees_leaf (fun n => .this ⟨n, _⟩) (fun _ => rfl) h₁ (by omega) hlimit rfl
                (fun _ => rfl) (fun _ => rfl) (fun _ => rfl)
          | super =>
              refine (agrees_advance h (by simp [hkind])).bind ?_
              rintro _ t b₁ - ⟨-, h₁, hweight, -⟩
              refine (agrees_expect h₁ (by decide) _).bind ?_
              rintro _ _ b₂ - ⟨-, h₂, hweight₂⟩
              refine (agrees_ident h₂ _).bind ?_
              rintro method _ b₃ - ⟨rfl, h₃, hweight₃⟩
              exact agrees_leaf (fun n => .super ⟨n, _⟩ method) (fun _ => rfl) h₃ (by omega) hlimit rfl
                (fun _ => rfl) (fun _ => rfl) (fun _ => rfl)
          | _ => exact agrees_fail h _
      | _ => exact agrees_fail h _

/-- The target of an assignment is given up. The instance whose field is set is a part of the
assignment now. -/
theorem agrees_assignTo {target value : Index} {left right : Expr} {equals : Span}
    (htarget : b.arena.ShowsExpr target left) (hvalue : b.arena.ShowsExpr value right)
    (h : b.Ready limit frame (.expression value :: .expression target :: roots))
    (hframe : frame.Sublist roots) (hweight : b.weight + 1 ≤ limit) :
    Agrees limit frame b (assignTo target equals value) (Parse.assignTo left equals right)
      (BuildState.GotExpr limit frame roots (b.weight + 1)) := by
  have hentry := htarget.self
  -- Any other target is kept, and the value that was read is no root any more.
  have hother : ∀ e : Expr, e = left →
      Agrees limit frame b (do
          read (Parse.record .invalidTarget equals)
          return target)
        (do
          Parse.record .invalidTarget equals
          return e)
        (BuildState.GotExpr limit frame roots (b.weight + 1)) := by
    rintro e rfl
    have hpasses : Passes (Parse.record .invalidTarget equals) b.reading fun _ _ => True :=
      ⟨rfl, Nat.le_refl _, trivial⟩
    refine (agrees_passes h hpasses).bind ?_
    rintro _ _ b₁ hgrows ⟨-, h₁, hweight₁⟩
    refine .pure ⟨htarget.grows hgrows, ?_, by omega⟩
    exact ⟨h₁.count, h₁.built, h₁.forest.sublist (.cons _ (.refl _)), .cons _ hframe, h₁.weight,
      h₁.small⟩
  -- The node that is found in the array is the head of the tree.
  have hfound : ∀ {f : Option ExprEntry → Build Index} {p : Parse Expr},
      Agrees limit frame b (f (some left.entry)) p
        (BuildState.GotExpr limit frame roots (b.weight + 1)) →
      Agrees limit frame b (expression? target >>= f) p
        (BuildState.GotExpr limit frame roots (b.weight + 1)) := by
    intro f p hnext
    rw [← hentry] at hnext
    exact hnext
  unfold assignTo
  refine hfound ?_
  cases left with
  | var old =>
      -- The variable is no part of the assignment. Its node stays, but nothing holds it.
      have hroots : b.Ready limit frame (.expression value :: roots) :=
        ⟨h.count, h.built, h.forest.sublist (.cons_cons _ (.cons _ (.refl _))), .cons _ hframe,
          h.weight, h.small⟩
      obtain rfl := hvalue.index
      exact agrees_onePart (fun n => .assign ⟨n, old.name⟩ right) (fun _ => rfl) hvalue hroots hframe
        (Nat.le_refl _) hweight rfl (fun _ => rfl) (fun _ => rfl) fun _ => by rw [Expr.parts]
  | get id object name =>
      have hobject : b.arena.children? (.expression target) = some [.expression object.index] := by
        rw [Arena.children?, hentry]
        rfl
      -- The access is given up, which sets its object free to be held by the assignment.
      have hswap : b.arena.Forest (.expression target :: .expression value :: roots) :=
        h.forest.perm (.swap _ _ _)
      have hroots : b.Ready limit frame (.expression object.index :: .expression value :: roots) :=
        ⟨h.count, h.built, hswap.release hobject, .cons _ (.cons _ hframe), h.weight, h.small⟩
      obtain rfl := hvalue.index
      refine (agrees_pushExpression (fun n => .set n object name right) (fun _ => rfl) hroots (.refl _)
        hframe hweight (fun _ => rfl) (fun _ => rfl) ?_).mono ?_
      · intro n part hpart
        simp only [Expr.parts, List.mem_append, List.mem_singleton] at hpart
        rcases hpart with (hpart | hpart) | hpart
        · exact .inr (hvalue.parts part hpart)
        · refine .inr (htarget.parts part ?_)
          rw [Expr.parts]
          exact List.mem_append_left _ hpart
        · exact .inl hpart
      · rintro x e b' - ⟨hshows, hready, hw⟩
        exact ⟨hshows, hready, hw⟩
  | _ => exact hother _ rfl

/-- The steps that read expressions agree. -/
structure AgreesExpressions (fuel : Nat) : Prop where
  expressionAt : ∀ {limit frame roots b} least, b.Ready limit frame roots →
    Agrees limit frame b (expressionAt fuel least) (Parse.expressionAt fuel least)
      (BuildState.GotExpr limit frame roots b.weight)
  operand : ∀ {limit frame roots b}, b.Ready limit frame roots →
    Agrees limit frame b (operand fuel) (Parse.operand fuel)
      (BuildState.GotExpr limit frame roots b.weight)
  continueFrom : ∀ {limit frame roots b x left} least, b.arena.ShowsExpr x left →
    b.Ready limit frame (.expression x :: roots) → frame.Sublist roots →
    Agrees limit frame b (continueFrom fuel least x) (Parse.continueFrom fuel least left)
      (BuildState.GotExpr limit frame roots b.weight)
  followOperand : ∀ {limit frame roots b x left} place follow, b.arena.ShowsExpr x left →
    b.Ready limit frame (.expression x :: roots) → frame.Sublist roots → b.weight + 1 ≤ limit →
    Agrees limit frame b (followOperand fuel x place follow)
      (Parse.followOperand fuel left place follow)
      (BuildState.GotExpr limit frame roots (b.weight + 1))
  arguments : ∀ {limit frame roots b}, b.Ready limit frame roots →
    Agrees limit frame b (arguments fuel) (Parse.arguments fuel)
      (BuildState.GotExprs limit frame roots b.weight)
  moreArguments : ∀ {limit frame roots b} count, b.Ready limit frame roots →
    Agrees limit frame b (moreArguments fuel count) (Parse.moreArguments fuel count)
      (BuildState.GotExprs limit frame roots b.weight)

section Step

variable {fuel : Nat} (ih : AgreesExpressions fuel)

include ih

theorem agrees_expressionAt_succ (least : Nat) (h : b.Ready limit frame roots) :
    Agrees limit frame b (expressionAt (fuel + 1) least) (Parse.expressionAt (fuel + 1) least)
      (BuildState.GotExpr limit frame roots b.weight) := by
  rw [expressionAt, Parse.expressionAt]
  refine (ih.operand h).bind ?_
  intro x left b₁ _ hleft
  refine (ih.continueFrom least hleft.shows hleft.ready h.frame).mono ?_
  intro x e b' _ he
  exact he.le hleft.weight

theorem agrees_operand_succ (h : b.Ready limit frame roots) :
    Agrees limit frame b (operand (fuel + 1)) (Parse.operand (fuel + 1))
      (BuildState.GotExpr limit frame roots b.weight) := by
  have hlimit := h.weight
  rw [operand, Parse.operand]
  refine agrees_peek.bind ?_
  rintro _ token _ - ⟨rfl, rfl, rfl⟩
  cases hop : UnaryOp.ofKind? b.reading.current.kind with
  | some op =>
      have hkind : b.reading.current.kind ≠ .eof := by
        intro hkind
        rw [hkind] at hop
        cases hop
      refine (agrees_advance h hkind).bind ?_
      rintro _ t b₁ - ⟨-, h₁, hweight₁, -⟩
      have hpos := t.weight_pos
      refine (ih.expressionAt _ h₁).bind ?_
      intro x inner b₂ _ hinner
      have hweight₂ := hinner.weight
      obtain rfl := hinner.shows.index
      exact agrees_onePart (fun n => .unary ⟨n, _⟩ op inner) (fun _ => rfl) hinner.shows hinner.ready
        h.frame (by omega) hlimit rfl (fun _ => rfl) (fun _ => rfl) fun _ => by rw [Expr.parts]
  | none =>
      cases hkind : b.reading.current.kind with
      | leftParen =>
          refine (agrees_advance h (by simp [hkind])).bind ?_
          rintro _ t b₁ - ⟨-, h₁, hweight₁, -⟩
          have hpos := t.weight_pos
          refine (ih.expressionAt _ h₁).bind ?_
          intro x inner b₂ _ hinner
          have hweight₂ := hinner.weight
          refine (agrees_expect hinner.ready (by decide) _).bind ?_
          rintro _ _ b₃ hgrows₃ ⟨-, h₃, hweight₃⟩
          have hshown := hinner.shows.grows hgrows₃
          obtain rfl := hshown.index
          exact agrees_onePart (fun n => .group ⟨n, _⟩ inner) (fun _ => rfl) hshown h₃ h.frame
            (by omega) hlimit rfl (fun _ => rfl) (fun _ => rfl) fun _ => by rw [Expr.parts]
      | _ => exact agrees_atom h

theorem agrees_continueFrom_succ {x : Index} {left : Expr} (least : Nat)
    (hleft : b.arena.ShowsExpr x left) (h : b.Ready limit frame (.expression x :: roots))
    (hframe : frame.Sublist roots) :
    Agrees limit frame b (continueFrom (fuel + 1) least x)
      (Parse.continueFrom (fuel + 1) least left)
      (BuildState.GotExpr limit frame roots b.weight) := by
  have hlimit := h.weight
  rw [continueFrom, Parse.continueFrom]
  refine agrees_peek.bind ?_
  rintro _ token _ - ⟨rfl, rfl, rfl⟩
  cases hfollow : Follow.ofKind? b.reading.current.kind with
  | none =>
      exact .pure ⟨hleft, h, Nat.le_refl _⟩
  | some follow =>
      have hkind : b.reading.current.kind ≠ .eof := by
        intro hkind
        rw [hkind] at hfollow
        cases hfollow
      dsimp only
      split
      · exact .pure ⟨hleft, h, Nat.le_refl _⟩
      · refine (agrees_advance h hkind).bind ?_
        rintro token' _ b₁ hgrows₁ ⟨rfl, h₁, hweight₁, htoken⟩
        -- The operator that was passed makes room for the node of the longer expression.
        have hpos := token'.weight_pos
        refine (ih.followOperand _ follow (hleft.grows hgrows₁) h₁ hframe (by omega)).bind ?_
        intro y longer b₂ _ hlonger
        have hweight₂ := hlonger.weight
        refine (ih.continueFrom least hlonger.shows hlonger.ready hframe).mono ?_
        intro z e b' _ he
        exact he.le (by omega)

theorem agrees_followOperand_succ {x : Index} {left : Expr} (place : Span) (follow : Follow)
    (hleft : b.arena.ShowsExpr x left) (h : b.Ready limit frame (.expression x :: roots))
    (hframe : frame.Sublist roots) (hweight : b.weight + 1 ≤ limit) :
    Agrees limit frame b (followOperand (fuel + 1) x place follow)
      (Parse.followOperand (fuel + 1) left place follow)
      (BuildState.GotExpr limit frame roots (b.weight + 1)) := by
  cases follow with
  | call =>
      rw [followOperand, Parse.followOperand]
      refine (ih.arguments h).bind ?_
      intro xs values b₁ hgrows₁ hvalues
      have hweight₁ := hvalues.weight
      refine (agrees_expect hvalues.ready (by decide) _).bind ?_
      rintro close _ b₂ hgrows₂ ⟨rfl, h₂, hweight₂⟩
      -- What was read first is still shown after the arguments have been added.
      have hcallee := hleft.grows (hgrows₁.trans hgrows₂)
      have hall : List.Forall₂ b₂.arena.ShowsExpr xs values :=
        hvalues.shows.imp fun _ _ hshows => hshows.grows hgrows₂
      obtain rfl := hcallee.index
      obtain rfl := Arena.ShowsExpr.index_all hall
      refine (agrees_pushExpression (fun n => .call ⟨n, _⟩ left values) (fun _ => rfl) h₂
        List.perm_middle hframe (by omega) (fun _ => rfl) (fun _ => rfl) ?_).mono ?_
      · intro n part hpart
        simp only [Expr.parts, List.mem_append, List.mem_singleton] at hpart
        rcases hpart with (hpart | hpart) | hpart
        · exact .inr (hcallee.parts part hpart)
        · exact .inr (Arena.ShowsExpr.parts_all hall part hpart)
        · exact .inl hpart
      · rintro x e b' - ⟨hshows, hready, hw⟩
        exact ⟨hshows, hready, by omega⟩
  | access =>
      rw [followOperand, Parse.followOperand]
      refine (agrees_ident h _).bind ?_
      rintro name _ b₁ hgrows₁ ⟨rfl, h₁, hweight₁⟩
      have hobject := hleft.grows hgrows₁
      obtain rfl := hobject.index
      exact agrees_onePart (fun n => .get n left name) (fun _ => rfl) hobject h₁ hframe (by omega)
        hweight rfl (fun _ => rfl) (fun _ => rfl) fun _ => by rw [Expr.parts]
  | binary op =>
      rw [followOperand, Parse.followOperand]
      refine (ih.expressionAt _ h).bind ?_
      intro y right b₁ hgrows₁ hright
      have hweight₁ := hright.weight
      have hfirst := hleft.grows hgrows₁
      have hsecond := hright.shows
      obtain rfl := hfirst.index
      obtain rfl := hsecond.index
      exact agrees_twoParts (fun n => .binary ⟨n, place⟩ op left right) (fun _ => rfl) hfirst hsecond
        hright.ready hframe (by omega) hweight rfl (fun _ => rfl) (fun _ => rfl)
        fun _ => by rw [Expr.parts]
  | logical op =>
      rw [followOperand, Parse.followOperand]
      refine (ih.expressionAt _ h).bind ?_
      intro y right b₁ hgrows₁ hright
      have hweight₁ := hright.weight
      have hfirst := hleft.grows hgrows₁
      have hsecond := hright.shows
      obtain rfl := hfirst.index
      obtain rfl := hsecond.index
      exact agrees_twoParts (fun n => .logical ⟨n, place⟩ op left right) (fun _ => rfl) hfirst hsecond
        hright.ready hframe (by omega) hweight rfl (fun _ => rfl) (fun _ => rfl)
        fun _ => by rw [Expr.parts]
  | assign =>
      rw [followOperand, Parse.followOperand]
      refine (ih.expressionAt _ h).bind ?_
      intro y right b₁ hgrows₁ hright
      have hweight₁ := hright.weight
      refine (agrees_assignTo (hleft.grows hgrows₁) hright.shows hright.ready hframe
        (by omega)).mono ?_
      intro x e b' _ he
      exact he.le (by omega)

theorem agrees_arguments_succ (h : b.Ready limit frame roots) :
    Agrees limit frame b (arguments (fuel + 1)) (Parse.arguments (fuel + 1))
      (BuildState.GotExprs limit frame roots b.weight) := by
  rw [arguments, Parse.arguments]
  refine (agrees_check _).bind ?_
  rintro x v b₁ - ⟨rfl, rfl, -⟩
  refine .ite ?_ ?_
  · intro _
    exact .pure ⟨.nil, h, Nat.le_refl _⟩
  · intro _
    exact ih.moreArguments 0 h

theorem agrees_moreArguments_succ (count : Nat) (h : b.Ready limit frame roots) :
    Agrees limit frame b (moreArguments (fuel + 1) count) (Parse.moreArguments (fuel + 1) count)
      (BuildState.GotExprs limit frame roots b.weight) := by
  rw [moreArguments, Parse.moreArguments]
  refine (agrees_passes h (passes_limit _ _ _)).bind ?_
  rintro _ _ b₁ - ⟨-, h₁, hweight₁⟩
  refine (ih.expressionAt 0 h₁).bind ?_
  intro x first b₂ _ hfirst
  have hweight₂ := hfirst.weight
  refine (agrees_accept hfirst.ready (by decide)).bind ?_
  rintro _ comma b₃ hgrows₃ ⟨rfl, h₃, hweight₃⟩
  have hshown := hfirst.shows.grows hgrows₃
  refine .ite ?_ ?_
  · intro _
    refine (ih.moreArguments (count + 1) h₃).bind ?_
    intro xs others b₄ hgrows₄ hothers
    have hweight₄ := hothers.weight
    refine .pure ⟨.cons (hshown.grows hgrows₄) hothers.shows, ?_, by omega⟩
    -- The others were read last, so their roots stand in front of the first one.
    refine hothers.ready.perm List.perm_middle ?_
    exact (h₁.frame.trans (List.sublist_append_right _ _)).trans (List.sublist_cons_self _ _)
  · intro _
    exact .pure ⟨.cons hshown .nil, h₃, by omega⟩

end Step

theorem agreesExpressions (fuel : Nat) : AgreesExpressions fuel := by
  induction fuel with
  | zero =>
      -- Without fuel a step fails or gives back what it was given.
      refine ⟨?_, ?_, ?_, ?_, ?_, ?_⟩
      · intro limit frame roots b least h
        exact agrees_fail h _
      · intro limit frame roots b h
        exact agrees_fail h _
      · intro limit frame roots b x left least hleft h hframe
        exact .pure ⟨hleft, h, Nat.le_refl _⟩
      · intro limit frame roots b x left place follow hleft h hframe hweight
        exact .pure ⟨hleft, h, Nat.le_succ _⟩
      · intro limit frame roots b h
        exact .pure ⟨.nil, h, Nat.le_refl _⟩
      · intro limit frame roots b count h
        exact .pure ⟨.nil, h, Nat.le_refl _⟩
  | succ fuel ih =>
      exact ⟨agrees_expressionAt_succ ih, agrees_operand_succ ih, agrees_continueFrom_succ ih,
        agrees_followOperand_succ ih, agrees_arguments_succ ih, agrees_moreArguments_succ ih⟩

/-- An expression is read into an arena as it is read as a tree. -/
theorem agrees_expression (h : b.Ready limit frame roots) :
    Agrees limit frame b expression Parse.expression
      (BuildState.GotExpr limit frame roots b.weight) :=
  agrees_fuelled fun fuel => (agreesExpressions fuel).expressionAt 0 h

end Build

end Lox
