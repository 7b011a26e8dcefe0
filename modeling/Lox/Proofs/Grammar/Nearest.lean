import Lox.Proofs.Grammar.Productions

/-!
# The nearest `if`

What follows the grammar can be read so that every `else` belongs to the nearest `if` that is open. An
`else` that stands behind an open statement is moved into it, down to the last `if` that has none.

Main statement: `Grammar.declarations_nearest`.
-/

namespace Lox

namespace Grammar

/-- An `else` behind an open statement can belong to an `if` inside it. The tokens stay the same. -/
theorem statement_else {other : Token} {us : List Token} {alternative : Stmt} {isOpen' : Bool}
    (hother : other.kind = .keyword .else) (halt : Statement True isOpen' us alternative) :
    ∀ {isOpen : Bool} {ts : List Token} {s : Stmt}, Statement True isOpen ts s → isOpen = true →
      ∃ isOpen'' s', Statement True isOpen'' (ts ++ other :: us) s'
  | _, _, _, .expression _, hopen => absurd hopen (by decide)
  | _, _, _, .print _ _ _, hopen => absurd hopen (by decide)
  | _, _, _, .return _ _ _, hopen => absurd hopen (by decide)
  | _, _, _, .block _ _, hopen => absurd hopen (by decide)
  | _, _, _, .while hword hopening hcondition hclosing hbody, hopen => by
      rcases statement_else hother halt hbody hopen with ⟨isOpen, s', hbody'⟩
      simp only [List.cons_append, List.append_assoc]
      exact ⟨isOpen, _, .while hword hopening hcondition hclosing hbody'⟩
  | _, _, _, .for hword hopening hclauses htest hbody, hopen => by
      rcases statement_else hother halt hbody hopen with ⟨isOpen, s', hbody'⟩
      simp only [List.cons_append, List.append_assoc]
      exact ⟨isOpen, _, .for hword hopening hclauses htest hbody'⟩
  | _, _, _, @Statement.ifThen _ _ _ _ _ _ _ _ within hword hopening hcondition hclosing hbody, _ => by
      -- If the branch is itself open, the `else` goes further inside.
      have hinside := statement_else hother halt hbody
      simp only [List.cons_append, List.append_assoc]
      cases within with
      | true =>
          rcases hinside rfl with ⟨isOpen, s', hbody'⟩
          exact ⟨true, _, .ifThen hword hopening hcondition hclosing hbody'⟩
      | false =>
          exact ⟨_, _, .ifElse hword hopening hcondition hclosing hbody (fun _ => rfl) hother halt⟩
  | _, _, _, .ifElse hword hopening hcondition hclosing hbody hnearest hother' hlast, hopen => by
      rcases statement_else hother halt hlast hopen with ⟨isOpen, s', hlast'⟩
      simp only [List.cons_append, List.append_assoc]
      exact ⟨isOpen, _, .ifElse hword hopening hcondition hclosing hbody hnearest hother' hlast'⟩

mutual

theorem statement_nearest {nearest : Prop} : ∀ {isOpen : Bool} {ts : List Token} {s : Stmt},
    Statement nearest isOpen ts s → ∃ isOpen' s', Statement True isOpen' ts s'
  | _, _, _, .expression hs => ⟨_, _, .expression hs⟩
  | _, _, _, .print hword hvalue hsemicolon => ⟨_, _, .print hword hvalue hsemicolon⟩
  | _, _, _, .return hword hvalue hsemicolon => ⟨_, _, .return hword hvalue hsemicolon⟩
  | _, _, _, .block hopening hbody => by
      rcases body_nearest hbody with ⟨body, hbody'⟩
      exact ⟨_, _, .block hopening hbody'⟩
  | _, _, _, .while hword hopening hcondition hclosing hbody => by
      rcases statement_nearest hbody with ⟨isOpen, body, hbody'⟩
      exact ⟨_, _, .while hword hopening hcondition hclosing hbody'⟩
  | _, _, _, .for hword hopening hclauses htest hbody => by
      rcases statement_nearest hbody with ⟨isOpen, body, hbody'⟩
      exact ⟨_, _, .for hword hopening hclauses htest hbody'⟩
  | _, _, _, .ifThen hword hopening hcondition hclosing hbody => by
      rcases statement_nearest hbody with ⟨isOpen, body, hbody'⟩
      exact ⟨_, _, .ifThen hword hopening hcondition hclosing hbody'⟩
  | _, _, _, .ifElse hword hopening hcondition hclosing hbody _ hother halt => by
      rcases statement_nearest hbody with ⟨within, body, hbody'⟩
      rcases statement_nearest halt with ⟨isOpen, alternative, halt'⟩
      cases within with
      | false =>
          exact ⟨_, _, .ifElse hword hopening hcondition hclosing hbody' (fun _ => rfl) hother halt'⟩
      | true =>
          -- The `else` belongs to an `if` inside, so this one has none.
          rcases statement_else hother halt' hbody' rfl with ⟨isOpen', body', hall⟩
          exact ⟨_, _, .ifThen hword hopening hcondition hclosing hall⟩

theorem body_nearest {nearest : Prop} : ∀ {ts : List Token} {body : List Stmt},
    Body nearest ts body → ∃ body', Body True ts body'
  | _, _, .intro hbody hclosing => by
      rcases declarations_nearest hbody with ⟨body', hbody'⟩
      exact ⟨_, .intro hbody' hclosing⟩

theorem function_nearest {nearest : Prop} : ∀ {ts : List Token} {decl : FunctionDecl},
    Function nearest ts decl → ∃ decl', Function True ts decl'
  | _, _, .intro hname hopening hparameters hclosing hbrace hbody => by
      rcases body_nearest hbody with ⟨body', hbody'⟩
      exact ⟨_, .intro hname hopening hparameters hclosing hbrace hbody'⟩

theorem methods_nearest {nearest : Prop} : ∀ {ts : List Token} {members : List FunctionDecl},
    Methods nearest ts members → ∃ members', Methods True ts members'
  | _, _, .nil => ⟨_, .nil⟩
  | _, _, .cons hmethod hmethods => by
      rcases function_nearest hmethod with ⟨method, hmethod'⟩
      rcases methods_nearest hmethods with ⟨members, hmethods'⟩
      exact ⟨_, .cons hmethod' hmethods'⟩

theorem declaration_nearest {nearest : Prop} : ∀ {ts : List Token} {s : Stmt},
    Declaration nearest ts s → ∃ s', Declaration True ts s'
  | _, _, .class hword hname hparent hopening hmethods hclosing => by
      rcases methods_nearest hmethods with ⟨members, hmethods'⟩
      exact ⟨_, .class hword hname hparent hopening hmethods' hclosing⟩
  | _, _, .function hword hdecl => by
      rcases function_nearest hdecl with ⟨decl, hdecl'⟩
      exact ⟨_, .function hword hdecl'⟩
  | _, _, .variable hs => ⟨_, .variable hs⟩
  | _, _, .statement hs => by
      rcases statement_nearest hs with ⟨isOpen, s', hs'⟩
      exact ⟨_, .statement hs'⟩

/-- Whatever follows the grammar can be read with every `else` at the nearest open `if`. -/
theorem declarations_nearest {nearest : Prop} : ∀ {ts : List Token} {ss : List Stmt},
    Declarations nearest ts ss → ∃ ss', Declarations True ts ss'
  | _, _, .nil => ⟨_, .nil⟩
  | _, _, .cons hs hss => by
      rcases declaration_nearest hs with ⟨s, hs'⟩
      rcases declarations_nearest hss with ⟨ss, hss'⟩
      exact ⟨_, .cons hs' hss'⟩

end

mutual

/-- A statement in which every `else` belongs to the nearest open `if` is a statement. -/
theorem Statement.plain : ∀ {isOpen : Bool} {ts : List Token} {s : Stmt},
    Statement True isOpen ts s → Statement False isOpen ts s
  | _, _, _, .expression hs => .expression hs
  | _, _, _, .print hword hvalue hsemicolon => .print hword hvalue hsemicolon
  | _, _, _, .return hword hvalue hsemicolon => .return hword hvalue hsemicolon
  | _, _, _, .block hopening hbody => .block hopening hbody.plain
  | _, _, _, .while hword hopening hcondition hclosing hbody =>
      .while hword hopening hcondition hclosing hbody.plain
  | _, _, _, .for hword hopening hclauses htest hbody =>
      .for hword hopening hclauses htest hbody.plain
  | _, _, _, .ifThen hword hopening hcondition hclosing hbody =>
      .ifThen hword hopening hcondition hclosing hbody.plain
  | _, _, _, .ifElse hword hopening hcondition hclosing hbody _ hother halt =>
      .ifElse hword hopening hcondition hclosing hbody.plain False.elim hother halt.plain

theorem Body.plain : ∀ {ts : List Token} {body : List Stmt}, Body True ts body → Body False ts body
  | _, _, .intro hbody hclosing => .intro hbody.plain hclosing

theorem Function.plain : ∀ {ts : List Token} {decl : FunctionDecl},
    Function True ts decl → Function False ts decl
  | _, _, .intro hname hopening hparameters hclosing hbrace hbody =>
      .intro hname hopening hparameters hclosing hbrace hbody.plain

theorem Methods.plain : ∀ {ts : List Token} {members : List FunctionDecl},
    Methods True ts members → Methods False ts members
  | _, _, .nil => .nil
  | _, _, .cons hmethod hmethods => .cons hmethod.plain hmethods.plain

theorem Declaration.plain : ∀ {ts : List Token} {s : Stmt},
    Declaration True ts s → Declaration False ts s
  | _, _, .class hword hname hparent hopening hmethods hclosing =>
      .class hword hname hparent hopening hmethods.plain hclosing
  | _, _, .function hword hdecl => .function hword hdecl.plain
  | _, _, .variable hs => .variable hs
  | _, _, .statement hs => .statement hs.plain

theorem Declarations.plain : ∀ {ts : List Token} {ss : List Stmt},
    Declarations True ts ss → Declarations False ts ss
  | _, _, .nil => .nil
  | _, _, .cons hs hss => .cons hs.plain hss.plain

end

end Grammar

end Lox
