import Lox.Proofs.Grammar.Productions

/-!
# With what the parts of a program begin

A reader decides by the token at hand what to read. Expressions, statements and declarations begin with
different kinds of token, and none begins where a list ends.
-/

namespace Lox

/-- The kind of the first token, or of the end. -/
def headKind : List Token → Kind
  | [] => .eof
  | token :: _ => token.kind

theorem ParseState.kind_current (s : ParseState) : s.current.kind = headKind s.rest := by
  unfold ParseState.current
  cases s.rest <;> rfl

/-- Only the end of the tokens has its kind. -/
theorem isEmpty_of_headKind_ne {ts : List Token} (h : headKind ts ≠ .eof) : ts.isEmpty = false := by
  cases ts with
  | nil => exact absurd rfl h
  | cons token ts => rfl

namespace Kind

/-- The kinds with which an expression can begin. -/
def beginsExpression : Kind → Bool
  | .leftParen | .bang | .minus | .number | .string | .identifier => true
  | .keyword .true | .keyword .false | .keyword .nil | .keyword .this | .keyword .super => true
  | _ => false

/-- The kinds with which a statement that declares nothing can begin. -/
def beginsStatement : Kind → Bool
  | .leftBrace => true
  | .keyword .for | .keyword .if | .keyword .print | .keyword .return | .keyword .while => true
  | kind => kind.beginsExpression

/-- The kinds with which a declaration or a statement can begin. -/
def beginsDeclaration : Kind → Bool
  | .keyword .class | .keyword .fun | .keyword .var => true
  | kind => kind.beginsStatement

theorem beginsStatement_of_expression {kind : Kind} (h : kind.beginsExpression = true) :
    kind.beginsStatement = true := by
  unfold beginsStatement
  split <;> first | rfl | exact h

theorem beginsDeclaration_of_statement {kind : Kind} (h : kind.beginsStatement = true) :
    kind.beginsDeclaration = true := by
  unfold beginsDeclaration
  split <;> first | rfl | exact h

end Kind

namespace Grammar

/-- The tokens begin with one of the given kinds. -/
def Begins (allowed : Kind → Bool) (ts : List Token) : Prop :=
  allowed (headKind ts) = true ∧ ts ≠ []

namespace Begins

variable {allowed allowed' : Kind → Bool} {ts : List Token}

theorem cons {token : Token} (h : allowed token.kind = true) (us : List Token) :
    Begins allowed (token :: us) :=
  ⟨h, List.cons_ne_nil token us⟩

theorem append (h : Begins allowed ts) (us : List Token) : Begins allowed (ts ++ us) := by
  cases ts with
  | nil => exact absurd rfl h.2
  | cons token ts => exact cons h.1 (ts ++ us)

theorem mono (h : Begins allowed ts)
    (hmono : ∀ {kind}, allowed kind = true → allowed' kind = true) : Begins allowed' ts :=
  ⟨hmono h.1, h.2⟩

end Begins

theorem beginsExpression_of_literal {token : Token} {value : Literal}
    (h : Literal.ofToken? token = some value) : token.kind.beginsExpression = true := by
  unfold Literal.ofToken? at h
  split at h <;> rename_i hkind <;> first | (rw [hkind]; rfl) | cases h

theorem beginsExpression_of_unary {kind : Kind} {op : UnaryOp} (h : UnaryOp.ofKind? kind = some op) :
    kind.beginsExpression = true := by
  unfold UnaryOp.ofKind? at h
  split at h <;> first | rfl | cases h

/-- What stands in front decides with what an expression begins. -/
theorem derives_begins : ∀ {layer : Layer} {ts : List Token} {e : Expr}, Derives layer ts e →
    Begins Kind.beginsExpression ts
  | _, _, _, .tighter h => derives_begins h
  | _, _, _, .assign hname _ _ => .cons (by rw [hname]; rfl) _
  | _, _, _, .set hobject _ _ _ _ => (derives_begins hobject).append _
  | _, _, _, .binary hleft _ _ => (derives_begins hleft).append _
  | _, _, _, .logical hleft _ _ => (derives_begins hleft).append _
  | _, _, _, .unary hop _ => .cons (beginsExpression_of_unary hop) _
  | _, _, _, .call hcallee _ _ _ => (derives_begins hcallee).append _
  | _, _, _, .get hobject _ _ => (derives_begins hobject).append _
  | _, _, _, .group hopening _ _ => .cons (by rw [hopening]; rfl) _
  | _, _, _, .literal hvalue => .cons (beginsExpression_of_literal hvalue) _
  | _, _, _, .variable hname => .cons (by rw [hname]; rfl) _
  | _, _, _, .this hword => .cons (by rw [hword]; rfl) _
  | _, _, _, .super hword _ _ => .cons (by rw [hword]; rfl) _

theorem argumentList_begins {ts : List Token} {values : List Expr} (h : ArgumentList ts values) :
    Begins Kind.beginsExpression ts := by
  cases h with
  | one hvalue => exact derives_begins hvalue
  | more hvalue _ _ => exact (derives_begins hvalue).append _

theorem expressionStatement_begins {ts : List Token} {s : Stmt} (h : ExpressionStatement ts s) :
    Begins Kind.beginsExpression ts := by
  cases h with
  | intro hvalue _ => exact (derives_begins hvalue).append _

theorem statement_begins {nearest : Prop} {isOpen : Bool} {ts : List Token} {s : Stmt}
    (h : Statement nearest isOpen ts s) : Begins Kind.beginsStatement ts := by
  cases h with
  | expression hs => exact (expressionStatement_begins hs).mono Kind.beginsStatement_of_expression
  | print hword _ _ => exact .cons (by rw [hword]; rfl) _
  | «return» hword _ _ => exact .cons (by rw [hword]; rfl) _
  | block hopening _ => exact .cons (by rw [hopening]; rfl) _
  | «while» hword _ _ _ _ => exact .cons (by rw [hword]; rfl) _
  | «for» hword _ _ _ _ => exact .cons (by rw [hword]; rfl) _
  | ifThen hword _ _ _ _ => exact .cons (by rw [hword]; rfl) _
  | ifElse hword _ _ _ _ _ _ _ => exact .cons (by rw [hword]; rfl) _

theorem declaration_begins {nearest : Prop} {ts : List Token} {s : Stmt}
    (h : Declaration nearest ts s) : Begins Kind.beginsDeclaration ts := by
  cases h with
  | «class» hword _ _ _ _ _ => exact .cons (by rw [hword]; rfl) _
  | function hword _ => exact .cons (by rw [hword]; rfl) _
  | «variable» hs =>
      cases hs with
      | intro hword _ _ _ => exact .cons (by rw [hword]; rfl) _
  | statement hs => exact (statement_begins hs).mono Kind.beginsDeclaration_of_statement

theorem function_ne_nil {nearest : Prop} {ts : List Token} {decl : FunctionDecl}
    (h : Function nearest ts decl) : ts ≠ [] := by
  cases h
  exact List.cons_ne_nil _ _

end Grammar

end Lox
