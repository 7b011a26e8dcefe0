import Lox.Proofs.Grammar.Descent
import Lox.Syntax.Statement

/-!
# The grammar

The rules of the grammar, as relations between tokens and the trees they are written for. No reading
takes place here.

The rules leave open with which numbers expressions are given: they say nothing about them. They also
leave open to which `if` an `else` belongs, unless it is asked for the `nearest` one. For that purpose a
statement is called *open* if an `else` behind it could belong to an `if` inside it.
-/

namespace Lox

/-- The name that a token writes. -/
def Token.ident (t : Token) : Ident :=
  ⟨t.lexeme, t.span⟩

namespace Grammar

open Parse (ForClauses)

variable {α : Type}

/-- What may be missing. -/
inductive Optional (rule : List Token → α → Prop) : List Token → Option α → Prop
  | missing : Optional rule [] none
  | present {ts : List Token} {a : α} : rule ts a → Optional rule ts (some a)

/-- What stands behind a token of the given kind. -/
inductive Behind (kind : Kind) (rule : List Token → α → Prop) : List Token → α → Prop
  | intro {token : Token} {ts : List Token} {a : α} :
      token.kind = kind → rule ts a → Behind kind rule (token :: ts) a

/-! ## Expressions -/

mutual

/-- The tokens are an expression of the layer. -/
inductive Derives : Layer → List Token → Expr → Prop
  /-- An expression of the next tighter layer is one of this layer. -/
  | tighter {layer : Layer} {ts : List Token} {e : Expr} :
      Derives layer.tighter ts e → Derives layer ts e
  | assign {name equals : Token} {ts : List Token} {value : Expr} {id : Nat} :
      name.kind = .identifier → equals.kind = .equal → Derives .assignment ts value →
        Derives .assignment (name :: equals :: ts) (.assign ⟨id, name.ident⟩ value)
  | set {ts us : List Token} {dot name equals : Token} {object value : Expr} {id : Nat} :
      Derives .call ts object → dot.kind = .dot → name.kind = .identifier → equals.kind = .equal →
        Derives .assignment us value →
          Derives .assignment (ts ++ dot :: name :: equals :: us) (.set id object name.ident value)
  /-- The operators between two operands associate to the left. -/
  | binary {layer : Layer} {ts us : List Token} {operator : Token} {op : BinaryOp}
      {left right : Expr} {id : Nat} :
      Derives layer ts left → layer.binary? operator.kind = some op → Derives layer.tighter us right →
        Derives layer (ts ++ operator :: us) (.binary ⟨id, operator.span⟩ op left right)
  | logical {layer : Layer} {ts us : List Token} {operator : Token} {op : LogicalOp}
      {left right : Expr} {id : Nat} :
      Derives layer ts left → layer.logical? operator.kind = some op → Derives layer.tighter us right →
        Derives layer (ts ++ operator :: us) (.logical ⟨id, operator.span⟩ op left right)
  | unary {operator : Token} {op : UnaryOp} {ts : List Token} {operand : Expr} {id : Nat} :
      UnaryOp.ofKind? operator.kind = some op → Derives .unary ts operand →
        Derives .unary (operator :: ts) (.unary ⟨id, operator.span⟩ op operand)
  | call {ts us : List Token} {opening closing : Token} {callee : Expr} {values : List Expr}
      {id : Nat} :
      Derives .call ts callee → opening.kind = .leftParen → Arguments us values →
        closing.kind = .rightParen →
          Derives .call (ts ++ opening :: (us ++ [closing])) (.call ⟨id, closing.span⟩ callee values)
  | get {ts : List Token} {dot name : Token} {object : Expr} {id : Nat} :
      Derives .call ts object → dot.kind = .dot → name.kind = .identifier →
        Derives .call (ts ++ [dot, name]) (.get id object name.ident)
  | group {opening closing : Token} {ts : List Token} {inner : Expr} {id : Nat} :
      opening.kind = .leftParen → Derives .assignment ts inner → closing.kind = .rightParen →
        Derives .primary (opening :: (ts ++ [closing])) (.group ⟨id, opening.span⟩ inner)
  | literal {token : Token} {value : Literal} {id : Nat} :
      Literal.ofToken? token = some value → Derives .primary [token] (.literal ⟨id, token.span⟩ value)
  | variable {name : Token} {id : Nat} :
      name.kind = .identifier → Derives .primary [name] (.var ⟨id, name.ident⟩)
  | this {word : Token} {id : Nat} :
      word.kind = .keyword .this → Derives .primary [word] (.this ⟨id, word.span⟩)
  | super {word dot method : Token} {id : Nat} :
      word.kind = .keyword .super → dot.kind = .dot → method.kind = .identifier →
        Derives .primary [word, dot, method] (.super ⟨id, word.span⟩ method.ident)

/-- The tokens are the arguments of a call, of which there are not too many. -/
inductive Arguments : List Token → List Expr → Prop
  | none : Arguments [] []
  | some {ts : List Token} {values : List Expr} :
      ArgumentList ts values → values.length ≤ maxArguments → Arguments ts values

/-- The tokens are one argument or more. -/
inductive ArgumentList : List Token → List Expr → Prop
  | one {ts : List Token} {value : Expr} :
      Derives .assignment ts value → ArgumentList ts [value]
  | more {ts us : List Token} {comma : Token} {value : Expr} {values : List Expr} :
      Derives .assignment ts value → comma.kind = .comma → ArgumentList us values →
        ArgumentList (ts ++ comma :: us) (value :: values)

end

/-- The tokens are an expression. -/
abbrev Expression : List Token → Expr → Prop :=
  Derives .assignment

/-! ## Parts of statements -/

/-- The tokens are an expression and a semicolon. -/
inductive ExpressionStatement : List Token → Stmt → Prop
  | intro {ts : List Token} {semicolon : Token} {value : Expr} :
      Expression ts value → semicolon.kind = .semicolon →
        ExpressionStatement (ts ++ [semicolon]) (.expression value)

/-- The tokens declare a variable. -/
inductive Variable : List Token → Stmt → Prop
  | intro {word name semicolon : Token} {ts : List Token} {initial : Option Expr} :
      word.kind = .keyword .var → name.kind = .identifier →
        Optional (Behind .equal Expression) ts initial → semicolon.kind = .semicolon →
          Variable (word :: name :: (ts ++ [semicolon])) (.var name.ident initial)

/-- The tokens are one name or more. -/
inductive Names : List Token → List Ident → Prop
  | one {name : Token} : name.kind = .identifier → Names [name] [name.ident]
  | more {name comma : Token} {ts : List Token} {names : List Ident} :
      name.kind = .identifier → comma.kind = .comma → Names ts names →
        Names (name :: comma :: ts) (name.ident :: names)

/-- The tokens are the parameters of a function, of which there are not too many. -/
inductive Parameters : List Token → List Ident → Prop
  | none : Parameters [] []
  | some {ts : List Token} {names : List Ident} :
      Names ts names → names.length ≤ maxArguments → Parameters ts names

/-- The token is the name of a class to inherit from. -/
inductive Parent : List Token → Reference → Prop
  | intro {name : Token} {id : Nat} : name.kind = .identifier → Parent [name] ⟨id, name.ident⟩

/-- The tokens are the first clause of a `for` loop, with its semicolon. -/
inductive Initializer : List Token → Option Stmt → Prop
  | none {semicolon : Token} : semicolon.kind = .semicolon → Initializer [semicolon] none
  | variable {ts : List Token} {s : Stmt} : Variable ts s → Initializer ts (some s)
  | expression {ts : List Token} {s : Stmt} : ExpressionStatement ts s → Initializer ts (some s)

/-- The tokens are the clauses of a `for` loop, each of which may be missing, and the closing
parenthesis. -/
inductive Clauses : List Token → ForClauses → Prop
  | intro {ts us vs : List Token} {semicolon closing : Token} {initializer : Option Stmt}
      {condition increment : Option Expr} :
      Initializer ts initializer → Optional Expression us condition → semicolon.kind = .semicolon →
        Optional Expression vs increment → closing.kind = .rightParen →
          Clauses (ts ++ (us ++ semicolon :: (vs ++ [closing])))
            ⟨initializer, condition, semicolon.span, increment⟩

/-- The condition of a `for` loop, if the one that is written may be missing: in its place there is
`true`, at the given place. -/
inductive Test (place : Span) : Option Expr → Expr → Prop
  | always {id : Nat} : Test place none (.literal ⟨id, place⟩ (.boolean true))
  | written {condition : Expr} : Test place (some condition) condition

/-- What stands for a `for` loop: a block with the initializer and a `while` loop, whose body is a
block with the body and the increment. There are no blocks where there is nothing to put in front or
behind. -/
def forTree (initializer : Option Stmt) (condition : Expr) (increment : Option Expr) (body : Stmt) :
    Stmt :=
  let round : Stmt :=
    match increment with
    | none => body
    | some value => .block [body, .expression value]
  match initializer with
  | none => .while condition round
  | some first => .block [first, .while condition round]

/-! ## Statements and declarations -/

mutual

/-- The tokens are a statement that declares nothing. The flag says whether it is open. If `nearest`
holds, an `else` may not stand behind an open statement. -/
inductive Statement (nearest : Prop) : Bool → List Token → Stmt → Prop
  | expression {ts : List Token} {s : Stmt} :
      ExpressionStatement ts s → Statement nearest false ts s
  | print {word semicolon : Token} {ts : List Token} {value : Expr} :
      word.kind = .keyword .print → Expression ts value → semicolon.kind = .semicolon →
        Statement nearest false (word :: (ts ++ [semicolon])) (.print value)
  | return {word semicolon : Token} {ts : List Token} {value : Option Expr} :
      word.kind = .keyword .return → Optional Expression ts value → semicolon.kind = .semicolon →
        Statement nearest false (word :: (ts ++ [semicolon])) (.return word.span value)
  | block {opening : Token} {ts : List Token} {body : List Stmt} :
      opening.kind = .leftBrace → Body nearest ts body →
        Statement nearest false (opening :: ts) (.block body)
  | while {word opening closing : Token} {ts us : List Token} {condition : Expr} {body : Stmt}
      {isOpen : Bool} :
      word.kind = .keyword .while → opening.kind = .leftParen → Expression ts condition →
        closing.kind = .rightParen → Statement nearest isOpen us body →
          Statement nearest isOpen (word :: opening :: (ts ++ closing :: us)) (.while condition body)
  | for {word opening : Token} {ts us : List Token} {clauses : ForClauses} {condition : Expr}
      {body : Stmt} {isOpen : Bool} :
      word.kind = .keyword .for → opening.kind = .leftParen → Clauses ts clauses →
        Test clauses.semicolon clauses.condition condition → Statement nearest isOpen us body →
          Statement nearest isOpen (word :: opening :: (ts ++ us))
            (forTree clauses.initializer condition clauses.increment body)
  | ifThen {word opening closing : Token} {ts us : List Token} {condition : Expr}
      {consequent : Stmt} {isOpen : Bool} :
      word.kind = .keyword .if → opening.kind = .leftParen → Expression ts condition →
        closing.kind = .rightParen → Statement nearest isOpen us consequent →
          Statement nearest true (word :: opening :: (ts ++ closing :: us))
            (.ifElse condition consequent none)
  | ifElse {word opening closing other : Token} {ts us vs : List Token} {condition : Expr}
      {consequent alternative : Stmt} {within isOpen : Bool} :
      word.kind = .keyword .if → opening.kind = .leftParen → Expression ts condition →
        closing.kind = .rightParen → Statement nearest within us consequent →
          (nearest → within = false) → other.kind = .keyword .else →
            Statement nearest isOpen vs alternative →
              Statement nearest isOpen (word :: opening :: (ts ++ closing :: (us ++ other :: vs)))
                (.ifElse condition consequent (some alternative))

/-- The tokens are declarations and a closing brace. -/
inductive Body (nearest : Prop) : List Token → List Stmt → Prop
  | intro {ts : List Token} {closing : Token} {body : List Stmt} :
      Declarations nearest ts body → closing.kind = .rightBrace →
        Body nearest (ts ++ [closing]) body

/-- The tokens are a function or a method, from its name on. -/
inductive Function (nearest : Prop) : List Token → FunctionDecl → Prop
  | intro {name opening closing brace : Token} {ts us : List Token} {parameters : List Ident}
      {body : List Stmt} :
      name.kind = .identifier → opening.kind = .leftParen → Parameters ts parameters →
        closing.kind = .rightParen → brace.kind = .leftBrace → Body nearest us body →
          Function nearest (name :: opening :: (ts ++ closing :: brace :: us))
            ⟨name.ident, parameters, body⟩

/-- The tokens are methods. -/
inductive Methods (nearest : Prop) : List Token → List FunctionDecl → Prop
  | nil : Methods nearest [] []
  | cons {ts us : List Token} {method : FunctionDecl} {methods : List FunctionDecl} :
      Function nearest ts method → Methods nearest us methods →
        Methods nearest (ts ++ us) (method :: methods)

/-- The tokens are a declaration or a statement. -/
inductive Declaration (nearest : Prop) : List Token → Stmt → Prop
  | class {word name opening closing : Token} {ts us : List Token} {parent : Option Reference}
      {methods : List FunctionDecl} :
      word.kind = .keyword .class → name.kind = .identifier →
        Optional (Behind .less Parent) ts parent → opening.kind = .leftBrace →
          Methods nearest us methods → closing.kind = .rightBrace →
            Declaration nearest (word :: name :: (ts ++ opening :: (us ++ [closing])))
              (.class name.ident parent methods)
  | function {word : Token} {ts : List Token} {decl : FunctionDecl} :
      word.kind = .keyword .fun → Function nearest ts decl →
        Declaration nearest (word :: ts) (.function decl)
  | variable {ts : List Token} {s : Stmt} : Variable ts s → Declaration nearest ts s
  | statement {ts : List Token} {s : Stmt} {isOpen : Bool} :
      Statement nearest isOpen ts s → Declaration nearest ts s

/-- The tokens are declarations and statements. -/
inductive Declarations (nearest : Prop) : List Token → List Stmt → Prop
  | nil : Declarations nearest [] []
  | cons {ts us : List Token} {s : Stmt} {ss : List Stmt} :
      Declaration nearest ts s → Declarations nearest us ss →
        Declarations nearest (ts ++ us) (s :: ss)

end

end Grammar

end Lox
