import Lox.Arena.Statement
import Lox.Proofs.Arena.Tree
import Lox.Proofs.Grammar.Productions

/-!
# How the nodes of an arena are written

A node in an arena keeps names and places of the text it was read from. Here it is said which tokens
they are those of.

* `Arena.Spells` lists the tokens that an expression was read from, and says which one of them the
  expression is placed at.
* `Arena.WrittenIn` says that an expression was read from a stretch of the tokens of a text. The only
  exception is the condition of a `for` loop that has none, which is placed at a semicolon.
* `StmtNode.WrittenIn` and `Routine.WrittenIn` say that the names in a node, and the keyword that a
  `return` keeps, are tokens of a text.
-/

namespace Lox

/-! ## Names in nodes -/

/-- The names that are written in an expression itself. -/
def ExprNode.idents : ExprNode → List Ident
  | .var name => [name]
  | .assign name _ => [name]
  | .get _ name => [name]
  | .set _ name _ => [name]
  | .super method => [method]
  | _ => []

/-- The expression can become the target of an assignment. -/
def ExprNode.isTarget : ExprNode → Bool
  | .var _ | .get _ _ => true
  | _ => false

/-- The names that are written in a statement itself. -/
def StmtNode.idents : StmtNode → List Ident
  | .var name _ => [name]
  | .class name _ _ => [name]
  | _ => []

/-- The keyword that a statement keeps the place of. -/
def StmtNode.keyword? : StmtNode → Option Span
  | .return keyword _ => some keyword
  | _ => none

/-- The names that are written in a function itself. -/
def Routine.idents {Statement : Type} (routine : Routine Statement) : List Ident :=
  routine.name :: routine.parameters

/-- One of the tokens is an identifier that writes the name. -/
def Ident.WrittenIn (ts : List Token) (name : Ident) : Prop :=
  ∃ t ∈ ts, t.kind = .identifier ∧ t.ident = name

/-! ## Expressions -/

mutual

/-- The tokens that an expression was read from. It is placed at its operator, at the name of a variable
or a property, at the closing parenthesis of a call, at its keyword, at the opening parenthesis of a
group, or at the literal itself. -/
inductive Arena.Spells (a : Arena) : Index → List Token → Prop
  | literal {i : Index} {token : Token} {value : Literal} :
      a.expressions[i.toNat]? = some ⟨.literal value, token.span⟩ →
        Literal.ofToken? token = some value → Spells a i [token]
  | group {i inner : Index} {opening closing : Token} {ts : List Token} :
      a.expressions[i.toNat]? = some ⟨.group inner, opening.span⟩ → opening.kind = .leftParen →
        Spells a inner ts → closing.kind = .rightParen → Spells a i (opening :: (ts ++ [closing]))
  | unary {i operand : Index} {operator : Token} {op : UnaryOp} {ts : List Token} :
      a.expressions[i.toNat]? = some ⟨.unary op operand, operator.span⟩ →
        UnaryOp.ofKind? operator.kind = some op → Spells a operand ts → Spells a i (operator :: ts)
  | binary {i left right : Index} {operator : Token} {op : BinaryOp} {ts us : List Token} :
      a.expressions[i.toNat]? = some ⟨.binary op left right, operator.span⟩ → Spells a left ts →
        Follow.ofKind? operator.kind = some (.binary op) → Spells a right us →
          Spells a i (ts ++ operator :: us)
  | logical {i left right : Index} {operator : Token} {op : LogicalOp} {ts us : List Token} :
      a.expressions[i.toNat]? = some ⟨.logical op left right, operator.span⟩ → Spells a left ts →
        Follow.ofKind? operator.kind = some (.logical op) → Spells a right us →
          Spells a i (ts ++ operator :: us)
  | var {i : Index} {name : Token} :
      a.expressions[i.toNat]? = some ⟨.var name.ident, name.span⟩ → name.kind = .identifier →
        Spells a i [name]
  | assign {i value : Index} {name equals : Token} {us : List Token} :
      a.expressions[i.toNat]? = some ⟨.assign name.ident value, name.span⟩ → name.kind = .identifier →
        Follow.ofKind? equals.kind = some .assign → Spells a value us →
          Spells a i (name :: equals :: us)
  | call {i callee : Index} {values : List Index} {opening closing : Token} {ts us : List Token} :
      a.expressions[i.toNat]? = some ⟨.call callee values, closing.span⟩ → Spells a callee ts →
        Follow.ofKind? opening.kind = some .call → SpellsArguments a values us →
          closing.kind = .rightParen → Spells a i (ts ++ opening :: (us ++ [closing]))
  | get {i object : Index} {dot name : Token} {ts : List Token} :
      a.expressions[i.toNat]? = some ⟨.get object name.ident, name.span⟩ → Spells a object ts →
        Follow.ofKind? dot.kind = some .access → name.kind = .identifier →
          Spells a i (ts ++ [dot, name])
  | set {i object value : Index} {dot name equals : Token} {ts us : List Token} :
      a.expressions[i.toNat]? = some ⟨.set object name.ident value, name.span⟩ →
        Spells a object ts → Follow.ofKind? dot.kind = some .access → name.kind = .identifier →
          Follow.ofKind? equals.kind = some .assign → Spells a value us →
            Spells a i (ts ++ dot :: name :: equals :: us)
  | this {i : Index} {word : Token} :
      a.expressions[i.toNat]? = some ⟨.this, word.span⟩ → word.kind = .keyword .this →
        Spells a i [word]
  | super {i : Index} {word dot method : Token} :
      a.expressions[i.toNat]? = some ⟨.super method.ident, word.span⟩ →
        word.kind = .keyword .super → dot.kind = .dot → method.kind = .identifier →
          Spells a i [word, dot, method]
  /-- What is no target is read as if the equals sign and the value behind it were not there. -/
  | dropped {i value : Index} {entry : ExprEntry} {equals : Token} {ts us : List Token} :
      a.expressions[i.toNat]? = some entry → entry.node.isTarget = false → Spells a i ts →
        Follow.ofKind? equals.kind = some .assign → Spells a value us →
          Spells a i (ts ++ equals :: us)

/-- The tokens that the arguments of a call were read from. -/
inductive Arena.SpellsArguments (a : Arena) : List Index → List Token → Prop
  | none : SpellsArguments a [] []
  | one {i : Index} {ts : List Token} : Spells a i ts → SpellsArguments a [i] ts
  | more {i : Index} {is : List Index} {comma : Token} {ts us : List Token} :
      Spells a i ts → comma.kind = .comma → is ≠ [] → SpellsArguments a is us →
        SpellsArguments a (i :: is) (ts ++ comma :: us)

end

/-- The semicolon behind a missing condition: it follows the first clause of a `for` loop at once. -/
inductive EndsCondition (ts : List Token) (semicolon : Token) : Prop
  | intro {before clause after : List Token} {keyword opening : Token} {b b' : BuildState}
      {initializer : Option Index} :
      ts = before ++ keyword :: opening :: (clause ++ semicolon :: after) →
        keyword.kind = .keyword .for → opening.kind = .leftParen →
          Build.forInitializer b = .ok initializer b' →
            b.reading.rest = clause ++ semicolon :: after →
              b'.reading.rest = semicolon :: after → semicolon.kind = .semicolon →
                EndsCondition ts semicolon

/-- An expression was read from tokens of a text that stand together, or it is the condition of a `for`
loop that has none. -/
inductive Arena.WrittenIn (a : Arena) (ts : List Token) (i : Index) : Prop
  | spelled {us : List Token} : us <:+: ts → a.Spells i us → WrittenIn a ts i
  | missing {semicolon : Token} : EndsCondition ts semicolon →
      a.expressions[i.toNat]? = some ⟨.literal (.boolean true), semicolon.span⟩ → WrittenIn a ts i

/-! ## Statements and functions -/

/-- The names in a statement are tokens of a text, and so is the keyword it keeps the place of. -/
structure StmtNode.WrittenIn (ts : List Token) (node : StmtNode) : Prop where
  names : ∀ name ∈ node.idents, name.WrittenIn ts
  keyword : ∀ place ∈ node.keyword?, ∃ t ∈ ts, t.kind = .keyword .return ∧ t.span = place

/-- The names in a function are tokens of a text. -/
def Routine.WrittenIn (ts : List Token) (routine : Routine Index) : Prop :=
  ∀ name ∈ routine.idents, name.WrittenIn ts

/-- The nodes that an arena has besides the `old` ones are written by tokens of a text. -/
structure Arena.AddsFrom (ts : List Token) (old a : Arena) : Prop where
  expressions : ∀ i : Index, old.expressions.size ≤ i.toNat → i.toNat < a.expressions.size →
    a.WrittenIn ts i
  statements : ∀ n node, old.statements.size ≤ n → a.statements[n]? = some node → node.WrittenIn ts
  functions : ∀ n routine, old.functions.size ≤ n → a.functions[n]? = some routine →
    routine.WrittenIn ts

theorem EndsCondition.mem {ts : List Token} {semicolon : Token} (h : EndsCondition ts semicolon) :
    semicolon ∈ ts := by
  cases h with
  | intro hts =>
      rw [hts]
      simp

theorem Ident.WrittenIn.mono {ts us : List Token} {name : Ident} (h : name.WrittenIn ts)
    (hsub : ts ⊆ us) : name.WrittenIn us := by
  rcases h with ⟨t, ht, hwrites⟩
  exact ⟨t, hsub ht, hwrites⟩

/-- A statement that keeps no keyword. -/
theorem StmtNode.WrittenIn.of_names {ts : List Token} {node : StmtNode}
    (hnames : ∀ name ∈ node.idents, name.WrittenIn ts) (hkeyword : node.keyword? = none) :
    node.WrittenIn ts := by
  refine ⟨hnames, ?_⟩
  intro place hplace
  rw [hkeyword] at hplace
  cases hplace

/-- A statement that keeps no name either. -/
theorem StmtNode.WrittenIn.of_bare {ts : List Token} {node : StmtNode} (hnames : node.idents = [])
    (hkeyword : node.keyword? = none) : node.WrittenIn ts := by
  refine .of_names ?_ hkeyword
  rw [hnames]
  exact List.forall_mem_nil _

namespace Arena

variable {a b : Arena} {i : Index} {is : List Index} {ts us : List Token}

theorem AddsFrom.refl (ts : List Token) (a : Arena) : AddsFrom ts a a := by
  refine ⟨fun i hold hi => absurd hi (Nat.not_lt_of_le hold), ?_, ?_⟩
  · intro n node hold hnode
    rw [Array.getElem?_eq_none hold] at hnode
    cases hnode
  · intro n routine hold hroutine
    rw [Array.getElem?_eq_none hold] at hroutine
    cases hroutine

/-! ## More nodes -/

mutual

/-- An expression stays written as it is while nodes are added. -/
theorem Spells.grows (hg : a.Grows b) : ∀ {i ts}, a.Spells i ts → b.Spells i ts
  | _, _, .literal hentry hvalue => .literal (hg.expressions _ _ hentry) hvalue
  | _, _, .group hentry hopening hinner hclosing =>
      .group (hg.expressions _ _ hentry) hopening (hinner.grows hg) hclosing
  | _, _, .unary hentry hop hoperand => .unary (hg.expressions _ _ hentry) hop (hoperand.grows hg)
  | _, _, .binary hentry hleft hop hright =>
      .binary (hg.expressions _ _ hentry) (hleft.grows hg) hop (hright.grows hg)
  | _, _, .logical hentry hleft hop hright =>
      .logical (hg.expressions _ _ hentry) (hleft.grows hg) hop (hright.grows hg)
  | _, _, .var hentry hname => .var (hg.expressions _ _ hentry) hname
  | _, _, .assign hentry hname hequals hvalue =>
      .assign (hg.expressions _ _ hentry) hname hequals (hvalue.grows hg)
  | _, _, .call hentry hcallee hopening hvalues hclosing =>
      .call (hg.expressions _ _ hentry) (hcallee.grows hg) hopening (hvalues.grows hg) hclosing
  | _, _, .get hentry hobject hdot hname =>
      .get (hg.expressions _ _ hentry) (hobject.grows hg) hdot hname
  | _, _, .set hentry hobject hdot hname hequals hvalue =>
      .set (hg.expressions _ _ hentry) (hobject.grows hg) hdot hname hequals (hvalue.grows hg)
  | _, _, .this hentry hword => .this (hg.expressions _ _ hentry) hword
  | _, _, .super hentry hword hdot hmethod =>
      .super (hg.expressions _ _ hentry) hword hdot hmethod
  | _, _, .dropped hentry hnode htarget hequals hvalue =>
      .dropped (hg.expressions _ _ hentry) hnode (htarget.grows hg) hequals (hvalue.grows hg)

theorem SpellsArguments.grows (hg : a.Grows b) :
    ∀ {is ts}, a.SpellsArguments is ts → b.SpellsArguments is ts
  | _, _, .none => .none
  | _, _, .one hfirst => .one (hfirst.grows hg)
  | _, _, .more hfirst hcomma hmore hothers =>
      .more (hfirst.grows hg) hcomma hmore (hothers.grows hg)

end

theorem WrittenIn.grows (h : a.WrittenIn ts i) (hg : a.Grows b) : b.WrittenIn ts i := by
  cases h with
  | spelled hstretch hspells => exact .spelled hstretch (hspells.grows hg)
  | missing hends hentry => exact .missing hends (hg.expressions _ _ hentry)

/-! ## What is known from the tokens -/

theorem Spells.ne_nil (h : a.Spells i ts) : ts ≠ [] := by
  cases h <;> simp

/-- An expression is placed at one of its tokens, and its names are tokens of it. -/
theorem Spells.placed : ∀ {i ts}, a.Spells i ts → ∃ entry, a.expressions[i.toNat]? = some entry ∧
    entry.span ∈ ts.map Token.span ∧ ∀ name ∈ entry.node.idents, name.WrittenIn ts
  | _, _, .literal hentry _ => ⟨_, hentry, by simp, by simp [ExprNode.idents]⟩
  | _, _, .group hentry _ _ _ => ⟨_, hentry, by simp, by simp [ExprNode.idents]⟩
  | _, _, .unary hentry _ _ => ⟨_, hentry, by simp, by simp [ExprNode.idents]⟩
  | _, _, .binary hentry _ _ _ => ⟨_, hentry, by simp, by simp [ExprNode.idents]⟩
  | _, _, .logical hentry _ _ _ => ⟨_, hentry, by simp, by simp [ExprNode.idents]⟩
  | _, _, .call hentry _ _ _ _ => ⟨_, hentry, by simp, by simp [ExprNode.idents]⟩
  | _, _, .this hentry _ => ⟨_, hentry, by simp, by simp [ExprNode.idents]⟩
  | _, _, .var hentry hname =>
      ⟨_, hentry, by simp, by simp [ExprNode.idents, Ident.WrittenIn, hname]⟩
  | _, _, @Spells.assign _ _ _ name _ _ hentry hname _ _ =>
      ⟨_, hentry, by simp, List.forall_mem_singleton.mpr ⟨name, by simp, hname, rfl⟩⟩
  | _, _, @Spells.get _ _ _ _ name _ hentry _ _ hname =>
      ⟨_, hentry, by simp, List.forall_mem_singleton.mpr ⟨name, by simp, hname, rfl⟩⟩
  | _, _, @Spells.set _ _ _ _ _ name _ _ _ hentry _ _ hname _ _ =>
      ⟨_, hentry, by simp, List.forall_mem_singleton.mpr ⟨name, by simp, hname, rfl⟩⟩
  | _, _, @Spells.super _ _ _ _ method hentry _ _ hmethod =>
      ⟨_, hentry, by simp, List.forall_mem_singleton.mpr ⟨method, by simp, hmethod, rfl⟩⟩
  | _, _, .dropped _ _ htarget _ _ => by
      rcases htarget.placed with ⟨entry, hentry, hspan, hnames⟩
      refine ⟨entry, hentry, ?_, ?_⟩
      · rw [List.map_append]
        exact List.mem_append_left _ hspan
      · intro name hname
        rcases hnames name hname with ⟨t, ht, hwrites⟩
        exact ⟨t, List.mem_append_left _ ht, hwrites⟩

/-- An expression of a text is placed at a token of the text, and its names are tokens of it. -/
theorem WrittenIn.placed (h : a.WrittenIn ts i) : ∃ entry, a.expressions[i.toNat]? = some entry ∧
    entry.span ∈ ts.map Token.span ∧ ∀ name ∈ entry.node.idents, name.WrittenIn ts := by
  cases h with
  | spelled hstretch hspells =>
      rcases hspells.placed with ⟨entry, hentry, hspan, hnames⟩
      refine ⟨entry, hentry, List.map_subset _ hstretch.subset hspan, ?_⟩
      exact fun name hname => (hnames name hname).mono hstretch.subset
  | missing hends hentry =>
      exact ⟨_, hentry, List.mem_map_of_mem hends.mem, fun name hname => nomatch hname⟩

/-- Only an identifier is read as a variable. -/
theorem Spells.of_var {name : Ident} {span : Span} (h : a.Spells i ts)
    (hentry : a.expressions[i.toNat]? = some ⟨.var name, span⟩) :
    ∃ t : Token, ts = [t] ∧ t.kind = .identifier ∧ name = t.ident := by
  cases h with
  | @var _ t hentry' hname =>
      rw [hentry] at hentry'
      cases hentry'
      exact ⟨t, rfl, hname, rfl⟩
  -- A variable is a target, so nothing was dropped behind it.
  | dropped hentry' hnode =>
      rw [hentry] at hentry'
      cases hentry'
      cases hnode
  | _ =>
      simp_all

/-- Only an access is read as a property. -/
theorem Spells.of_get {object : Index} {name : Ident} {span : Span} (h : a.Spells i ts)
    (hentry : a.expressions[i.toNat]? = some ⟨.get object name, span⟩) :
    ∃ (us : List Token) (dot t : Token), ts = us ++ [dot, t] ∧ a.Spells object us ∧
      Follow.ofKind? dot.kind = some .access ∧ t.kind = .identifier ∧ name = t.ident := by
  cases h with
  | @get _ _ dot t us hentry' hobject hdot hname =>
      rw [hentry] at hentry'
      cases hentry'
      exact ⟨us, dot, t, rfl, hobject, hdot, hname, rfl⟩
  -- Nor was anything dropped behind an access.
  | dropped hentry' hnode =>
      rw [hentry] at hentry'
      cases hentry'
      cases hnode
  | _ =>
      simp_all

end Arena

end Lox
