import Lox.Proofs.Grammar.Agreement
import Lox.Proofs.Grammar.Beginnings

/-!
# What follows the grammar is read without mistakes: expressions

If tokens are an expression of the grammar, and nothing behind them goes it on, then reading takes just
these tokens, records no mistake and gives the tree they are written for. The numbers of the
expressions may be others: the grammar does not say what they are.

`Parse.Accepts` says that a step reads some tokens. There is one rule for each step of reading and for
each way to put steps together.

Main statement: `Parse.accepts_expression`.
-/

namespace Lox

namespace Layer

variable {layer : Layer} {kind : Kind}

theorem join?_of_binary? {op : BinaryOp} (h : layer.binary? kind = some op) :
    layer.join? kind = some fun node => .binary node op := by
  rw [join?, h]

theorem join?_of_logical? {op : LogicalOp} (h : layer.logical? kind = some op) :
    layer.join? kind = some fun node => .logical node op := by
  have hbinary : layer.binary? kind = none := by
    unfold logical? at h
    split at h <;> cases h <;> rfl
  rw [join?, hbinary, h]

/-- The operands on the right of an operator are of a layer that binds more tightly. -/
theorem power_succ_le_tighter {join : Node → Expr → Expr → Expr} (h : layer.join? kind = some join) :
    layer.power + 1 ≤ layer.tighter.power := by
  cases layer <;> first | decide | cases h

end Layer

/-! ## Trees apart from numbers -/

/-- The same places, and no numbers. -/
def Relabel.numberless : Relabel :=
  ⟨fun _ => 0, id, []⟩

/-- Expressions that differ in their numbers at most. -/
def Expr.Alike (e e' : Expr) : Prop :=
  e.relabel .numberless = e'.relabel .numberless

/-! ## States without mistakes -/

namespace ParseState

/-- The tokens are left, and no mistake is recorded. -/
def At (ts : List Token) (s : ParseState) : Prop :=
  s.rest = ts ∧ s.errors = []

namespace At

variable {token : Token} {ts : List Token} {s : ParseState}

theorem kind (h : At ts s) : s.current.kind = headKind ts := by
  rw [kind_current, h.1]

theorem current (h : At (token :: ts) s) : s.current = token := by
  rw [ParseState.current, h.1]
  rfl

theorem next (h : At (token :: ts) s) : At ts s.next := by
  refine ⟨?_, h.2⟩
  rw [ParseState.next, h.1]
  rfl

end At

end ParseState

namespace Parse

open Grammar

variable {α β : Type}

/-- A step reads the tokens `ts` where the tokens `after` stand behind them. It records no mistake, and
its result is as the condition says. -/
def Accepts (p : Parse α) (ts after : List Token) (R : α → Prop) : Prop :=
  ∀ s, ParseState.At (ts ++ after) s → ∃ a t, p s = .ok a t ∧ ParseState.At after t ∧ R a

section Rules

variable {p p' : Parse α} {q : α → Parse β} {ts us after : List Token} {token : Token}
  {P R : α → Prop} {Q : β → Prop}

/-! ## Putting steps together -/

theorem Accepts.pure {a : α} (h : R a) : Accepts (Pure.pure a) [] after R :=
  fun s hs => ⟨a, s, rfl, hs, h⟩

theorem Accepts.mono (hp : Accepts p ts after P) (h : ∀ a, P a → R a) : Accepts p ts after R := by
  intro s hs
  rcases hp s hs with ⟨a, t, hrun, ht, ha⟩
  exact ⟨a, t, hrun, ht, h a ha⟩

/-- One step and then another: the tokens of the second stand behind those of the first. -/
theorem Accepts.bind (hp : Accepts p ts (us ++ after) P) (hq : ∀ a, P a → Accepts (q a) us after Q) :
    Accepts (p >>= q) (ts ++ us) after Q := by
  intro s hs
  rw [List.append_assoc] at hs
  rcases hp s hs with ⟨a, t, hrun, ht, ha⟩
  rw [bind_of_ok q hrun]
  exact hq a ha t ht

/-- One step and then another that reads nothing. -/
theorem Accepts.andThen (hp : Accepts p ts after P) (hq : ∀ a, P a → Accepts (q a) [] after Q) :
    Accepts (p >>= q) ts after Q := by
  have hall : Accepts (p >>= q) (ts ++ []) after Q := hp.bind hq
  rwa [List.append_nil] at hall

theorem Accepts.andReturn {f : α → β} (hp : Accepts p ts after fun a => Q (f a)) :
    Accepts (p >>= fun a => Pure.pure (f a)) ts after Q :=
  hp.andThen fun _ ha => .pure ha

/-- A step that does what another one does in the same state. -/
theorem Accepts.look (hp : ∀ s, ParseState.At (ts ++ after) s → p s = p' s)
    (h : Accepts p' ts after R) : Accepts p ts after R := by
  intro s hs
  rw [hp s hs]
  exact h s hs

/-- A step that does what another one does behind the token at hand. -/
theorem Accepts.cons (hp : ∀ s, ParseState.At (token :: (ts ++ after)) s → p s = p' s.next)
    (h : Accepts p' ts after R) : Accepts p (token :: ts) after R := by
  intro s hs
  rw [hp s hs]
  exact h s.next hs.next

/-! ## Steps that look at the token at hand -/

theorem Accepts.peek {q : Token → Parse β} (hq : Accepts (q token) (token :: ts) after Q) :
    Accepts (Parse.peek >>= q) (token :: ts) after Q := by
  refine .look ?_ hq
  intro s hs
  rw [bind_of_ok q (show Parse.peek s = .ok token s by rw [← hs.current]; rfl)]

theorem Accepts.advance {q : Token → Parse β} (hq : Accepts (q token) ts after Q) :
    Accepts (Parse.advance >>= q) (token :: ts) after Q := by
  refine .cons ?_ hq
  intro s hs
  rw [bind_of_ok q (show Parse.advance s = .ok token s.next by rw [← hs.current]; rfl)]

theorem Accepts.check {q : Bool → Parse β} {kind : Kind}
    (hq : Accepts (q (headKind (ts ++ after) == kind)) ts after Q) :
    Accepts (Parse.check kind >>= q) ts after Q := by
  refine .look ?_ hq
  intro s hs
  rw [← hs.kind]
  rfl

theorem Accepts.atEnd {q : Bool → Parse β} (hq : Accepts (q (ts ++ after).isEmpty) ts after Q) :
    Accepts (Parse.atEnd >>= q) ts after Q := by
  refine .look ?_ hq
  intro s hs
  rw [← hs.1]
  rfl

theorem Accepts.expect {q : Token → Parse β} {kind : Kind} {what : Expectation}
    (hkind : token.kind = kind) (hq : Accepts (q token) ts after Q) :
    Accepts (Parse.expect kind what >>= q) (token :: ts) after Q := by
  refine .cons ?_ hq
  intro s hs
  refine bind_of_ok q ?_
  simp [Parse.expect, hs.current, hkind]

theorem Accepts.ident {q : Ident → Parse β} {what : Expectation}
    (hkind : token.kind = .identifier) (hq : Accepts (q token.ident) ts after Q) :
    Accepts (Parse.ident what >>= q) (token :: ts) after Q := by
  rw [Parse.ident, bind_assoc]
  exact .expect hkind hq

theorem Accepts.accept {q : Bool → Parse β} {kind : Kind} (hkind : token.kind = kind)
    (hq : Accepts (q true) ts after Q) : Accepts (Parse.accept kind >>= q) (token :: ts) after Q := by
  refine .cons ?_ hq
  intro s hs
  refine bind_of_ok q ?_
  simp [Parse.accept, hs.current, hkind]

theorem Accepts.notAccept {q : Bool → Parse β} {kind : Kind} (hkind : headKind (ts ++ after) ≠ kind)
    (hq : Accepts (q false) ts after Q) : Accepts (Parse.accept kind >>= q) ts after Q := by
  refine .look ?_ hq
  intro s hs
  refine bind_of_ok q ?_
  simp [Parse.accept, hs.kind, hkind]

/-! ## Steps that read nothing -/

theorem Accepts.node {q : Node → Parse β} {span : Span}
    (hq : ∀ id, Accepts (q ⟨id, span⟩) ts after Q) : Accepts (Parse.node span >>= q) ts after Q :=
  fun s hs => hq s.nextId { s with nextId := s.nextId + 1 } hs

theorem Accepts.reference {q : Reference → Parse β} {name : Ident}
    (hq : ∀ id, Accepts (q ⟨id, name⟩) ts after Q) :
    Accepts (Parse.reference name >>= q) ts after Q :=
  fun s hs => hq s.nextId { s with nextId := s.nextId + 1 } hs

theorem Accepts.limit {q : Unit → Parse β} {cause : SyntaxCause} {count : Nat}
    (hcount : count < maxArguments) (hq : Accepts (q ()) ts after Q) :
    Accepts (Parse.limit cause count >>= q) ts after Q := by
  refine .look ?_ hq
  intro s _
  refine bind_of_ok q ?_
  rw [Parse.limit, if_neg (Nat.not_le_of_lt hcount)]

end Rules

/-! ## Steps around steps -/

section Around

variable {p : Parse α} {ts after : List Token}

theorem Accepts.recover {R : Option α → Prop} (hp : Accepts p ts after fun a => R (some a)) :
    Accepts (recover p) ts after R := by
  intro s hs
  rcases hp s hs with ⟨a, t, hrun, ht, ha⟩
  refine ⟨some a, t, ?_, ht, ha⟩
  rw [Parse.recover, hrun]

theorem Accepts.fuelled {step : Nat → Parse α} {R : α → Prop}
    (hp : Accepts (step (8 * ((ts ++ after).length + 1))) ts after R) :
    Accepts (fuelled step) ts after R := by
  refine .look ?_ hp
  intro s hs
  rw [fuelled_apply, ParseState.fuel, hs.1]

end Around

/-! ## What may be missing -/

section Missing

variable {γ : Type} {p : Parse α} {f : α → γ} {rule : List Token → α → Prop}
  {ts after : List Token} {a : Option α} {kind : Kind}

theorem Accepts.behind (hend : headKind after ≠ kind) (h : Optional (Behind kind rule) ts a)
    (hp : ∀ us b, rule us b → Accepts p us after fun b' => f b' = f b) :
    Accepts (behind kind p) ts after fun a' => a'.map f = a.map f := by
  cases h with
  | missing =>
      exact .notAccept hend (.pure rfl)
  | present hbehind =>
      rcases hbehind with ⟨htoken, hrule⟩
      refine .accept htoken ?_
      rw [if_pos rfl, map_eq_pure_bind]
      refine .andReturn ((hp _ _ hrule).mono ?_)
      intro b' hb'
      exact congrArg some hb'

theorem Accepts.unlessAt (hend : headKind after = kind) (h : Optional rule ts a)
    (hne : ∀ us b, rule us b → headKind (us ++ after) ≠ kind)
    (hp : ∀ us b, rule us b → Accepts p us after fun b' => f b' = f b) :
    Accepts (unlessAt kind p) ts after fun a' => a'.map f = a.map f := by
  refine .check ?_
  cases h with
  | missing =>
      rw [List.nil_append, hend, if_pos (beq_self_eq_true kind)]
      exact .pure rfl
  | present hrule =>
      rw [if_neg (by simpa using hne _ _ hrule), map_eq_pure_bind]
      refine .andReturn ((hp _ _ hrule).mono ?_)
      intro b' hb'
      exact congrArg some hb'

end Missing

/-! ## What goes on an expression -/

/-- What is left does not go on an expression, or it binds with less than the power `least`. -/
def LooseAt (least : Nat) (after : List Token) : Prop :=
  ∀ follow, Follow.ofKind? (headKind after) = some follow → follow.leftPower < least

theorem LooseAt.loose {least : Nat} {after : List Token} {s : ParseState} (h : LooseAt least after)
    (hs : ParseState.At after s) : Loose least s := by
  intro follow hfollow
  rw [hs.kind] at hfollow
  exact h follow hfollow

theorem LooseAt.mono {least higher : Nat} {after : List Token} (h : LooseAt least after)
    (hle : least ≤ higher) : LooseAt higher after :=
  fun follow hfollow => Nat.lt_of_lt_of_le (h follow hfollow) hle

/-- Reading the tokens by powers leads to the expression, and then to what goes it on. -/
def Leads (least : Nat) (ts after : List Token) (e : Expr) : Prop :=
  ∀ s, ParseState.At (ts ++ after) s →
    ∃ e' t, pratt least s = continued least e' t ∧ ParseState.At after t ∧ e'.Alike e

section Leads

variable {least : Nat} {ts us after : List Token} {e left : Expr}

/-- Where nothing goes on the expression, it is what is read. -/
theorem Leads.accepts (h : Leads least ts after e) (hloose : LooseAt least after) :
    Accepts (pratt least) ts after fun e' => e'.Alike e := by
  intro s hs
  rcases h s hs with ⟨e', t, hrun, ht, he⟩
  rw [hrun, continued_stop e' (hloose.loose ht)]
  exact ⟨e', t, rfl, ht, he⟩

theorem Leads.operand (h : Accepts (fuelled operand) ts after fun e' => e'.Alike e) :
    Leads least ts after e := by
  intro s hs
  rcases h s hs with ⟨e', t, hrun, ht, he⟩
  refine ⟨e', t, ?_, ht, he⟩
  rw [pratt_eq, bind_of_ok _ hrun]

/-- An operator that binds tightly enough and what it asks for go on an expression. -/
theorem Leads.follow {operator : Token} {follow : Follow}
    (hleft : Leads least ts (operator :: (us ++ after)) left)
    (hfollow : Follow.ofKind? operator.kind = some follow) (hle : least ≤ follow.leftPower)
    (hrest : ∀ left', left'.Alike left →
      Accepts (followed left' operator.span follow) us after fun e' => e'.Alike e) :
    Leads least (ts ++ operator :: us) after e := by
  intro s hs
  rw [List.append_assoc, List.cons_append] at hs
  rcases hleft s hs with ⟨left', t, hrun, ht, hleft'⟩
  rcases hrest left' hleft' t.next ht.next with ⟨e', w, hrun', hw, he⟩
  refine ⟨e', w, ?_, hw, he⟩
  rw [← ht.current] at hfollow hrun'
  rw [hrun, continued_step left' hfollow hle, bind_of_ok _ hrun']

end Leads

/-! ## Operands -/

section Operands

variable {least id : Nat} {ts after : List Token} {token : Token}

theorem leads_atom {e : Expr} (hop : UnaryOp.ofKind? token.kind = none)
    (hopening : token.kind ≠ .leftParen)
    (h : Accepts (atom token) (token :: ts) after fun e' => e'.Alike e) :
    Leads least (token :: ts) after e := by
  refine .operand (.look ?_ h)
  intro s hs
  have hcurrent := hs.current
  rw [operand_atom (by rw [hcurrent]; exact hop) (by rw [hcurrent]; exact hopening), hcurrent]

theorem leads_literal {value : Literal} (hvalue : Literal.ofToken? token = some value) :
    Leads least [token] after (.literal ⟨id, token.span⟩ value) := by
  have hkind : UnaryOp.ofKind? token.kind = none ∧ token.kind ≠ .leftParen := by
    unfold Literal.ofToken? at hvalue
    split at hvalue <;> simp_all [UnaryOp.ofKind?]
  refine leads_atom hkind.1 hkind.2 ?_
  simp only [atom, hvalue]
  exact .advance (.node fun _ => .pure rfl)

theorem leads_variable (number : Nat) (hname : token.kind = .identifier) :
    Leads least [token] after (.var ⟨number, token.ident⟩) := by
  refine leads_atom (by rw [hname]; rfl) (by rw [hname]; decide) ?_
  simp only [atom, Literal.ofToken?, hname]
  exact .advance (.reference fun _ => .pure rfl)

theorem leads_this (hword : token.kind = .keyword .this) :
    Leads least [token] after (.this ⟨id, token.span⟩) := by
  refine leads_atom (by rw [hword]; rfl) (by rw [hword]; decide) ?_
  simp only [atom, Literal.ofToken?, hword]
  exact .advance (.node fun _ => .pure rfl)

theorem leads_super {dot method : Token} (hword : token.kind = .keyword .super)
    (hdot : dot.kind = .dot) (hmethod : method.kind = .identifier) :
    Leads least [token, dot, method] after (.super ⟨id, token.span⟩ method.ident) := by
  refine leads_atom (by rw [hword]; rfl) (by rw [hword]; decide) ?_
  simp only [atom, Literal.ofToken?, hword]
  exact .advance (.expect hdot (.ident hmethod (.node fun _ => .pure rfl)))

theorem leads_group {closing : Token} {inner : Expr} (hopening : token.kind = .leftParen)
    (hinner : Accepts (pratt 0) ts (closing :: after) fun e' => e'.Alike inner)
    (hclosing : closing.kind = .rightParen) :
    Leads least (token :: (ts ++ [closing])) after (.group ⟨id, token.span⟩ inner) := by
  have hstep : ∀ s, ParseState.At (token :: (ts ++ [closing] ++ after)) s →
      fuelled operand s = (do
        let inner ← pratt 0
        let _ ← expect .rightParen .closeGroup
        return .group (← node token.span) inner : Parse Expr) s.next := by
    intro s hs
    have hcurrent := hs.current
    rw [operand_group (by rw [hcurrent]; exact hopening), hcurrent]
  refine .operand (.cons hstep (hinner.bind ?_))
  intro inner' hinner'
  refine .expect hclosing (.node ?_)
  intro id'
  exact .pure (congrArg (Expr.group ⟨0, token.span⟩) hinner')

theorem leads_unary {op : UnaryOp} {operand : Expr} (hop : UnaryOp.ofKind? token.kind = some op)
    (hoperand : Accepts (pratt UnaryOp.power) ts after fun e' => e'.Alike operand) :
    Leads least (token :: ts) after (.unary ⟨id, token.span⟩ op operand) := by
  have hstep : ∀ s, ParseState.At (token :: (ts ++ after)) s →
      fuelled Parse.operand s = (do
        let inner ← pratt UnaryOp.power
        return .unary (← node token.span) op inner : Parse Expr) s.next := by
    intro s hs
    have hcurrent := hs.current
    rw [operand_unary (by rw [hcurrent]; exact hop), hcurrent]
  refine .operand (.cons hstep (hoperand.andThen ?_))
  intro operand' hoperand'
  refine .node ?_
  intro id'
  exact .pure (congrArg (Expr.unary ⟨0, token.span⟩ op) hoperand')

end Operands

/-! ## What follows an operand -/

theorem alike_join {layer : Layer} {kind : Kind} {join : Node → Expr → Expr → Expr}
    (hjoin : layer.join? kind = some join) (span : Span) (id id' : Nat)
    {left left' right right' : Expr} (hleft : left.Alike left') (hright : right.Alike right') :
    (join ⟨id, span⟩ left right).Alike (join ⟨id', span⟩ left' right') := by
  unfold Layer.join? at hjoin
  split at hjoin
  · cases hjoin
    exact congrArg₂ (Expr.binary ⟨0, span⟩ _) hleft hright
  · cases hjoin
    exact congrArg₂ (Expr.logical ⟨0, span⟩ _) hleft hright
  · cases hjoin

/-- An expression that can be the target of an assignment stays one if its numbers are others. -/
theorem alike_var {e : Expr} {target : Reference} (h : e.Alike (.var target)) :
    ∃ id, e = .var ⟨id, target.name⟩ := by
  cases e with
  | var target' =>
      unfold Expr.Alike at h
      simp only [Expr.relabel, Expr.var.injEq] at h
      have hreference := congrArg Reference.name h
      have hname : target'.name = target.name := hreference
      exact ⟨target'.id, by rw [← hname]⟩
  | _ => cases h

theorem alike_get {e object : Expr} {id : Nat} {name : Ident} (h : e.Alike (.get id object name)) :
    ∃ id' object', e = .get id' object' name ∧ object'.Alike object := by
  cases e with
  | get id' object' name' =>
      unfold Expr.Alike at h
      simp only [Expr.relabel, Expr.get.injEq] at h
      rcases h with ⟨-, hobject, hname⟩
      have hname : name' = name := hname
      exact ⟨id', object', by rw [hname], hobject⟩
  | _ => cases h

section Followed

variable {least id : Nat} {ts us after : List Token} {left : Expr}

theorem leads_join {layer : Layer} {operator : Token} {join : Node → Expr → Expr → Expr}
    {right : Expr} (hle : least ≤ layer.power) (hjoin : layer.join? operator.kind = some join)
    (hleft : Leads least ts (operator :: (us ++ after)) left)
    (hright : Accepts (pratt (layer.power + 1)) us after fun e' => e'.Alike right) :
    Leads least (ts ++ operator :: us) after (join ⟨id, operator.span⟩ left right) := by
  rcases Descent.followed_join hjoin with ⟨follow, hfollow, hpower, hfollowed⟩
  refine hleft.follow hfollow (hpower ▸ hle) ?_
  intro left' hleft'
  refine .look (fun s _ => hfollowed left' operator.span s) (hright.andThen ?_)
  intro right' hright'
  refine .node ?_
  intro id'
  exact .pure (alike_join hjoin operator.span id' id hleft' hright')

theorem leads_call {opening closing : Token} {values : List Expr}
    (hle : least ≤ Layer.call.power) (hleft : Leads least ts (opening :: (us ++ [closing] ++ after)) left)
    (hopening : opening.kind = .leftParen)
    (hvalues : Accepts (fuelled arguments) us (closing :: after) fun values' =>
      Expr.relabelAll .numberless values' = Expr.relabelAll .numberless values)
    (hclosing : closing.kind = .rightParen) :
    Leads least (ts ++ opening :: (us ++ [closing])) after
      (.call ⟨id, closing.span⟩ left values) := by
  have hfollow : Follow.ofKind? opening.kind = some .call := by rw [hopening]; rfl
  refine hleft.follow hfollow hle ?_
  intro left' hleft'
  refine .look (fun s _ => followed_call left' opening.span) (hvalues.bind ?_)
  intro values' hvalues'
  refine .expect hclosing (.node ?_)
  intro id'
  exact .pure (congrArg₂ (Expr.call ⟨0, closing.span⟩) hleft' hvalues')

theorem leads_get {dot name : Token} (hle : least ≤ Layer.call.power)
    (hleft : Leads least ts (dot :: name :: after) left) (hdot : dot.kind = .dot)
    (hname : name.kind = .identifier) :
    Leads least (ts ++ [dot, name]) after (.get id left name.ident) := by
  have hfollow : Follow.ofKind? dot.kind = some .access := by rw [hdot]; rfl
  refine hleft.follow hfollow hle ?_
  intro left' hleft'
  refine .look (fun s _ => followed_access left' dot.span) (.ident hname (.node ?_))
  intro id'
  exact .pure (congrArg (Expr.get 0 · name.ident) hleft')

/-- A value behind an equals sign, where the left side is a target. -/
theorem leads_assign {equals : Token} {value e : Expr} (hle : least ≤ Layer.assignment.power)
    (hleft : Leads least ts (equals :: (us ++ after)) left) (hequals : equals.kind = .equal)
    (hvalue : Accepts (pratt 1) us after fun value' => value'.Alike value)
    (htarget : ∀ left' value', left'.Alike left → value'.Alike value →
      Accepts (assignTo left' equals.span value') [] after fun e' => e'.Alike e) :
    Leads least (ts ++ equals :: us) after e := by
  have hfollow : Follow.ofKind? equals.kind = some .assign := by rw [hequals]; rfl
  refine hleft.follow hfollow (Nat.le_succ_of_le hle) ?_
  intro left' hleft'
  refine .look (fun s _ => followed_assign left' equals.span) (hvalue.andThen ?_)
  intro value' hvalue'
  exact htarget left' value' hleft' hvalue'

end Followed

/-! ## All expressions -/

/-- No operator binds with the power of an operator in front of its operand, or with that of an
assignment's value. -/
theorem LooseAt.pred {least : Nat} {after : List Token} (h : LooseAt (least + 1) after)
    (hleast : least = Layer.assignment.power ∨ least = Layer.unary.power) : LooseAt least after := by
  intro follow hfollow
  have hlt := h follow hfollow
  have hne : follow.leftPower ≠ least := by
    rcases hleast with rfl | rfl <;> rcases follow with _ | _ | op | op | _ <;>
      first | decide | cases op <;> decide
  omega

theorem looseAt_of_kind {least : Nat} {after : List Token} {kind : Kind}
    (hkind : headKind after = kind) (h : Follow.ofKind? kind = none) : LooseAt least after := by
  intro follow hfollow
  rw [hkind, h] at hfollow
  cases hfollow

/-- A call or an access binds as tightly as its layer. -/
theorem looseAt_suffix {token : Token} {after : List Token}
    (h : token.kind = .leftParen ∨ token.kind = .dot) :
    LooseAt (Layer.call.power + 1) (token :: after) := by
  intro follow hfollow
  rcases h with h | h
  · rw [headKind, h] at hfollow
    cases hfollow
    decide
  · rw [headKind, h] at hfollow
    cases hfollow
    decide

/-- An operator of a layer binds as tightly as the layer. -/
theorem looseAt_join {layer : Layer} {token : Token} {after : List Token}
    {join : Node → Expr → Expr → Expr} (hjoin : layer.join? token.kind = some join) :
    LooseAt (layer.power + 1) (token :: after) := by
  rcases Descent.followed_join hjoin with ⟨follow', hfollow', hpower, -⟩
  intro follow hfollow
  rw [headKind, hfollow'] at hfollow
  cases hfollow
  exact Nat.lt_succ_of_le (Nat.le_of_eq hpower)

mutual

/-- Reading an expression of a layer by powers leads to it, if nothing behind it binds more tightly
than the layer. -/
theorem leads_of_derives : ∀ {layer : Layer} {ts : List Token} {e : Expr}, Derives layer ts e →
    ∀ {least : Nat} {after : List Token}, least ≤ layer.power → LooseAt (layer.power + 1) after →
      Leads least ts after e
  | layer, _, _, .tighter h, least, after, hle, hloose => by
      -- What does not go on an expression of a layer does not go on one of a tighter layer.
      have htight : layer.power ≤ layer.tighter.power := by cases layer <;> decide
      exact leads_of_derives h (Nat.le_trans hle htight) (hloose.mono (Nat.succ_le_succ htight))
  | _, _, _, .literal hvalue, _, _, _, _ => leads_literal hvalue
  | _, _, _, .variable hname, _, _, _, _ => leads_variable _ hname
  | _, _, _, .this hword, _, _, _, _ => leads_this hword
  | _, _, _, .super hword hdot hmethod, _, _, _, _ => leads_super hword hdot hmethod
  | _, _, _, .group hopening hinner hclosing, _, _, _, _ => by
      refine leads_group hopening (Leads.accepts (leads_of_derives hinner (Nat.zero_le _) ?_) ?_)
        hclosing
      · exact looseAt_of_kind hclosing rfl
      · exact looseAt_of_kind hclosing rfl
  | _, _, _, .unary hop hoperand, _, _, _, hloose => by
      -- The operand is read to its end, since no operator has just the power of this one.
      have hlead := leads_of_derives hoperand (Nat.le_refl _) hloose
      exact leads_unary hop (hlead.accepts (hloose.pred (.inr rfl)))
  | layer, _, _, .binary hleft hop hright, _, _, hle, hloose => by
      have hjoin := Layer.join?_of_binary? hop
      have hpower := Layer.power_succ_le_tighter hjoin
      have hlead := leads_of_derives hright hpower (hloose.mono (Nat.le_succ_of_le hpower))
      exact leads_join hle hjoin (leads_of_derives hleft hle (looseAt_join hjoin))
        (hlead.accepts hloose)
  | layer, _, _, .logical hleft hop hright, _, _, hle, hloose => by
      have hjoin := Layer.join?_of_logical? hop
      have hpower := Layer.power_succ_le_tighter hjoin
      have hlead := leads_of_derives hright hpower (hloose.mono (Nat.le_succ_of_le hpower))
      exact leads_join hle hjoin (leads_of_derives hleft hle (looseAt_join hjoin))
        (hlead.accepts hloose)
  | _, _, _, .call hcallee hopening hvalues hclosing, _, _, hle, _ =>
      leads_call hle (leads_of_derives hcallee hle (looseAt_suffix (.inl hopening))) hopening
        (accepts_arguments hvalues hclosing) hclosing
  | _, _, _, .get hobject hdot hname, _, _, hle, _ =>
      leads_get hle (leads_of_derives hobject hle (looseAt_suffix (.inr hdot))) hdot hname
  | _, _, _, .assign hname hequals hvalue, _, _, hle, hloose => by
      have hlead := leads_of_derives hvalue (Nat.le_refl _) hloose
      refine leads_assign hle (leads_variable 0 hname) hequals
        (hlead.accepts (hloose.pred (.inl rfl))) ?_
      intro left' value' hleft' hvalue'
      rcases alike_var hleft' with ⟨id', rfl⟩
      exact .reference fun id' => .pure (congrArg (Expr.assign _) hvalue')
  | _, _, _, @Derives.set ts us dot name equals object value id hobject hdot hname hequals hvalue,
      least, after, hle, hloose => by
      -- The target is read as an access; the equals sign behind it makes it an assignment.
      have hcall : least ≤ Layer.call.power := Nat.le_trans hle (by decide)
      have htarget : Leads least (ts ++ [dot, name]) (equals :: (us ++ after))
          (.get id object name.ident) :=
        leads_get hcall (leads_of_derives hobject hcall (looseAt_suffix (.inr hdot))) hdot hname
      have hlead := leads_of_derives hvalue (Nat.le_refl _) hloose
      have hassign : Leads least (ts ++ [dot, name] ++ equals :: us) after
          (.set id object name.ident value) := by
        refine leads_assign hle htarget hequals (hlead.accepts (hloose.pred (.inl rfl))) ?_
        intro left' value' hleft' hvalue'
        rcases alike_get hleft' with ⟨id', object', rfl, hobject'⟩
        exact .node fun id' => .pure (congrArg₂ (Expr.set 0 · _ ·) hobject' hvalue')
      rwa [List.append_assoc] at hassign

theorem accepts_arguments : ∀ {ts : List Token} {values : List Expr}, Arguments ts values →
    ∀ {after : List Token}, headKind after = .rightParen →
      Accepts (fuelled arguments) ts after fun values' =>
        Expr.relabelAll .numberless values' = Expr.relabelAll .numberless values
  | _, _, .none, _, hafter => by
      refine .look (fun s _ => arguments_eq) (.check ?_)
      rw [List.nil_append, hafter, if_pos (beq_self_eq_true Kind.rightParen)]
      exact .pure rfl
  | ts, _, .some hlist hcount, after, hafter => by
      have hne : headKind (ts ++ after) ≠ .rightParen := by
        have hbegins := ((argumentList_begins hlist).append after).1
        intro hkind
        rw [hkind] at hbegins
        cases hbegins
      refine .look (fun s _ => arguments_eq) (.check ?_)
      rw [if_neg (by simpa using hne)]
      exact accepts_argumentList hlist 0 hafter (by omega)

theorem accepts_argumentList : ∀ {ts : List Token} {values : List Expr}, ArgumentList ts values →
    ∀ {after : List Token} (count : Nat), headKind after = .rightParen →
      count + values.length ≤ maxArguments →
        Accepts (argumentsFrom count) ts after fun values' =>
          Expr.relabelAll .numberless values' = Expr.relabelAll .numberless values
  | _, _, .one hvalue, after, count, hafter, hcount => by
      have hlead := leads_of_derives hvalue (Nat.zero_le _) (looseAt_of_kind hafter rfl)
      refine .look (fun s _ => argumentsFrom_eq count) (.limit hcount ?_)
      refine (hlead.accepts (looseAt_of_kind hafter rfl)).andThen ?_
      intro value' hvalue'
      refine .notAccept (by rw [List.nil_append, hafter]; decide) ?_
      exact .pure (congrArg (List.cons · []) hvalue')
  | _, _, .more hvalue hcomma hothers, after, count, hafter, hcount => by
      rw [List.length_cons] at hcount
      refine .look (fun s _ => argumentsFrom_eq count) (.limit (by omega) ?_)
      refine .bind (Leads.accepts (leads_of_derives hvalue (Nat.zero_le _) ?_) ?_) ?_
      · exact looseAt_of_kind hcomma rfl
      · exact looseAt_of_kind hcomma rfl
      intro value' hvalue'
      refine .accept hcomma ?_
      rw [if_pos rfl]
      refine .andReturn ((accepts_argumentList hothers (count + 1) hafter (by omega)).mono ?_)
      intro others' hothers'
      exact congrArg₂ List.cons hvalue' hothers'

end

/-- An expression of the grammar is read where nothing behind it goes it on. -/
theorem accepts_expression {ts after : List Token} {e : Expr} {kind : Kind} (h : Expression ts e)
    (hkind : headKind after = kind) (hend : Follow.ofKind? kind = none) :
    Accepts expression ts after fun e' => e'.Alike e :=
  (leads_of_derives h (Nat.zero_le _) (looseAt_of_kind hkind hend)).accepts
    (looseAt_of_kind hkind hend)

end Parse

end Lox
