import Lox.Proofs.Grammar.Agreement
import Lox.Proofs.Grammar.Beginnings

/-!
# What is read without mistakes: expressions

If no mistake is recorded when an expression has been read, then the tokens that were read are an
expression of the grammar, and the tree is the one they are written for.

`Parse.Yields` says what a step gives when it ends without mistakes. There is one rule for each step of
reading and for each way to put steps together. A mistake stays recorded, and whether one is recorded
is known at the end only; so what is known of an earlier step is a premise of the condition on what
follows it.

Main statement: `Parse.yields_expression`.
-/

namespace Lox

namespace Parse

open Grammar

variable {α β : Type}

/-- What a step gives, if no mistake is recorded when it ends. None was recorded before, and the tokens
that were read, the result and the state behind them are as the condition says. -/
def Yields (p : Parse α) (Q : List Token → α → ParseState → Prop) (s : ParseState) : Prop :=
  ∀ a t, p s = .ok a t → t.errors = [] →
    s.errors = [] ∧ ∃ ts, s.rest = ts ++ t.rest ∧ Q ts a t

theorem rest_eq_cons {s : ParseState} (h : s.rest ≠ []) : s.rest = s.current :: s.next.rest := by
  unfold ParseState.current ParseState.next
  cases hrest : s.rest with
  | nil =>
      exact absurd hrest h
  | cons token ts =>
      rfl

theorem length_of_rest_ne_nil {s : ParseState} (h : s.rest ≠ []) :
    s.next.rest.length + 1 = s.rest.length :=
  (congrArg List.length (rest_eq_cons h)).symm

section Rules

variable {p : Parse α} {q : α → Parse β} {P P' : List Token → α → ParseState → Prop}
  {Q : List Token → β → ParseState → Prop} {s : ParseState}

/-! ## Putting steps together -/

theorem Yields.pure {a : α} (h : P [] a s) : Yields (Pure.pure a) P s := by
  intro b t hrun herrors
  cases hrun
  exact ⟨herrors, [], rfl, h⟩

theorem Yields.fail {cause : SyntaxCause} : Yields (Parse.fail cause) P s := by
  intro a t hrun
  cases hrun

/-- A weaker condition holds as well. -/
theorem Yields.mono (hp : Yields p P s) (h : ∀ ts a t, P ts a t → P' ts a t) : Yields p P' s := by
  intro a t hrun herrors
  rcases hp a t hrun herrors with ⟨hnone, ts, hrest, hP⟩
  exact ⟨hnone, ts, hrest, h ts a t hP⟩

/-- One step and then another: the tokens of the second stand behind those of the first. -/
theorem Yields.bind (hp : Yields p P s)
    (hq : ∀ a t, Yields (q a) (fun us b w =>
      ∀ ts, t.rest.length + ts.length = s.rest.length → P ts a t → Q (ts ++ us) b w) t) :
    Yields (p >>= q) Q s := by
  intro b w hrun herrors
  rw [bind_apply] at hrun
  cases hfirst : p s with
  | error e t =>
      rw [hfirst] at hrun
      cases hrun
  | ok a t =>
      rw [hfirst] at hrun
      -- The second step comes first here: only it says that nothing was wrong in between.
      rcases hq a t b w hrun herrors with ⟨htErrors, us, hus, hQ⟩
      rcases hp a t hfirst htErrors with ⟨hnone, ts, hts, hP⟩
      have hlength : t.rest.length + ts.length = s.rest.length := by
        rw [hts, List.length_append, Nat.add_comm]
      exact ⟨hnone, ts ++ us, by rw [hts, hus, List.append_assoc], hQ ts hlength hP⟩

theorem Yields.andReturn {f : α → β} (hp : Yields p (fun ts a t => Q ts (f a) t) s) :
    Yields (p >>= fun a => Pure.pure (f a)) Q s := by
  refine hp.bind ?_
  intro a t
  refine .pure ?_
  intro ts _ hQ
  rw [List.append_nil]
  exact hQ

/-- A step that reads nothing and leaves the state as it is. -/
theorem Yields.look {a : α} (hp : p s = .ok a s) (hq : Yields (q a) Q s) : Yields (p >>= q) Q s := by
  intro b w hrun
  rw [bind_of_ok q hp] at hrun
  exact hq b w hrun

/-- A step that passes one token. -/
theorem Yields.pass {a : α} (hrest : s.rest ≠ []) (hp : p s = .ok a s.next)
    (hq : Yields (q a) (fun us => Q (s.current :: us)) s.next) : Yields (p >>= q) Q s := by
  intro b w hrun herrors
  rw [bind_of_ok q hp] at hrun
  rcases hq b w hrun herrors with ⟨hnone, us, hus, hQ⟩
  exact ⟨hnone, s.current :: us, by rw [rest_eq_cons hrest, hus]; rfl, hQ⟩

theorem Yields.ite {b : Bool} {p' : Parse α} (hp : b = true → Yields p P s)
    (hp' : b = false → Yields p' P s) : Yields (if b then p else p') P s := by
  cases b with
  | false => exact hp' rfl
  | true => exact hp rfl

end Rules

/-- A step that stops leaves a mistake behind. -/
theorem Yields.recover {p : Parse α} {Q : List Token → Option α → ParseState → Prop}
    {s : ParseState} (hp : Yields p (fun ts a t => Q ts (some a) t) s) :
    Yields (recover p) Q s := by
  intro a t hrun herrors
  unfold Parse.recover at hrun
  cases hstep : p s with
  | ok b w =>
      rw [hstep] at hrun
      cases hrun
      exact hp b t hstep herrors
  | error e w =>
      rw [hstep] at hrun
      cases hrun
      unfold ParseState.synchronize at herrors
      split at herrors <;> simp [ParseState.record] at herrors

theorem Yields.fuelled {step : Nat → Parse α} {P : List Token → α → ParseState → Prop}
    {s : ParseState} (hp : Yields (step s.fuel) P s) : Yields (fuelled step) P s :=
  hp

/-! ## Steps that look at the token at hand -/

section Steps

variable {q : Token → Parse β} {Q : List Token → β → ParseState → Prop} {s : ParseState}
  {kind : Kind}

theorem Yields.peek (hq : Yields (q s.current) Q s) : Yields (Parse.peek >>= q) Q s :=
  .look rfl hq

theorem Yields.advance (hrest : s.rest ≠ [])
    (hq : s.next.rest.length + 1 = s.rest.length →
      Yields (q s.current) (fun us => Q (s.current :: us)) s.next) :
    Yields (Parse.advance >>= q) Q s :=
  .pass hrest rfl (hq (length_of_rest_ne_nil hrest))

theorem Yields.check {q : Bool → Parse β} (hq : Yields (q (s.current.kind == kind)) Q s) :
    Yields (Parse.check kind >>= q) Q s :=
  .look rfl hq

theorem Yields.atEnd {q : Bool → Parse β} (hq : Yields (q s.rest.isEmpty) Q s) :
    Yields (Parse.atEnd >>= q) Q s :=
  .look rfl hq

theorem Yields.expect {what : Expectation} (hkind : kind ≠ .eof)
    (hq : ∀ token t, token.kind = kind → t.rest.length + 1 = s.rest.length →
      Yields (q token) (fun us => Q (token :: us)) t) :
    Yields (Parse.expect kind what >>= q) Q s := by
  by_cases h : s.current.kind = kind
  · have hrest : s.rest ≠ [] := ne_nil_of_kind hkind h
    refine .pass hrest ?_ (hq _ _ h (length_of_rest_ne_nil hrest))
    simp [Parse.expect, h]
  · intro b w hrun
    rw [bind_apply, Parse.expect, if_neg (by simpa using h)] at hrun
    cases hrun

theorem Yields.ident {q : Ident → Parse β} {what : Expectation}
    (hq : ∀ token t, token.kind = .identifier → t.rest.length + 1 = s.rest.length →
      Yields (q token.ident) (fun us => Q (token :: us)) t) :
    Yields (Parse.ident what >>= q) Q s := by
  rw [Parse.ident, bind_assoc]
  refine .expect (by decide) ?_
  intro token t hkind hlength
  exact hq token t hkind hlength

theorem Yields.accept {q : Bool → Parse β} (hkind : kind ≠ .eof)
    (hyes : s.current.kind = kind → s.next.rest.length + 1 = s.rest.length →
      Yields (q true) (fun us => Q (s.current :: us)) s.next)
    (hno : s.current.kind ≠ kind → Yields (q false) Q s) :
    Yields (Parse.accept kind >>= q) Q s := by
  by_cases h : s.current.kind = kind
  · have hrest : s.rest ≠ [] := ne_nil_of_kind hkind h
    refine .pass hrest ?_ (hyes h (length_of_rest_ne_nil hrest))
    simp [Parse.accept, h]
  · refine .look ?_ (hno h)
    simp [Parse.accept, h]

/-! ## Steps that read nothing -/

theorem Yields.node {q : Node → Parse β} {span : Span}
    (hq : Yields (q ⟨s.nextId, span⟩) Q { s with nextId := s.nextId + 1 }) :
    Yields (Parse.node span >>= q) Q s :=
  hq

theorem Yields.reference {q : Reference → Parse β} {name : Ident}
    (hq : Yields (q ⟨s.nextId, name⟩) Q { s with nextId := s.nextId + 1 }) :
    Yields (Parse.reference name >>= q) Q s :=
  hq

/-- If no mistake is recorded, there was room for one more. -/
theorem Yields.limit {q : Unit → Parse β} {cause : SyntaxCause} {count : Nat}
    (hq : ∀ t, t.rest = s.rest →
      Yields (q ()) (fun us b w => count < maxArguments → Q us b w) t) :
    Yields (Parse.limit cause count >>= q) Q s := by
  intro b w hrun herrors
  rw [bind_apply, Parse.limit] at hrun
  by_cases h : maxArguments ≤ count
  · -- One too many is a mistake, and it would still be there at the end.
    rw [if_pos h] at hrun
    rcases hq (s.record _) rfl b w hrun herrors with ⟨hnone, -⟩
    simp [ParseState.record] at hnone
  · rw [if_neg h] at hrun
    rcases hq s rfl b w hrun herrors with ⟨hnone, us, hus, hQ⟩
    exact ⟨hnone, us, hus, hQ (Nat.lt_of_not_le h)⟩

end Steps

/-! ## What may be missing -/

section Missing

variable {p : Parse α} {rule : List Token → α → Prop} {s : ParseState} {kind : Kind}

theorem Yields.behind (hkind : kind ≠ .eof) (hp : ∀ t, Yields p (fun ts a _ => rule ts a) t) :
    Yields (behind kind p) (fun ts a _ => Optional (Behind kind rule) ts a) s := by
  refine .accept hkind ?_ ?_
  · intro htoken _
    rw [if_pos rfl, map_eq_pure_bind]
    refine .andReturn ((hp s.next).mono ?_)
    intro ts a _ ha
    exact .present (.intro htoken ha)
  · intro _
    exact .pure .missing

theorem Yields.unlessAt (hp : Yields p (fun ts a _ => rule ts a) s) :
    Yields (unlessAt kind p) (fun ts a _ => Optional rule ts a) s := by
  refine .check (.ite ?_ ?_)
  · intro _
    exact .pure .missing
  · intro _
    rw [map_eq_pure_bind]
    refine .andReturn (hp.mono ?_)
    intro ts a _ ha
    exact .present ha

end Missing

/-! ## Operands and targets -/

section Operands

variable {s : ParseState}

theorem yields_atom (s : ParseState) :
    Yields (atom s.current) (fun ts e _ => Derives .primary ts e) s := by
  by_cases hrest : s.rest = []
  · rw [ParseState.current, hrest]
    exact .fail
  · unfold atom
    split
    · rename_i value hvalue
      refine .advance hrest fun _ => .node (.pure ?_)
      exact .literal hvalue
    · rename_i hkind
      refine .advance hrest fun _ => .reference (.pure ?_)
      exact .variable hkind
    · rename_i hkind
      refine .advance hrest fun _ => .node (.pure ?_)
      exact .this hkind
    · rename_i hkind
      refine .advance hrest ?_
      intro _
      refine .expect (by decide) ?_
      intro dot t hdot _
      refine .ident ?_
      intro method w hmethod _
      exact .node (.pure (.super hkind hdot hmethod))
    · exact .fail

end Operands

/-- A token that joins two operands of a layer is written for an operator of the layer. -/
theorem derives_join {layer : Layer} {ts us : List Token} {operator : Token} {left right : Expr}
    {join : Node → Expr → Expr → Expr} (id : Nat) (hjoin : layer.join? operator.kind = some join)
    (hleft : Derives layer ts left) (hright : Derives layer.tighter us right) :
    Derives layer (ts ++ operator :: us) (join ⟨id, operator.span⟩ left right) := by
  unfold Layer.join? at hjoin
  split at hjoin
  · rename_i op hop
    cases hjoin
    exact .binary hleft hop hright
  · rename_i op _ hop
    cases hjoin
    exact .logical hleft hop hright
  · cases hjoin

/-- What is written for an expression that can be the target of an assignment. -/
def WrittenTarget (ts : List Token) : Expr → Prop
  | .var target => ∃ name : Token, ts = [name] ∧ name.kind = .identifier ∧ target.name = name.ident
  | .get _ object property =>
      ∃ us dot name, ts = us ++ [dot, name] ∧ Derives .call us object ∧ dot.kind = .dot ∧
        name.kind = .identifier ∧ property = name.ident
  | _ => True

/-- Only an identifier is written for a variable, and only an access for a property. -/
theorem writtenTarget : ∀ {layer : Layer} {ts : List Token} {e : Expr},
    Derives layer ts e → WrittenTarget ts e
  | _, _, _, .tighter h => writtenTarget h
  | _, _, _, .variable hname => ⟨_, rfl, hname, rfl⟩
  | _, _, _, .get hobject hdot hname => ⟨_, _, _, rfl, hobject, hdot, hname, rfl⟩
  | _, _, _, .assign .. | _, _, _, .set .. | _, _, _, .binary .. | _, _, _, .logical ..
  | _, _, _, .unary .. | _, _, _, .call .. | _, _, _, .group .. | _, _, _, .literal ..
  | _, _, _, .this .. | _, _, _, .super .. => trivial

/-- What stands on the left of an equals sign is made an assignment only if it is a target. -/
theorem yields_assignTo (left value : Expr) {equals : Token} (hequals : equals.kind = .equal)
    (s : ParseState) :
    Yields (assignTo left equals.span value) (fun vs e _ =>
      ∀ ts us, Derives .disjunction ts left → Derives .assignment us value →
        Derives .assignment (ts ++ equals :: (us ++ vs)) e) s := by
  unfold assignTo
  split
  · refine .reference (.pure ?_)
    intro ts us hleft hvalue
    rcases writtenTarget hleft with ⟨name, rfl, hname, htarget⟩
    rw [List.append_nil, htarget]
    exact .assign hname hequals hvalue
  · refine .node (.pure ?_)
    intro ts us hleft hvalue
    rcases writtenTarget hleft with ⟨vs, dot, name, rfl, hobject, hdot, hname, rfl⟩
    rw [List.append_nil, List.append_assoc]
    exact .set hobject hdot hname hequals hvalue
  · -- Anything else leaves a mistake behind.
    intro e t hrun herrors
    cases hrun
    simp [ParseState.record] at herrors

/-! ## Layers -/

/-- Operands that are read in a row are joined from the left to the right. -/
theorem yields_chain {layer : Layer} {operand : Parse Expr} {c enough : Nat}
    (hoperand : ∀ t, Yields operand (fun ts e _ =>
      16 * t.rest.length + c ≤ enough → Derives layer.tighter ts e) t) (fuel : Nat) :
    ∀ left s, Yields (Descent.chain layer operand fuel left) (fun ts e _ =>
      16 * s.rest.length + c ≤ enough →
        ∀ before, Derives layer before left → Derives layer (before ++ ts) e) s := by
  induction fuel with
  | zero =>
      intro left s
      refine .pure ?_
      intro _ before hbefore
      rw [List.append_nil]
      exact hbefore
  | succ fuel ih =>
      intro left s
      rw [Descent.chain]
      refine .peek ?_
      cases hjoin : layer.join? s.current.kind with
      | none =>
          refine .pure ?_
          intro _ before hbefore
          rw [List.append_nil]
          exact hbefore
      | some join =>
          have hrest : s.rest ≠ [] := by
            intro hnil
            rw [ParseState.current, hnil] at hjoin
            cases layer <;> cases hjoin
          refine .advance hrest ?_
          intro hnext
          refine (hoperand s.next).bind ?_
          intro right t
          refine .node ((ih _ _).mono ?_)
          intro us e _ hrest us₁ hlength hright henough before hbefore
          -- What has been read so far becomes the left operand of what follows.
          have hjoined := derives_join t.nextId hjoin hbefore (hright (by omega))
          have hlonger := hrest (show 16 * t.rest.length + c ≤ enough by omega) _ hjoined
          rw [List.append_assoc] at hlonger
          exact hlonger

/-- What reading layer by layer gives with some amount of fuel, if it is enough for the tokens that are
left. -/
structure LayersYield (fuel : Nat) : Prop where
  read : ∀ layer s, Yields (Descent.read fuel layer) (fun ts e _ =>
    16 * s.rest.length + layer.depth ≤ fuel → Derives layer ts e) s
  suffixes : ∀ left s, Yields (Descent.suffixes fuel left) (fun ts e _ =>
    16 * s.rest.length + 1 ≤ fuel →
      ∀ before, Derives .call before left → Derives .call (before ++ ts) e) s
  arguments : ∀ s, Yields (Descent.arguments fuel) (fun ts values _ =>
    16 * s.rest.length + 12 ≤ fuel → Arguments ts values) s
  moreArguments : ∀ count s, Yields (Descent.moreArguments fuel count) (fun ts values _ =>
    16 * s.rest.length + 11 ≤ fuel →
      ArgumentList ts values ∧ count + values.length ≤ maxArguments) s

section Step

variable {fuel : Nat} (ih : LayersYield fuel)

include ih

theorem yields_read_assignment (s : ParseState) :
    Yields (Descent.read (fuel + 1) .assignment) (fun ts e _ =>
      16 * s.rest.length + 10 ≤ fuel + 1 → Derives .assignment ts e) s := by
  rw [Descent.read_assigns]
  refine (ih.read .disjunction s).bind ?_
  intro left t
  refine .peek ?_
  by_cases hequals : t.current.kind = .equal
  · rw [if_pos hequals]
    refine .advance (ne_nil_of_kind (by decide) hequals) ?_
    intro hnext
    refine (ih.read .assignment t.next).bind ?_
    intro value w
    refine (yields_assignTo left value hequals w).mono ?_
    intro vs e _ hassign us hlength₂ hvalue ts hlength₁ hleft hfuel
    refine hassign ts us (hleft ?_) (hvalue ?_) <;> simp only [Layer.depth] <;> omega
  · rw [if_neg hequals]
    refine .pure ?_
    intro ts _ hleft hfuel
    rw [List.append_nil]
    exact .tighter (hleft (by simp only [Layer.depth]; omega))

theorem yields_read_unary (s : ParseState) :
    Yields (Descent.read (fuel + 1) .unary) (fun ts e _ =>
      16 * s.rest.length + 3 ≤ fuel + 1 → Derives .unary ts e) s := by
  rw [Descent.read]
  refine .peek ?_
  cases hop : UnaryOp.ofKind? s.current.kind with
  | some op =>
      have hrest : s.rest ≠ [] := by
        intro hnil
        rw [ParseState.current, hnil] at hop
        cases hop
      refine .advance hrest ?_
      intro hnext
      refine (ih.read .unary s.next).bind ?_
      intro inner t
      refine .node (.pure ?_)
      intro ts hlength hinner hfuel
      rw [List.append_nil]
      exact .unary hop (hinner (by simp only [Layer.depth]; omega))
  | none =>
      refine (ih.read .call s).mono ?_
      intro ts e _ he hfuel
      exact .tighter (he (by simp only [Layer.depth]; omega))

theorem yields_read_call (s : ParseState) :
    Yields (Descent.read (fuel + 1) .call) (fun ts e _ =>
      16 * s.rest.length + 2 ≤ fuel + 1 → Derives .call ts e) s := by
  rw [Descent.read]
  refine (ih.read .primary s).bind ?_
  intro callee t
  refine (ih.suffixes callee t).mono ?_
  intro us e _ he ts hlength hcallee hfuel
  exact he (by omega) ts (.tighter (hcallee (by simp only [Layer.depth]; omega)))

theorem yields_read_primary (s : ParseState) :
    Yields (Descent.read (fuel + 1) .primary) (fun ts e _ =>
      16 * s.rest.length + 1 ≤ fuel + 1 → Derives .primary ts e) s := by
  rw [Descent.read]
  refine .peek ?_
  by_cases hopening : s.current.kind = .leftParen
  · rw [if_pos hopening]
    refine .advance (ne_nil_of_kind (by decide) hopening) ?_
    intro hnext
    refine (ih.read .assignment s.next).bind ?_
    intro inner t
    refine .expect (by decide) ?_
    intro closing w hclosing _
    refine .node (.pure ?_)
    intro ts hlength hinner hfuel
    exact .group hopening (hinner (by simp only [Layer.depth]; omega)) hclosing
  · rw [if_neg hopening]
    exact (yields_atom s).mono fun _ _ _ he _ => he

theorem yields_read_joins {layer : Layer} (hjoins : layer.joins = true) (s : ParseState) :
    Yields (Descent.read (fuel + 1) layer) (fun ts e _ =>
      16 * s.rest.length + layer.depth ≤ fuel + 1 → Derives layer ts e) s := by
  have hdepth := Layer.depth_tighter hjoins
  rw [Descent.read_joins hjoins]
  refine (ih.read layer.tighter s).bind ?_
  intro left t
  refine (yields_chain (ih.read layer.tighter) fuel left t).mono ?_
  intro us e _ he ts hlength hleft hfuel
  exact he (by omega) ts (.tighter (hleft (by omega)))

theorem yields_read (layer : Layer) (s : ParseState) :
    Yields (Descent.read (fuel + 1) layer) (fun ts e _ =>
      16 * s.rest.length + layer.depth ≤ fuel + 1 → Derives layer ts e) s := by
  cases layer with
  | assignment => exact yields_read_assignment ih s
  | unary => exact yields_read_unary ih s
  | call => exact yields_read_call ih s
  | primary => exact yields_read_primary ih s
  | _ => exact yields_read_joins ih rfl s

theorem yields_suffixes (left : Expr) (s : ParseState) :
    Yields (Descent.suffixes (fuel + 1) left) (fun ts e _ =>
      16 * s.rest.length + 1 ≤ fuel + 1 →
        ∀ before, Derives .call before left → Derives .call (before ++ ts) e) s := by
  rw [Descent.suffixes]
  refine .peek ?_
  split
  · rename_i hopening
    refine .advance (ne_nil_of_kind (by decide) hopening) ?_
    intro hnext
    refine (ih.arguments s.next).bind ?_
    intro values t
    refine .expect (by decide) ?_
    intro closing w hclosing hlength'
    refine .node ((ih.suffixes _ _).mono ?_)
    intro us e _ he ts hlength hvalues hfuel before hbefore
    have hcall : Derives .call _ (.call ⟨w.nextId, closing.span⟩ left values) :=
      .call hbefore hopening (hvalues (by omega)) hclosing
    have hlonger := he (show 16 * w.rest.length + 1 ≤ fuel by omega) _ hcall
    simpa using hlonger
  · rename_i hdot
    refine .advance (ne_nil_of_kind (by decide) hdot) ?_
    intro hnext
    refine .ident ?_
    intro name t hname hlength
    refine .node ((ih.suffixes _ _).mono ?_)
    intro us e _ he hfuel before hbefore
    have hget : Derives .call _ (.get t.nextId left name.ident) := .get hbefore hdot hname
    have hlonger := he (show 16 * t.rest.length + 1 ≤ fuel by omega) _ hget
    simpa using hlonger
  · refine .pure ?_
    intro _ before hbefore
    rw [List.append_nil]
    exact hbefore

theorem yields_arguments (s : ParseState) :
    Yields (Descent.arguments (fuel + 1)) (fun ts values _ =>
      16 * s.rest.length + 12 ≤ fuel + 1 → Arguments ts values) s := by
  rw [Descent.arguments]
  refine .check (.ite ?_ ?_)
  · intro _
    exact .pure fun _ => .none
  · intro _
    refine (ih.moreArguments 0 s).mono ?_
    intro ts values _ hvalues hfuel
    rcases hvalues (by omega) with ⟨hlist, hcount⟩
    exact .some hlist (by omega)

theorem yields_moreArguments (count : Nat) (s : ParseState) :
    Yields (Descent.moreArguments (fuel + 1) count) (fun ts values _ =>
      16 * s.rest.length + 11 ≤ fuel + 1 →
        ArgumentList ts values ∧ count + values.length ≤ maxArguments) s := by
  rw [Descent.moreArguments]
  refine .limit ?_
  intro t hrest
  refine (ih.read .assignment t).bind ?_
  intro first w
  refine .accept (by decide) ?_ ?_
  · intro hcomma hlength'
    rw [if_pos rfl]
    refine .andReturn ((ih.moreArguments (count + 1) w.next).mono ?_)
    intro us others _ hothers ts hlength hfirst hcount hfuel
    rw [hrest] at hlength hfirst
    rcases hothers (by omega) with ⟨hlist, htotal⟩
    refine ⟨.more (hfirst ?_) hcomma hlist, ?_⟩
    · simp only [Layer.depth]
      omega
    · rw [List.length_cons]
      omega
  · intro _
    refine .pure ?_
    intro ts hlength hfirst hcount hfuel
    rw [List.append_nil]
    exact ⟨.one (hfirst (by rw [hrest]; simp only [Layer.depth]; omega)), hcount⟩

end Step

theorem layersYield (fuel : Nat) : LayersYield fuel := by
  induction fuel with
  | zero =>
      refine ⟨?_, ?_, ?_, ?_⟩
      · intro layer s
        rw [Descent.read]
        exact .fail
      · intro left s
        exact .pure fun hfuel => absurd hfuel (by omega)
      · intro s
        exact .pure fun hfuel => absurd hfuel (by omega)
      · intro count s
        exact .pure fun hfuel => absurd hfuel (by omega)
  | succ fuel ih =>
      exact ⟨yields_read ih, yields_suffixes ih, yields_arguments ih, yields_moreArguments ih⟩

/-- An expression that is read without mistakes is one of the grammar. -/
theorem yields_expression (s : ParseState) :
    Yields expression (fun ts e _ => Expression ts e) s := by
  have henough : 16 * s.rest.length + Layer.assignment.depth ≤ 16 * (s.rest.length + 1) := by
    simp only [Layer.depth]
    omega
  intro e t hrun
  -- The layers are those of the grammar, so the expression is read layer by layer instead.
  rw [← Descent.read_eq_expression _ s (Nat.le_refl _)] at hrun
  exact ((layersYield _).read .assignment s).mono (fun _ _ _ he => he henough) e t hrun

end Parse

end Lox
