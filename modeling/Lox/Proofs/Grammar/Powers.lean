import Lox.Proofs.Rereading.Text

/-!
# Expressions read by powers

What reading by the powers of operators does, apart from how much fuel it is given: there is one
equation for each step.

* `Parse.pratt` reads an expression whose operators bind with at least a given power. Its equations
  are `Parse.pratt_eq`, `Parse.continued_stop`, `Parse.continued_step` and, for each way to go on,
  one such as `Parse.followed_binary`.
* `Parse.Loose` says that the token at hand does not go on an expression, and `Parse.loose_continued`
  that reading always stops at such a token.
* `Parse.continued_split`: reading up to a weaker operator and then going on is reading in one go.
-/

namespace Lox

namespace Parse

variable {α β : Type}

/-! ## Steps at one state -/

theorem bind_apply (p : Parse α) (f : α → Parse β) (s : ParseState) :
    (p >>= f) s =
      match p s with
      | .ok a t => f a t
      | .error e t => .error e t := by
  change EStateM.bind p f s = _
  unfold EStateM.bind
  cases p s <;> rfl

/-- An assignment is made where its value ends. -/
theorem current_of_assignTo {target value e : Expr} {equals : Span} {s t : ParseState}
    (h : assignTo target equals value s = .ok e t) : t.current = s.current := by
  cases target <;> cases h <;> rfl

/-- Two steps that are put together do the same if both of their parts do. -/
theorem bind_congr {p p' : Parse α} {f f' : α → Parse β} {s : ParseState} (hp : p s = p' s)
    (hf : ∀ a t, p s = .ok a t → f a t = f' a t) : (p >>= f) s = (p' >>= f') s := by
  rw [bind_apply, bind_apply, ← hp]
  cases hrun : p s with
  | ok a t => exact hf a t hrun
  | error e t => rfl

/-- What follows a step that gives a result. -/
theorem bind_of_ok {p : Parse α} (f : α → Parse β) {s t : ParseState} {a : α}
    (h : p s = .ok a t) : (p >>= f) s = f a t := by
  rw [bind_apply, h]

/-- Looking at the token at hand changes nothing. -/
theorem peek_bind (f : Token → Parse β) (s : ParseState) : (peek >>= f) s = f s.current s :=
  bind_of_ok f rfl

/-- Passing the token at hand leads to the next one. -/
theorem advance_bind (f : Token → Parse β) (s : ParseState) :
    (advance >>= f) s = f s.current s.next :=
  bind_of_ok f rfl

theorem ite_apply_congr {b : Bool} {p p' q q' : Parse α} {s : ParseState}
    (hp : b = true → p s = p' s) (hq : b = false → q s = q' s) :
    (if b then p else q) s = (if b then p' else q') s := by
  cases b with
  | false => exact hq rfl
  | true => exact hp rfl

theorem length_next (s : ParseState) : s.next.rest.length ≤ s.rest.length := by
  simp [ParseState.next]

theorem rest_of_limit {cause : SyntaxCause} {count : Nat} {s t : ParseState}
    (h : limit cause count s = .ok () t) : t.rest = s.rest := by
  unfold limit at h
  split at h <;> cases h <;> rfl

theorem length_of_accept {kind : Kind} {b : Bool} {s t : ParseState}
    (h : accept kind s = .ok b t) : t.rest.length ≤ s.rest.length := by
  unfold accept at h
  split at h
  · cases h
    exact length_next s
  · cases h
    exact Nat.le_refl _

theorem eq_of_node {span : Span} {number : Node} {s t : ParseState}
    (h : node span s = .ok number t) :
    number = ⟨s.nextId, span⟩ ∧ t = { s with nextId := s.nextId + 1 } := by
  cases h
  exact ⟨rfl, rfl⟩

theorem rest_of_node {span : Span} {number : Node} {s t : ParseState}
    (h : node span s = .ok number t) : t.rest = s.rest := by
  rw [(eq_of_node h).2]

theorem eq_of_expect {kind : Kind} {what : Expectation} {a : Token} {s t : ParseState}
    (h : expect kind what s = .ok a t) : s.current.kind = kind ∧ a = s.current ∧ t = s.next := by
  unfold expect at h
  split at h
  · rename_i hkind
    cases h
    exact ⟨by simpa using hkind, rfl, rfl⟩
  · cases h

theorem eq_of_ident {what : Expectation} {name : Ident} {s t : ParseState}
    (h : ident what s = .ok name t) :
    s.current.kind = .identifier ∧ name = ⟨s.current.lexeme, s.current.span⟩ ∧ t = s.next := by
  rw [ident, bind_apply] at h
  cases hexpect : expect .identifier what s with
  | error e w =>
      rw [hexpect] at h
      cases h
  | ok token w =>
      rw [hexpect] at h
      rcases eq_of_expect hexpect with ⟨hkind, rfl, rfl⟩
      cases h
      exact ⟨hkind, rfl, rfl⟩

/-! ## Enough fuel -/

/-- How much fuel a step is given makes no difference, if it is enough for the tokens that are left.
If there is a result, `u` tokens at least are used up. -/
structure Steady (step : Nat → Parse α) (c u : Nat) : Prop where
  eq : ∀ {fuel s}, 8 * s.rest.length + c ≤ fuel → step fuel s = fuelled step s
  passes : ∀ {s a t}, fuelled step s = .ok a t → s.Passes u t

/-- A step is steady if it does the same when it is taken again with other fuel. -/
theorem Steady.of_repeats {step : Nat → Parse α} {c u : Nat} {g : α → α} (hg : ∀ a, g a = a)
    (hc : c ≤ 8) (h : ∀ stop n fuel fuel', 8 * n + c ≤ min fuel fuel' →
      Repeats (.same stop) False n u false g (step fuel) (step fuel')) : Steady step c u := by
  -- A state and itself are a case of two texts that are read alike.
  have hagree : ∀ (s : ParseState) (fuel : Nat), 8 * s.rest.length + c ≤ fuel →
      Agree (.same s.finish) u false g s (fuelled step s) (step fuel s) := by
    intro s fuel hfuel
    have hmin : 8 * s.rest.length + c ≤ min s.fuel fuel := by
      simp only [ParseState.fuel]
      omega
    exact h s.finish s.rest.length s.fuel fuel hmin s s (Rereading.matches_same s)
      (Nat.zero_le _) (Nat.le_refl _) False.elim
  refine ⟨?_, ?_⟩
  · intro fuel s hfuel
    have hboth := hagree s fuel hfuel
    revert hboth
    cases fuelled step s with
    | ok a t =>
        intro hboth
        rcases hboth.2 (.inl trivial) with ⟨t', hrun, ht⟩
        rw [hrun, hg, Rereading.eq_of_matches_same ht]
    | error e t =>
        intro hboth
        rcases hboth.2 trivial with ⟨t', hrun, ht⟩
        rw [hrun, Rereading.eq_of_matches_same ht]
        rfl
  · intro s a t hrun
    have hboth := hagree s (8 * s.rest.length + c) (Nat.le_refl _)
    rw [hrun] at hboth
    exact hboth.1

section Steps

variable (least count : Nat) (left : Expr) (place : Span) (follow : Follow)

theorem relabel_same (stop : Nat) (e : Expr) : e.relabel (Rereading.same stop).change = e :=
  Expr.relabel_printing [] e

theorem relabelAll_same (stop : Nat) (es : List Expr) :
    Expr.relabelAll (Rereading.same stop).change es = es :=
  Expr.relabelAll_printing [] es

theorem steady_expressionAt : Steady (fun fuel => expressionAt fuel least) 2 1 := by
  refine .of_repeats (relabel_same 0) (by decide) ?_
  intro stop n fuel fuel' hfuel
  exact (repeatsExpressions _ fuel fuel').expressionAt least hfuel

theorem steady_operand : Steady operand 1 1 := by
  refine .of_repeats (relabel_same 0) (by decide) ?_
  intro stop n fuel fuel' hfuel
  exact (repeatsExpressions _ fuel fuel').operand hfuel

theorem steady_continueFrom : Steady (fun fuel => continueFrom fuel least left) 1 0 := by
  refine .of_repeats (relabel_same 0) (by decide) ?_
  intro stop n fuel fuel' hfuel
  have h := (repeatsExpressions (.same stop) fuel fuel').continueFrom least left hfuel
  rwa [relabel_same] at h

theorem steady_followOperand : Steady (fun fuel => followOperand fuel left place follow) 5 0 := by
  refine .of_repeats (relabel_same 0) (by decide) ?_
  intro stop n fuel fuel' hfuel
  have h := (repeatsExpressions (.same stop) fuel fuel').followOperand left place follow hfuel
  rwa [relabel_same] at h

theorem steady_arguments : Steady arguments 4 0 := by
  refine .of_repeats (relabelAll_same 0) (by decide) ?_
  intro stop n fuel fuel' hfuel
  exact (repeatsExpressions _ fuel fuel').arguments hfuel

theorem steady_moreArguments : Steady (fun fuel => moreArguments fuel count) 3 0 := by
  refine .of_repeats (relabelAll_same 0) (by decide) ?_
  intro stop n fuel fuel' hfuel
  exact (repeatsExpressions _ fuel fuel').moreArguments count hfuel

end Steps

/-! ## Reading by powers -/

/-- Reads an expression whose operators all bind with at least the power `least`. -/
def pratt (least : Nat) : Parse Expr :=
  fuelled fun fuel => expressionAt fuel least

/-- Reads what follows an operand, as far as it binds with at least the power `least`. -/
def continued (least : Nat) (left : Expr) : Parse Expr :=
  fuelled fun fuel => continueFrom fuel least left

/-- Reads the rest of an expression whose operand and operator have been passed. -/
def followed (left : Expr) (place : Span) (follow : Follow) : Parse Expr :=
  fuelled fun fuel => followOperand fuel left place follow

/-- Reads one argument behind `count` others, and those that follow it. -/
def argumentsFrom (count : Nat) : Parse (List Expr) :=
  fuelled fun fuel => moreArguments fuel count

theorem expression_eq_pratt : expression = pratt 0 :=
  rfl

/-- The token at hand does not go on an expression, or it binds with less than the power `least`. -/
def Loose (least : Nat) (s : ParseState) : Prop :=
  ∀ follow, Follow.ofKind? s.current.kind = some follow → follow.leftPower < least

theorem loose_or_follows (least : Nat) (s : ParseState) :
    Loose least s ∨
      ∃ follow, Follow.ofKind? s.current.kind = some follow ∧ least ≤ follow.leftPower := by
  by_cases h : Loose least s
  · exact .inl h
  · refine .inr ?_
    simpa [Loose] using h

section Equations

variable {s : ParseState}

theorem pratt_eq (least : Nat) : pratt least s = (fuelled operand >>= continued least) s := by
  rw [pratt, fuelled_succ, expressionAt]
  refine bind_congr (steady_operand.eq (by omega)) ?_
  intro left t hrun
  rw [steady_operand.eq (by omega)] at hrun
  have hlength := (steady_operand.passes hrun).length
  exact (steady_continueFrom least left).eq (by omega)

theorem operand_unary {op : UnaryOp} (h : UnaryOp.ofKind? s.current.kind = some op) :
    fuelled operand s = (do
      let inner ← pratt UnaryOp.power
      return .unary (← node s.current.span) op inner : Parse Expr) s.next := by
  have hnext := length_next s
  rw [fuelled_succ, operand, peek_bind]
  simp only [h]
  rw [advance_bind]
  exact bind_congr ((steady_expressionAt _).eq (by omega)) fun _ _ _ => rfl

theorem operand_group (h : s.current.kind = .leftParen) :
    fuelled operand s = (do
      let inner ← pratt 0
      let _ ← expect .rightParen .closeGroup
      return .group (← node s.current.span) inner : Parse Expr) s.next := by
  have hnext := length_next s
  rw [fuelled_succ, operand, peek_bind]
  simp only [h, UnaryOp.ofKind?]
  rw [advance_bind]
  exact bind_congr ((steady_expressionAt _).eq (by omega)) fun _ _ _ => rfl

theorem operand_atom (hop : UnaryOp.ofKind? s.current.kind = none)
    (hparen : s.current.kind ≠ .leftParen) : fuelled operand s = atom s.current s := by
  rw [fuelled_succ, operand, peek_bind]
  refine congrFun ?_ s
  split
  · rename_i hsome
    rw [hop] at hsome
    cases hsome
  · rename_i hkind
    exact absurd hkind hparen
  · rfl

theorem continued_stop {least : Nat} (left : Expr) (h : Loose least s) :
    continued least left s = .ok left s := by
  rw [continued, fuelled_succ, continueFrom, peek_bind]
  cases hfollow : Follow.ofKind? s.current.kind with
  | none =>
      rfl
  | some follow =>
      simp only [if_pos (h follow hfollow)]
      rfl

theorem length_next_of_follow {follow : Follow}
    (h : Follow.ofKind? s.current.kind = some follow) :
    s.next.rest.length + 1 ≤ s.rest.length := by
  refine (ParseState.Passes.next ?_).length
  intro hnil
  rw [ParseState.current, hnil] at h
  cases h

theorem continued_step {least : Nat} (left : Expr) {follow : Follow}
    (hfollow : Follow.ofKind? s.current.kind = some follow) (h : least ≤ follow.leftPower) :
    continued least left s =
      (followed left s.current.span follow >>= continued least) s.next := by
  have hlength := length_next_of_follow hfollow
  rw [continued, fuelled_succ, continueFrom, peek_bind]
  simp only [hfollow, if_neg (Nat.not_lt.mpr h)]
  rw [advance_bind]
  refine bind_congr ((steady_followOperand left _ follow).eq (by omega)) ?_
  intro longer t hrun
  rw [(steady_followOperand left _ follow).eq (by omega)] at hrun
  have hlength' := ((steady_followOperand left _ follow).passes hrun).length
  exact (steady_continueFrom least longer).eq (by omega)

/-! ## What follows an operand -/

theorem followed_call (left : Expr) (place : Span) :
    followed left place .call s = (do
      let values ← fuelled arguments
      let close ← expect .rightParen .closeArguments
      return .call (← node close.span) left values : Parse Expr) s := by
  rw [followed, fuelled_succ, followOperand]
  exact bind_congr (steady_arguments.eq (by omega)) fun _ _ _ => rfl

theorem followed_access (left : Expr) (place : Span) :
    followed left place .access s = (do
      let name ← ident .propertyName
      return .get (← node name.span).id left name : Parse Expr) s := by
  rw [followed, fuelled_succ, followOperand]

theorem followed_binary (left : Expr) (place : Span) (op : BinaryOp) :
    followed left place (.binary op) s = (do
      let right ← pratt (op.power + 1)
      return .binary (← node place) op left right : Parse Expr) s := by
  rw [followed, fuelled_succ, followOperand]
  exact bind_congr ((steady_expressionAt _).eq (by omega)) fun _ _ _ => rfl

theorem followed_logical (left : Expr) (place : Span) (op : LogicalOp) :
    followed left place (.logical op) s = (do
      let right ← pratt (op.power + 1)
      return .logical (← node place) op left right : Parse Expr) s := by
  rw [followed, fuelled_succ, followOperand]
  exact bind_congr ((steady_expressionAt _).eq (by omega)) fun _ _ _ => rfl

theorem followed_assign (left : Expr) (place : Span) :
    followed left place .assign s = (pratt 1 >>= assignTo left place) s := by
  rw [followed, fuelled_succ, followOperand]
  exact bind_congr ((steady_expressionAt _).eq (by omega)) fun _ _ _ => rfl

theorem arguments_eq :
    fuelled arguments s = (do
      if ← check .rightParen then return [] else argumentsFrom 0 : Parse (List Expr)) s := by
  rw [fuelled_succ, arguments]
  refine bind_congr rfl ?_
  intro closed t hcheck
  cases hcheck
  exact ite_apply_congr (fun _ => rfl) fun _ => (steady_moreArguments 0).eq (by omega)

theorem argumentsFrom_eq (count : Nat) :
    argumentsFrom count s = (do
      limit .tooManyArguments count
      let first ← pratt 0
      if ← accept .comma then
        let others ← argumentsFrom (count + 1)
        return first :: others
      else return [first] : Parse (List Expr)) s := by
  rw [argumentsFrom, fuelled_succ, moreArguments]
  refine bind_congr rfl ?_
  intro _ t₁ hlimit
  have hrest := rest_of_limit hlimit
  refine bind_congr ((steady_expressionAt 0).eq (by rw [hrest]; omega)) ?_
  intro first t₂ hfirst
  rw [(steady_expressionAt 0).eq (by rw [hrest]; omega)] at hfirst
  have hlength := ((steady_expressionAt 0).passes hfirst).length
  rw [hrest] at hlength
  refine bind_congr rfl ?_
  intro b t₃ haccept
  have hlength' := length_of_accept haccept
  refine ite_apply_congr (fun _ => ?_) fun _ => rfl
  exact bind_congr ((steady_moreArguments (count + 1)).eq (by omega)) fun _ _ _ => rfl

end Equations

/-! ## Where reading stops -/

section Stops

variable {s t : ParseState} {e left : Expr} {least higher : Nat}

/-- Going on with an operator uses up tokens. -/
theorem length_of_followed {follow : Follow} {longer : Expr}
    (hfollow : Follow.ofKind? s.current.kind = some follow)
    (hrun : followed left s.current.span follow s.next = .ok longer t) :
    t.rest.length < s.rest.length := by
  have hlength := ((steady_followOperand _ _ _).passes hrun).length
  have hnext := length_next_of_follow hfollow
  omega

/-- Reading stops only at a token that does not go on the expression. -/
theorem loose_continued (hrun : continued least left s = .ok e t) : Loose least t := by
  -- Each operator that is passed uses up tokens, so the induction is on how many are left.
  induction hn : s.rest.length using Nat.strongRecOn generalizing s left with
  | ind n ih =>
      rcases loose_or_follows least s with hloose | ⟨follow, hfollow, hle⟩
      · rw [continued_stop left hloose] at hrun
        cases hrun
        exact hloose
      · rw [continued_step left hfollow hle, bind_apply] at hrun
        cases hlonger : followed left s.current.span follow s.next with
        | error e w =>
            rw [hlonger] at hrun
            cases hrun
        | ok longer w =>
            rw [hlonger] at hrun
            have hlength := length_of_followed hfollow hlonger
            exact ih w.rest.length (by omega) hrun rfl

theorem loose_pratt (hrun : pratt least s = .ok e t) : Loose least t := by
  rw [pratt_eq, bind_apply] at hrun
  cases hleft : fuelled operand s with
  | error e w =>
      rw [hleft] at hrun
      cases hrun
  | ok left w =>
      rw [hleft] at hrun
      exact loose_continued hrun

/-- Reading up to a weaker operator and then going on is reading in one go. -/
theorem continued_split (h : least ≤ higher) (left : Expr) (s : ParseState) :
    continued least left s = (continued higher left >>= continued least) s := by
  induction hn : s.rest.length using Nat.strongRecOn generalizing s left with
  | ind n ih =>
      rcases loose_or_follows higher s with hloose | ⟨follow, hfollow, hle⟩
      · rw [bind_of_ok _ (continued_stop left hloose)]
      · -- An operator that binds tightly enough for one is passed by both.
        rw [continued_step left hfollow (Nat.le_trans h hle), bind_apply (continued higher left),
          continued_step left hfollow hle, bind_apply, bind_apply]
        cases hlonger : followed left s.current.span follow s.next with
        | error e w =>
            rfl
        | ok longer w =>
            have hlength := length_of_followed hfollow hlonger
            have hw : continued least longer w = (continued higher longer >>= continued least) w :=
              ih w.rest.length (by omega) longer w rfl
            rw [bind_apply] at hw
            exact hw

/-- Only the operators that bind with at least the power matter. -/
theorem continued_congr (h : ∀ follow : Follow, least ≤ follow.leftPower ↔ higher ≤ follow.leftPower) :
    continued least left s = continued higher left s := by
  induction hn : s.rest.length using Nat.strongRecOn generalizing s left with
  | ind n ih =>
      rcases loose_or_follows least s with hloose | ⟨follow, hfollow, hle⟩
      · have hloose' : Loose higher s := by
          intro follow hfollow
          have hlt := hloose follow hfollow
          have hiff := h follow
          omega
        rw [continued_stop left hloose, continued_stop left hloose']
      · rw [continued_step left hfollow hle, continued_step left hfollow ((h follow).mp hle)]
        refine bind_congr rfl ?_
        intro longer w hlonger
        have hlength := length_of_followed hfollow hlonger
        exact ih w.rest.length (by omega) rfl

theorem pratt_split (h : least ≤ higher) : pratt least s = (pratt higher >>= continued least) s := by
  rw [pratt_eq, bind_apply (pratt higher), pratt_eq, bind_apply, bind_apply]
  cases fuelled operand s with
  | error e w =>
      rfl
  | ok left w =>
      have hw := continued_split h left w
      rw [bind_apply] at hw
      exact hw

theorem pratt_congr (h : ∀ follow : Follow, least ≤ follow.leftPower ↔ higher ≤ follow.leftPower) :
    pratt least s = pratt higher s := by
  rw [pratt_eq, pratt_eq]
  exact bind_congr rfl fun _ _ _ => continued_congr h

end Stops

end Parse

end Lox
