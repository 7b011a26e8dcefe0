import Lox.Proofs.Spelling.Rules

/-!
# Expressions are added as they are written

Every expression that is read into an arena is spelled by the tokens that were passed for it, also one
that belongs to no statement in the end. What is read so far is carried along with its tokens, so that the
operator behind it can be told from the others.

Main statement: `Build.writes_expression`.
-/

namespace Lox

namespace Build

variable {ts us : List Token} {old : Arena} {limit fuel : Nat} {b : BuildState} {x value : Index}

/-- An expression that was read from the tokens `front` and those that have been passed since. -/
abbrev Spelled (front : List Token) (us : List Token) (x : Index) (b : BuildState) : Prop :=
  b.arena.Spells x (front ++ us)

/-- Arguments that were read from the tokens that have been passed. -/
abbrev SpelledArguments (us : List Token) (xs : List Index) (b : BuildState) : Prop :=
  b.arena.SpellsArguments xs us

theorem infix_of_suffix {front rest : List Token} (h : front ++ rest <:+ ts) : front <:+: ts :=
  (List.infix_append' [] front rest).trans h.isInfix

/-- What is read behind an operator stands behind it in the text. -/
theorem infix_of_operator {front rest : List Token} {operator : Token}
    (h : front ++ operator :: b.reading.rest <:+ ts) (hus : b.reading.rest = us ++ rest) :
    front ++ operator :: us <:+: ts := by
  have hall : (front ++ operator :: us) ++ rest <:+ ts := by
    rw [hus] at h
    simpa using h
  exact infix_of_suffix hall

theorem rest_ne_nil (h : b.reading.current.kind ≠ .eof) : b.reading.rest ≠ [] :=
  Parse.ne_nil_of_kind h rfl

/-- What stands alone is spelled by its tokens. -/
theorem writes_atom (ts : List Token) (old : Arena) (limit : Nat) (b : BuildState) :
    Writes ts old limit (atom b.reading.current) (Spelled []) b := by
  refine .given fun hb => ?_
  have hlimit := hb.load
  by_cases hrest : b.reading.rest = []
  · rw [ParseState.current, hrest]
    exact .fail
  · have hstretch : ∀ {front rest : List Token},
        b.reading.rest = front ++ rest → front <:+: ts := hb.infix_of_append
    have hcons := BuildState.rest_eq_cons hrest
    unfold atom
    split
    · rename_i value hvalue
      refine .advance hrest fun hload => ?_
      exact .pushSpelled [b.reading.current] (fun _ => rfl) (by omega) (hstretch hcons)
        fun c i _ hentry => .literal hentry hvalue
    · rename_i hkind
      refine .advance hrest fun hload => ?_
      exact .pushSpelled [b.reading.current] (fun _ => rfl) (by omega) (hstretch hcons)
        fun c i _ hentry => .var hentry hkind
    · rename_i hkind
      refine .advance hrest fun hload => ?_
      exact .pushSpelled [b.reading.current] (fun _ => rfl) (by omega) (hstretch hcons)
        fun c i _ hentry => .this hentry hkind
    · rename_i hkind
      refine .advance hrest fun hload => ?_
      refine .expect (by decide) ?_
      intro hdot _ hload₁
      refine .ident ?_
      intro hmethod _ hload₂
      have hrest₁ := BuildState.rest_eq_cons (Parse.ne_nil_of_kind (by decide) hdot)
      have hrest₂ := BuildState.rest_eq_cons (Parse.ne_nil_of_kind (by decide) hmethod)
      have hall : b.reading.rest = [b.reading.current, b.next.reading.current,
          b.next.next.reading.current] ++ b.next.next.next.reading.rest := by
        rw [hcons, hrest₁, hrest₂]
        rfl
      exact .pushSpelled [b.reading.current, b.next.reading.current, b.next.next.reading.current]
        (fun _ => rfl) (by omega) (hstretch hall) fun c i _ hentry => .super hentry hkind hdot hmethod
    · exact .fail

/-- A target is spelled by the same tokens when it has become an assignment. -/
theorem writes_assignTo {front vs : List Token} {equals : Token}
    (hequals : Follow.ofKind? equals.kind = some .assign) (hload : b.load + 1 ≤ limit)
    (htarget : b.arena.Spells x front) (hvalue : b.arena.Spells value vs)
    (hstretch : front ++ equals :: vs <:+: ts) :
    Writes ts old limit (assignTo x equals.span value) (Spelled (front ++ equals :: vs)) b := by
  rcases htarget.placed with ⟨entry, hentry, -, -⟩
  -- The target has a node, so looking it up does not fail.
  have hfound : ∀ {f : Option ExprEntry → Build Index},
      Writes ts old limit (f (some entry)) (Spelled (front ++ equals :: vs)) b →
        Writes ts old limit (expression? x >>= f) (Spelled (front ++ equals :: vs)) b := by
    intro f hnext
    rw [← hentry] at hnext
    exact hnext
  -- What is no target stays as it is, and the value is dropped.
  have hother : entry.node.isTarget = false →
      Writes ts old limit (do
          Build.read (Parse.record .invalidTarget equals.span)
          return x) (Spelled (front ++ equals :: vs)) b := by
    intro hnode
    refine .note (s := b.reading.record ⟨.invalidTarget, equals.span⟩) rfl rfl (.pure ?_)
    rw [Spelled, List.append_nil]
    exact .dropped hentry hnode htarget hequals hvalue
  unfold assignTo
  refine hfound ?_
  rcases entry with ⟨node, span⟩
  cases node with
  | var name =>
      rcases htarget.of_var hentry with ⟨t, rfl, ht, rfl⟩
      exact .pushSpelled _ (fun _ => rfl) hload hstretch
        fun c i hgrows hentry' => .assign hentry' ht hequals (hvalue.grows hgrows)
  | get object name =>
      rcases htarget.of_get hentry with ⟨us, dot, t, rfl, hobject, hdot, ht, rfl⟩
      rw [List.append_assoc] at hstretch ⊢
      exact .pushSpelled _ (fun _ => rfl) hload hstretch fun c i hgrows hentry' =>
        .set hentry' (hobject.grows hgrows) hdot ht hequals (hvalue.grows hgrows)
  | _ => exact hother rfl

/-- The steps that read expressions add what is written, if they are given fuel enough. -/
structure WritesExpressions (fuel : Nat) : Prop where
  expressionAt : ∀ {ts old limit b} least, 8 * b.reading.rest.length + 2 ≤ fuel →
    Writes ts old limit (expressionAt fuel least) (Spelled []) b
  operand : ∀ {ts old limit b}, 8 * b.reading.rest.length + 1 ≤ fuel →
    Writes ts old limit (operand fuel) (Spelled []) b
  continueFrom : ∀ {ts old limit b x front} least, 8 * b.reading.rest.length + 1 ≤ fuel →
    b.arena.Spells x front → front ++ b.reading.rest <:+ ts →
      Writes ts old limit (continueFrom fuel least x) (Spelled front) b
  followOperand : ∀ {ts old limit b x front operator follow}, 8 * b.reading.rest.length + 5 ≤ fuel →
    Follow.ofKind? operator.kind = some follow → b.arena.Spells x front →
      front ++ operator :: b.reading.rest <:+ ts → b.load + 1 ≤ limit →
        Writes ts old limit (followOperand fuel x operator.span follow)
          (Spelled (front ++ [operator])) b
  arguments : ∀ {ts old limit b}, 8 * b.reading.rest.length + 4 ≤ fuel →
    Writes ts old limit (arguments fuel) SpelledArguments b
  moreArguments : ∀ {ts old limit b} count, 8 * b.reading.rest.length + 3 ≤ fuel →
    Writes ts old limit (moreArguments fuel count)
      (fun us xs b' => xs ≠ [] ∧ SpelledArguments us xs b') b

section Step

variable (ih : WritesExpressions fuel)

include ih

theorem writes_expressionAt_succ (least : Nat)
    (hfuel : 8 * b.reading.rest.length + 2 ≤ fuel + 1) :
    Writes ts old limit (expressionAt (fuel + 1) least) (Spelled []) b := by
  refine .given fun hb => ?_
  rw [expressionAt]
  refine (ih.operand (by omega)).bind ?_
  intro us x b₁ _ _ hus hx
  have hlength := congrArg List.length hus
  have hpos : 0 < us.length := List.length_pos_iff.mpr hx.ne_nil
  rw [List.length_append] at hlength
  have hsuffix : us ++ b₁.reading.rest <:+ ts := hus ▸ hb.rest
  exact ih.continueFrom least (by omega) hx hsuffix

theorem writes_operand_succ (hfuel : 8 * b.reading.rest.length + 1 ≤ fuel + 1) :
    Writes ts old limit (operand (fuel + 1)) (Spelled []) b := by
  refine .given fun hb => ?_
  have hlimit := hb.load
  rw [operand]
  refine .peek ?_
  split
  · -- An operator before its operand.
    rename_i op hop
    have hrest : b.reading.rest ≠ [] := by
      refine rest_ne_nil ?_
      intro heof
      rw [heof] at hop
      cases hop
    have hlength := BuildState.length_rest_next hrest
    refine .advance hrest fun hload => ?_
    refine (ih.expressionAt _ (by omega)).bind ?_
    intro us inner b₁ hload₁ _ hus hinner
    have hall : b.reading.rest = (b.reading.current :: us) ++ b₁.reading.rest := by
      rw [BuildState.rest_eq_cons hrest, hus]
      rfl
    exact .pushSpelled (b.reading.current :: us) (fun _ => rfl) (by omega) (hb.infix_of_append hall)
      fun c i hgrows hentry => .unary hentry hop (hinner.grows hgrows)
  · -- A group.
    rename_i hkind
    have hrest := rest_ne_nil (b := b) (by simp [hkind])
    have hlength := BuildState.length_rest_next hrest
    refine .advance hrest fun hload => ?_
    refine (ih.expressionAt _ (by omega)).bind ?_
    intro us inner b₁ hload₁ _ hus hinner
    refine .expect (by decide) ?_
    intro hclosing _ hload₂
    have hrest₁ := BuildState.rest_eq_cons (Parse.ne_nil_of_kind (by decide) hclosing)
    have hall : b.reading.rest =
        (b.reading.current :: (us ++ [b₁.reading.current])) ++ b₁.next.reading.rest := by
      rw [BuildState.rest_eq_cons hrest, hus, hrest₁]
      simp
    exact .pushSpelled _ (by simp) (by omega) (hb.infix_of_append hall)
      fun c i hgrows hentry => .group hentry hkind (hinner.grows hgrows) hclosing
  · exact writes_atom ts old limit b

theorem writes_continueFrom_succ {front : List Token} (least : Nat)
    (hfuel : 8 * b.reading.rest.length + 1 ≤ fuel + 1) (hx : b.arena.Spells x front)
    (hsuffix : front ++ b.reading.rest <:+ ts) :
    Writes ts old limit (continueFrom (fuel + 1) least x) (Spelled front) b := by
  have hstop : Writes ts old limit (pure x) (Spelled front) b := by
    refine .pure ?_
    rw [Spelled, List.append_nil]
    exact hx
  refine .given fun hb => ?_
  have hlimit := hb.load
  rw [continueFrom]
  refine .peek ?_
  cases hfollow : Follow.ofKind? b.reading.current.kind with
  | none =>
      exact hstop
  | some follow =>
      dsimp only
      split
      · exact hstop
      · have hrest : b.reading.rest ≠ [] := by
          refine rest_ne_nil ?_
          intro heof
          rw [heof] at hfollow
          cases hfollow
        have hlength := BuildState.length_rest_next hrest
        rw [BuildState.rest_eq_cons hrest] at hsuffix
        refine .advance hrest fun hload => ?_
        refine .bindWithin (Nat.le_add_right _ 1) (by omega)
          (ih.followOperand (b := b.next) (by omega) hfollow hx hsuffix (Nat.le_refl _)) ?_
        intro us y b₁ _ _ hus hy
        have hlength₁ := congrArg List.length hus
        rw [List.length_append] at hlength₁
        -- The longer expression takes the place of the first one.
        have hfront : front ++ [b.reading.current] ++ us ++ b₁.reading.rest <:+ ts := by
          rw [hus] at hsuffix
          simpa using hsuffix
        refine (ih.continueFrom least (by omega) hy hfront).mono ?_
        intro vs z b' _ hz
        simpa [Spelled] using hz

/-- An operator between two expressions: the second one is read up to what binds less. -/
theorem writes_right {front : List Token} {operator : Token} {least : Nat} {node : Index → ExprNode}
    (hfuel : 8 * b.reading.rest.length + 2 ≤ fuel)
    (hsuffix : front ++ operator :: b.reading.rest <:+ ts) (hload : b.load + 1 ≤ limit)
    (hnode : ∀ (c : Arena) (i y : Index) (us : List Token), b.arena.Grows c →
      c.expressions[i.toNat]? = some ⟨node y, operator.span⟩ → c.Spells y us →
        c.Spells i (front ++ operator :: us)) :
    Writes ts old limit (do
        let right ← expressionAt fuel least
        pushExpression (node right) operator.span) (Spelled (front ++ [operator])) b := by
  refine (ih.expressionAt _ hfuel).bind ?_
  intro us y b₁ hload₁ hgrows₁ hus hy
  exact .pushSpelled _ (by simp) (by omega) (infix_of_operator hsuffix hus) fun c i hgrows hentry =>
    hnode c i y us (hgrows₁.trans hgrows) hentry (hy.grows hgrows)

theorem writes_followOperand_succ {front : List Token} {operator : Token} {follow : Follow}
    (hfuel : 8 * b.reading.rest.length + 5 ≤ fuel + 1)
    (hfollow : Follow.ofKind? operator.kind = some follow) (hx : b.arena.Spells x front)
    (hsuffix : front ++ operator :: b.reading.rest <:+ ts) (hload : b.load + 1 ≤ limit) :
    Writes ts old limit (followOperand (fuel + 1) x operator.span follow)
      (Spelled (front ++ [operator])) b := by
  cases follow with
  | call =>
      rw [followOperand]
      refine (ih.arguments (by omega)).bind ?_
      intro us values b₁ hload₁ hgrows₁ hus hvalues
      refine .expect (by decide) ?_
      intro hclosing _ hload₂
      have hrest₁ := BuildState.rest_eq_cons (Parse.ne_nil_of_kind (by decide) hclosing)
      have hall : b.reading.rest = (us ++ [b₁.reading.current]) ++ b₁.next.reading.rest := by
        rw [hus, hrest₁]
        simp
      have hstretch := infix_of_operator hsuffix hall
      exact .pushSpelled _ (by simp) (by omega) hstretch fun c i hgrows hentry =>
        .call hentry (hx.grows (hgrows₁.trans hgrows)) hfollow (hvalues.grows hgrows) hclosing
  | access =>
      rw [followOperand]
      refine .ident ?_
      intro hname _ hload₁
      have hcons := BuildState.rest_eq_cons (Parse.ne_nil_of_kind (by decide) hname)
      have hstretch : front ++ [operator, b.reading.current] <:+: ts := infix_of_operator hsuffix hcons
      exact .pushSpelled _ (by simp) (by omega) hstretch fun c i hgrows hentry =>
        .get hentry (hx.grows hgrows) hfollow hname
  | binary op =>
      rw [followOperand]
      exact writes_right ih (by omega) hsuffix hload fun c i y us hgrows hentry hy =>
        .binary hentry (hx.grows hgrows) hfollow hy
  | logical op =>
      rw [followOperand]
      exact writes_right ih (by omega) hsuffix hload fun c i y us hgrows hentry hy =>
        .logical hentry (hx.grows hgrows) hfollow hy
  | assign =>
      rw [followOperand]
      refine (ih.expressionAt _ (by omega)).bind ?_
      intro us y b₁ hload₁ hgrows₁ hus hy
      have hstretch := infix_of_operator hsuffix hus
      refine (writes_assignTo hfollow (by omega) (hx.grows hgrows₁) hy hstretch).mono ?_
      intro vs i b' _ hi
      simpa [Spelled] using hi

theorem writes_arguments_succ (hfuel : 8 * b.reading.rest.length + 4 ≤ fuel + 1) :
    Writes ts old limit (arguments (fuel + 1)) SpelledArguments b := by
  rw [arguments]
  refine .check (.ite ?_ ?_)
  · intro _
    exact .pure .none
  · intro _
    refine (ih.moreArguments 0 (by omega)).mono ?_
    intro us xs b' _ hxs
    exact hxs.2

theorem writes_moreArguments_succ (count : Nat)
    (hfuel : 8 * b.reading.rest.length + 3 ≤ fuel + 1) :
    Writes ts old limit (moreArguments (fuel + 1) count)
      (fun us xs b' => xs ≠ [] ∧ SpelledArguments us xs b') b := by
  rw [moreArguments]
  refine .counted ?_
  intro s hs
  refine (ih.expressionAt 0 (by dsimp only; rw [hs]; omega)).bind ?_
  intro us x b₁ _ _ hus hx
  dsimp only at hus
  rw [hs] at hus
  have hlength := congrArg List.length hus
  rw [List.length_append] at hlength
  refine .accept (by decide) ?_ ?_
  · intro hcomma _
    have hlength₁ := BuildState.length_rest_next (Parse.ne_nil_of_kind (by decide) hcomma)
    rw [if_pos rfl]
    refine (ih.moreArguments (count + 1) (by omega)).bind ?_
    intro vs xs b₂ _ hgrows₂ _ hxs
    refine .pure ⟨List.cons_ne_nil _ _, ?_⟩
    have hfirst := hx.grows hgrows₂
    simpa [SpelledArguments] using Arena.SpellsArguments.more hfirst hcomma hxs.1 hxs.2
  · rw [if_neg Bool.false_ne_true]
    refine .pure ⟨List.cons_ne_nil _ _, ?_⟩
    rw [SpelledArguments, List.append_nil]
    exact .one hx

end Step

theorem writesExpressions (fuel : Nat) : WritesExpressions fuel := by
  induction fuel with
  | zero =>
      refine ⟨?_, ?_, ?_, ?_, ?_, ?_⟩ <;> intros <;> omega
  | succ fuel ih =>
      exact ⟨writes_expressionAt_succ ih, writes_operand_succ ih, writes_continueFrom_succ ih,
        writes_followOperand_succ ih, writes_arguments_succ ih, writes_moreArguments_succ ih⟩

/-- An expression is spelled by the tokens that are passed for it. -/
theorem writes_expression (ts : List Token) (old : Arena) (limit : Nat) (b : BuildState) :
    Writes ts old limit expression (Spelled []) b := by
  refine .fuelled ((writesExpressions _).expressionAt 0 ?_)
  simp only [ParseState.fuel]
  omega

end Build

end Lox
