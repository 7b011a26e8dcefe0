import Lox.Proofs.Syntax.Parts
import Lox.Proofs.Token.Scan
import Lox.Syntax.Program

/-!
# What reading gives

Every tree that is read has numbers of its own, which were free before, names that are no reserved
words, and branches that declare nothing. This is proved of each step of reading in the order in
which the steps call each other; `Parse.Reads` says what a step does to the numbers that are free.

Main statement: `Reading.readAll_of_ofText`.
-/

namespace Lox

/-- The tokens that are left are proper. -/
def ParseState.Proper (s : ParseState) : Prop :=
  ∀ t ∈ s.rest, t.Proper

theorem ParseState.Proper.current {s : ParseState} (h : s.Proper) : s.current.Proper := by
  cases hrest : s.rest with
  | nil =>
      intro hkind
      simp [ParseState.current, hrest, Token.endAt] at hkind
  | cons t ts =>
      have hmem : s.current ∈ s.rest := by
        simp [ParseState.current, hrest]
      exact h _ hmem

theorem ParseState.Proper.next {s : ParseState} (h : s.Proper) : s.next.Proper := by
  intro t ht
  exact h t (List.mem_of_mem_tail ht)

namespace Parse

variable {α β : Type}

/-- A step that is taken when the numbers from `low` on are free gives what `Q` says of the first
number that is free afterwards. -/
def Reads (p : Parse α) (low : Nat) (Q : Nat → α → Prop) : Prop :=
  ∀ s : ParseState, s.Proper → s.nextId = low →
    match p s with
    | .ok a s' => s'.Proper ∧ low ≤ s'.nextId ∧ Q s'.nextId a
    | .error _ s' => s'.Proper ∧ low ≤ s'.nextId

section Rules

variable {low : Nat} {p : Parse α} {Q R : Nat → α → Prop}

theorem Reads.pure {a : α} (h : Q low a) : Reads (pure a : Parse α) low Q := by
  intro s hs hlow
  subst hlow
  exact ⟨hs, Nat.le_refl _, h⟩

theorem Reads.bind {f : α → Parse β} {T : Nat → β → Prop} (hp : Reads p low Q)
    (hf : ∀ mid a, low ≤ mid → Q mid a → Reads (f a) mid T) : Reads (p >>= f) low T := by
  intro s hs hlow
  have h := hp s hs hlow
  change match EStateM.bind p f s with
    | .ok a s' => _
    | .error _ s' => _
  unfold EStateM.bind
  cases hrun : p s with
  | error e s' =>
      -- The second step is not taken.
      rw [hrun] at h
      exact h
  | ok a s' =>
      rw [hrun] at h
      have h' := hf s'.nextId a h.2.1 h.2.2 s' h.1 rfl
      revert h'
      dsimp only
      cases f a s' with
      | error e s'' =>
          intro h'
          exact ⟨h'.1, Nat.le_trans h.2.1 h'.2⟩
      | ok b s'' =>
          intro h'
          exact ⟨h'.1, Nat.le_trans h.2.1 h'.2.1, h'.2.2⟩

/-- A step whose first free number afterwards is known. -/
theorem Reads.pass {f : α → Parse β} {P : α → Prop} {T : Nat → β → Prop} {next : Nat}
    (hp : Reads p low fun high a => high = next ∧ P a)
    (hf : ∀ a, P a → Reads (f a) next T) : Reads (p >>= f) low T := by
  refine hp.bind ?_
  intro mid a _ h
  rcases h with ⟨rfl, ha⟩
  exact hf a ha

/-- A step that gives no number and of whose result nothing need be known. -/
theorem Reads.skip {f : α → Parse β} {T : Nat → β → Prop}
    (hp : Reads p low fun high _ => high = low) (hf : ∀ a, Reads (f a) low T) :
    Reads (p >>= f) low T := by
  refine hp.bind ?_
  intro mid a _ h
  subst h
  exact hf a

theorem Reads.mono (hp : Reads p low Q) (h : ∀ high a, low ≤ high → Q high a → R high a) :
    Reads p low R := by
  intro s hs hlow
  have hp' := hp s hs hlow
  revert hp'
  cases p s with
  | error e s' =>
      intro hp'
      exact hp'
  | ok a s' =>
      intro hp'
      exact ⟨hp'.1, hp'.2.1, h _ _ hp'.2.1 hp'.2.2⟩

theorem Reads.map {f : α → β} {T : Nat → β → Prop} (hp : Reads p low Q)
    (h : ∀ high a, low ≤ high → Q high a → T high (f a)) : Reads (f <$> p) low T := by
  rw [map_eq_pure_bind]
  refine hp.bind ?_
  intro mid a hle hq
  exact .pure (h mid a hle hq)

theorem Reads.ite {q : Parse α} {b : Bool} (hp : b = true → Reads p low Q)
    (hq : b = false → Reads q low Q) : Reads (if b then p else q) low Q := by
  cases b with
  | false => exact hq rfl
  | true => exact hp rfl

end Rules

/-! ## Single tokens -/

section Tokens

variable {low : Nat}

theorem reads_peek : Reads peek low fun high t => high = low ∧ t.Proper := by
  intro s hs hlow
  exact ⟨hs, by simp [hlow], hlow, hs.current⟩

theorem reads_advance : Reads advance low fun high t => high = low ∧ t.Proper := by
  intro s hs hlow
  exact ⟨hs.next, by simp [ParseState.next, hlow], hlow, hs.current⟩

theorem reads_check (kind : Kind) : Reads (check kind) low fun high _ => high = low := by
  intro s hs hlow
  exact ⟨hs, by simp [hlow], hlow⟩

theorem reads_atEnd : Reads atEnd low fun high _ => high = low := by
  intro s hs hlow
  exact ⟨hs, by simp [hlow], hlow⟩

theorem reads_accept (kind : Kind) : Reads (accept kind) low fun high _ => high = low := by
  intro s hs hlow
  unfold accept
  split
  · rename_i heq
    split at heq
    · cases heq
      exact ⟨hs.next, by simp [ParseState.next, hlow], hlow⟩
    · cases heq
      exact ⟨hs, by simp [hlow], hlow⟩
  · rename_i heq
    split at heq <;> cases heq

theorem reads_fail (cause : SyntaxCause) {Q : Nat → α → Prop} :
    Reads (fail cause : Parse α) low Q := by
  intro s hs hlow
  exact ⟨hs, by simp [hlow]⟩

theorem reads_expect (kind : Kind) (what : Expectation) :
    Reads (expect kind what) low fun high t => high = low ∧ t.kind = kind ∧ t.Proper := by
  intro s hs hlow
  unfold expect
  by_cases hkind : (s.current.kind == kind) = true
  · rw [if_pos hkind]
    exact ⟨hs.next, by simp [ParseState.next, hlow], hlow, by simpa using hkind, hs.current⟩
  · rw [if_neg hkind]
    exact ⟨hs, by simp [hlow]⟩

theorem reads_ident (what : Expectation) :
    Reads (ident what) low fun high i => high = low ∧ i.IsWord := by
  refine (reads_expect .identifier what).pass ?_
  intro t h
  rcases h with ⟨hkind, hproper⟩
  exact .pure ⟨rfl, hproper hkind⟩

theorem reads_record (cause : SyntaxCause) (span : Span) :
    Reads (record cause span) low fun high _ => high = low := by
  intro s hs hlow
  exact ⟨hs, by simp [ParseState.record, hlow], hlow⟩

theorem reads_limit (cause : SyntaxCause) (count : Nat) :
    Reads (limit cause count) low fun high _ => high = low := by
  intro s hs hlow
  unfold limit
  by_cases hcount : maxArguments ≤ count
  · rw [if_pos hcount]
    exact ⟨hs, by simp [ParseState.record, hlow], hlow⟩
  · rw [if_neg hcount]
    exact ⟨hs, by simp [hlow], hlow⟩

theorem reads_node (span : Span) :
    Reads (node span) low fun high n => high = low + 1 ∧ n.id = low := by
  intro s hs hlow
  exact ⟨hs, by simp [hlow], by simp [hlow], hlow⟩

theorem reads_reference (name : Ident) :
    Reads (reference name) low fun high r => high = low + 1 ∧ r.id = low ∧ r.name = name := by
  intro s hs hlow
  exact ⟨hs, by simp [hlow], by simp [hlow], hlow, rfl⟩

end Tokens

/-! ## Steps that contain steps -/

section Steps

variable {low : Nat} {p : Parse α} {Q : Nat → α → Prop}

theorem Reads.behind {kind : Kind} (hp : Reads p low Q) :
    Reads (behind kind p) low fun high a? =>
      (a? = none ∧ high = low) ∨ ∃ a, a? = some a ∧ Q high a := by
  refine (reads_accept kind).skip ?_
  intro b
  refine .ite ?_ ?_
  · intro _
    refine hp.map ?_
    intro high a _ ha
    exact .inr ⟨a, rfl, ha⟩
  · intro _
    exact .pure (.inl ⟨rfl, rfl⟩)

theorem Reads.unlessAt {kind : Kind} (hp : Reads p low Q) :
    Reads (unlessAt kind p) low fun high a? =>
      (a? = none ∧ high = low) ∨ ∃ a, a? = some a ∧ Q high a := by
  refine (reads_check kind).skip ?_
  intro b
  refine .ite ?_ ?_
  · intro _
    exact .pure (.inl ⟨rfl, rfl⟩)
  · intro _
    refine hp.map ?_
    intro high a _ ha
    exact .inr ⟨a, rfl, ha⟩

theorem proper_resume {ts : List Token} (h : ∀ t ∈ ts, t.Proper) (previous : Token) :
    ∀ t ∈ ParseState.resume previous ts, t.Proper := by
  induction ts generalizing previous with
  | nil =>
      simp [ParseState.resume]
  | cons t ts ih =>
      unfold ParseState.resume
      split
      · exact h
      · exact ih (fun t' ht' => h t' (List.mem_cons_of_mem _ ht')) t

theorem Reads.recover (hp : Reads p low Q) :
    Reads (recover p) low fun high a? => a? = none ∨ ∃ a, a? = some a ∧ Q high a := by
  intro s hs hlow
  have h := hp s hs hlow
  unfold Parse.recover
  cases hrun : p s with
  | ok a s' =>
      rw [hrun] at h
      exact ⟨h.1, h.2.1, .inr ⟨a, rfl, h.2.2⟩⟩
  | error e s' =>
      -- The mistake is recorded and tokens are skipped; no number is given meanwhile.
      rw [hrun] at h
      have hproper : ((s'.record e).synchronize).Proper := by
        unfold ParseState.synchronize
        split
        · exact h.1
        · rename_i t ts hrest
          refine proper_resume ?_ t
          intro t' ht'
          have hmem : t' ∈ s'.rest := by
            have hrest' : s'.rest = t :: ts := hrest
            simp [hrest', ht']
          exact h.1 t' hmem
      have hnext : ((s'.record e).synchronize).nextId = s'.nextId :=
        (s'.record e).nextId_synchronize
      dsimp only
      rw [hnext]
      exact ⟨hproper, h.2, .inl rfl⟩

theorem Reads.fuelled {step : Nat → Parse α} (h : ∀ fuel, Reads (step fuel) low Q) :
    Reads (fuelled step) low Q := by
  intro s hs hlow
  exact h s.fuel s hs hlow

end Steps

/-! ## Expressions -/

/-- An expression with a number of its own is added to the parts it is made of. -/
theorem reads_made {make : Node → Expr} {parts : List Expr} {low high : Nat} (span : Span)
    (hparts : Expr.ReadAll low high parts) (hle : low ≤ high)
    (hmake : ∀ n, (make n).parts = parts ++ [make n] ∧ (make n).number = n.id)
    (hwords : ∀ n, ∀ i ∈ (make n).idents, i.IsWord) :
    Reads (do return make (← node span)) high fun top e => e.Read low top := by
  refine (reads_node span).pass ?_
  intro n hid
  have hself : Expr.ReadAll high (high + 1) [make n] :=
    .single (Nat.le_refl _) ((hmake n).2.trans hid) (hwords n)
  have hall : Expr.ReadAll low (high + 1) (parts ++ [make n]) :=
    hparts.append hself hle (Nat.le_succ high)
  refine .pure ?_
  simpa [Expr.Read, (hmake n).1] using hall

theorem reads_atom {token : Token} (htoken : token.Proper) (low : Nat) :
    Reads (atom token) low fun high e => e.Read low high := by
  unfold atom
  split
  · refine reads_advance.pass ?_
    intro _ _
    exact reads_made _ .nil (Nat.le_refl _) (fun _ => ⟨rfl, rfl⟩) (by simp [Expr.idents])
  · rename_i hkind
    refine reads_advance.pass ?_
    intro _ _
    refine (reads_reference _).pass ?_
    intro r h
    rcases h with ⟨hid, hname⟩
    refine .pure (.single (Nat.le_refl _) hid ?_)
    simp only [Expr.idents, List.mem_singleton, forall_eq, hname]
    exact htoken hkind
  · refine reads_advance.pass ?_
    intro _ _
    exact reads_made _ .nil (Nat.le_refl _) (fun _ => ⟨rfl, rfl⟩) (by simp [Expr.idents])
  · refine reads_advance.pass ?_
    intro _ _
    refine (reads_expect _ _).pass ?_
    intro _ _
    refine (reads_ident _).pass ?_
    intro method hword
    refine reads_made _ .nil (Nat.le_refl _) (fun _ => ⟨rfl, rfl⟩) ?_
    intro _
    simpa [Expr.idents] using hword
  · exact reads_fail _

theorem reads_assignTo {target value : Expr} {low mid high : Nat} (htarget : target.Read low mid)
    (hvalue : value.Read mid high) (hlow : low ≤ mid) (hhigh : mid ≤ high) (equals : Span) :
    Reads (assignTo target equals value) high fun top e => e.Read low top := by
  unfold assignTo
  split
  · rename_i old
    have hword : old.name.IsWord :=
      htarget.words (.var old) (by simp [Expr.parts]) _ (by simp [Expr.idents])
    refine (reads_reference _).pass ?_
    intro r h
    rcases h with ⟨hid, hname⟩
    have hself : Expr.ReadAll high (high + 1) [.assign r value] := by
      refine .single (Nat.le_refl _) hid ?_
      simpa [Expr.idents, hname] using hword
    -- The number of the old target is lost.
    exact .pure ((hvalue.append hself hhigh (Nat.le_succ high)).mono hlow (Nat.le_refl _))
  · rename_i id object name
    have hobject : object.Read low mid := htarget.of_append_left
    have hword : name.IsWord :=
      htarget.words (.get id object name) (by simp [Expr.parts]) _ (by simp [Expr.idents])
    have hparts : Expr.ReadAll low high (value.parts ++ object.parts) :=
      (hobject.append hvalue hlow hhigh).perm List.perm_append_comm
    refine reads_made _ hparts (Nat.le_trans hlow hhigh) (fun _ => ⟨rfl, rfl⟩) ?_
    intro _
    simpa [Expr.idents] using hword
  · refine (reads_record _ _).skip ?_
    intro _
    exact .pure (htarget.mono (Nat.le_refl _) hhigh)

/-- The steps that read expressions, with some amount of fuel, give expressions as they should be. -/
structure ReadsExpressions (fuel : Nat) : Prop where
  expressionAt : ∀ low least, Reads (expressionAt fuel least) low fun high e => e.Read low high
  operand : ∀ low, Reads (operand fuel) low fun high e => e.Read low high
  continueFrom : ∀ {low mid left}, left.Read low mid → low ≤ mid → ∀ least,
    Reads (continueFrom fuel least left) mid fun high e => e.Read low high
  followOperand : ∀ {low mid left}, left.Read low mid → low ≤ mid → ∀ place follow,
    Reads (followOperand fuel left place follow) mid fun high e => e.Read low high
  arguments : ∀ low,
    Reads (arguments fuel) low fun high es => Expr.ReadAll low high (Expr.partsAll es)
  moreArguments : ∀ low count,
    Reads (moreArguments fuel count) low fun high es => Expr.ReadAll low high (Expr.partsAll es)

theorem readsExpressions_zero : ReadsExpressions 0 := by
  refine ⟨?_, ?_, ?_, ?_, ?_, ?_⟩
  · intro low least
    exact reads_fail _
  · intro low
    exact reads_fail _
  · intro low mid left hleft _ least
    exact .pure hleft
  · intro low mid left hleft _ place follow
    exact .pure hleft
  · intro low
    exact .pure .nil
  · intro low count
    exact .pure .nil

section Step

variable {fuel : Nat} (ih : ReadsExpressions fuel)

include ih

theorem reads_expressionAt_succ (low least : Nat) :
    Reads (expressionAt (fuel + 1) least) low fun high e => e.Read low high := by
  rw [expressionAt]
  refine (ih.operand low).bind ?_
  intro mid left hle hleft
  exact ih.continueFrom hleft hle least

theorem reads_operand_succ (low : Nat) :
    Reads (operand (fuel + 1)) low fun high e => e.Read low high := by
  rw [operand]
  refine reads_peek.pass ?_
  intro token htoken
  split
  · refine reads_advance.pass ?_
    intro _ _
    refine (ih.expressionAt _ _).bind ?_
    intro mid inner hle hinner
    exact reads_made _ hinner hle (fun _ => ⟨rfl, rfl⟩) (by simp [Expr.idents])
  · refine reads_advance.pass ?_
    intro _ _
    refine (ih.expressionAt _ _).bind ?_
    intro mid inner hle hinner
    refine (reads_expect _ _).pass ?_
    intro _ _
    exact reads_made _ hinner hle (fun _ => ⟨rfl, rfl⟩) (by simp [Expr.idents])
  · exact reads_atom htoken _

theorem reads_continueFrom_succ {low mid : Nat} {left : Expr} (hleft : left.Read low mid)
    (hlow : low ≤ mid) (least : Nat) :
    Reads (continueFrom (fuel + 1) least left) mid fun high e => e.Read low high := by
  rw [continueFrom]
  refine reads_peek.pass ?_
  intro token _
  split
  · -- No operator follows.
    exact .pure hleft
  · split
    · -- The operator binds too weakly to belong to this expression.
      exact .pure hleft
    · refine reads_advance.pass ?_
      intro _ _
      refine (ih.followOperand hleft hlow _ _).bind ?_
      intro high longer hle hlonger
      exact ih.continueFrom hlonger (by omega) least

theorem reads_followOperand_succ {low mid : Nat} {left : Expr} (hleft : left.Read low mid)
    (hlow : low ≤ mid) (place : Span) (follow : Follow) :
    Reads (followOperand (fuel + 1) left place follow) mid fun high e => e.Read low high := by
  cases follow with
  | call =>
      rw [followOperand]
      refine (ih.arguments mid).bind ?_
      intro high values hle hvalues
      refine (reads_expect _ _).pass ?_
      intro close _
      exact reads_made _ (hleft.append hvalues hlow hle) (Nat.le_trans hlow hle)
        (fun _ => ⟨rfl, rfl⟩) (by simp [Expr.idents])
  | access =>
      rw [followOperand]
      refine (reads_ident _).pass ?_
      intro name hword
      refine reads_made _ hleft hlow (fun _ => ⟨rfl, rfl⟩) ?_
      intro _
      simpa [Expr.idents] using hword
  | binary op =>
      rw [followOperand]
      refine (ih.expressionAt mid _).bind ?_
      intro high right hle hright
      exact reads_made _ (hleft.append hright hlow hle) (Nat.le_trans hlow hle)
        (fun _ => ⟨rfl, rfl⟩) (by simp [Expr.idents])
  | logical op =>
      rw [followOperand]
      refine (ih.expressionAt mid _).bind ?_
      intro high right hle hright
      exact reads_made _ (hleft.append hright hlow hle) (Nat.le_trans hlow hle)
        (fun _ => ⟨rfl, rfl⟩) (by simp [Expr.idents])
  | assign =>
      rw [followOperand]
      refine (ih.expressionAt mid _).bind ?_
      intro high value hle hvalue
      exact reads_assignTo hleft hvalue hlow hle place

theorem reads_arguments_succ (low : Nat) :
    Reads (arguments (fuel + 1)) low fun high es =>
      Expr.ReadAll low high (Expr.partsAll es) := by
  rw [arguments]
  refine (reads_check _).skip ?_
  intro b
  refine .ite ?_ ?_
  · intro _
    exact .pure .nil
  · intro _
    exact ih.moreArguments _ _

theorem reads_moreArguments_succ (low count : Nat) :
    Reads (moreArguments (fuel + 1) count) low fun high es =>
      Expr.ReadAll low high (Expr.partsAll es) := by
  rw [moreArguments]
  refine (reads_limit _ _).skip ?_
  intro _
  refine (ih.expressionAt _ _).bind ?_
  intro mid first hle hfirst
  refine (reads_accept _).skip ?_
  intro b
  refine .ite ?_ ?_
  · intro _
    refine (ih.moreArguments _ _).bind ?_
    intro high others hle' hothers
    exact .pure (hfirst.append hothers hle hle')
  · intro _
    refine .pure ?_
    simpa [Expr.partsAll] using hfirst

end Step

theorem readsExpressions (fuel : Nat) : ReadsExpressions fuel := by
  induction fuel with
  | zero =>
      exact readsExpressions_zero
  | succ fuel ih =>
      exact ⟨reads_expressionAt_succ ih, reads_operand_succ ih, reads_continueFrom_succ ih,
        reads_followOperand_succ ih, reads_arguments_succ ih, reads_moreArguments_succ ih⟩

theorem reads_expression (low : Nat) : Reads expression low fun high e => e.Read low high :=
  .fuelled fun fuel => (readsExpressions fuel).expressionAt low 0

/-! ## Statements without statements inside -/

theorem reads_unlessAt_expression (kind : Kind) (low : Nat) :
    Reads (unlessAt kind expression) low fun high e? =>
      Expr.ReadAll low high (e?.toList.flatMap Expr.parts) := by
  refine (reads_expression low).unlessAt.mono ?_
  intro high e? _ h
  rcases h with ⟨rfl, -⟩ | ⟨e, rfl, he⟩
  · exact .nil
  · simpa using he

theorem reads_behind_expression (kind : Kind) (low : Nat) :
    Reads (behind kind expression) low fun high e? =>
      Expr.ReadAll low high (e?.toList.flatMap Expr.parts) := by
  refine (reads_expression low).behind.mono ?_
  intro high e? _ h
  rcases h with ⟨rfl, -⟩ | ⟨e, rfl, he⟩
  · exact .nil
  · simpa using he

/-- A statement that is read and declares nothing. -/
abbrev ReadsPlain (p : Parse Stmt) (low : Nat) : Prop :=
  Reads p low fun high s => s.Read low high ∧ s.declares? = none

/-- A statement that holds no other statement and no name, from the expressions it holds. -/
theorem read_leaf {s : Stmt} {low high : Nat} (hparts : s.parts = [s])
    (hown : Expr.ReadAll low high (s.operands.flatMap Expr.parts))
    (hwords : ∀ i ∈ s.idents, i.IsWord) (hplain : s.BranchesPlain) (hle : low ≤ high) :
    s.Read low high := by
  rw [Stmt.Read, hparts]
  exact .cons hown hwords hplain .nil hle (Nat.le_refl _)

theorem reads_expressionStatement (low : Nat) : ReadsPlain expressionStatement low := by
  refine (reads_expression low).bind ?_
  intro mid value hle hvalue
  refine (reads_expect _ _).pass ?_
  intro _ _
  refine .pure ⟨read_leaf rfl ?_ (by simp [Stmt.idents]) trivial hle, rfl⟩
  simpa [Stmt.operands] using hvalue

theorem reads_printStatement (low : Nat) : ReadsPlain printStatement low := by
  refine reads_advance.pass ?_
  intro _ _
  refine (reads_expression _).bind ?_
  intro mid value hle hvalue
  refine (reads_expect _ _).pass ?_
  intro _ _
  refine .pure ⟨read_leaf rfl ?_ (by simp [Stmt.idents]) trivial hle, rfl⟩
  simpa [Stmt.operands] using hvalue

theorem reads_returnStatement (low : Nat) : ReadsPlain returnStatement low := by
  refine reads_advance.pass ?_
  intro keyword _
  refine (reads_unlessAt_expression _ _).bind ?_
  intro mid value hle hvalue
  refine (reads_expect _ _).pass ?_
  intro _ _
  exact .pure ⟨read_leaf rfl hvalue (by simp [Stmt.idents]) trivial hle, rfl⟩

theorem reads_varDeclaration (low : Nat) :
    Reads varDeclaration low fun high s => s.Read low high := by
  refine reads_advance.pass ?_
  intro _ _
  refine (reads_ident _).pass ?_
  intro name hword
  refine (reads_behind_expression _ _).bind ?_
  intro mid initial hle hinitial
  refine (reads_expect _ _).pass ?_
  intro _ _
  refine .pure (read_leaf rfl hinitial ?_ trivial hle)
  simpa [Stmt.idents] using hword

/-! ## Loops -/

theorem reads_forInitializer (low : Nat) :
    Reads forInitializer low fun high s? =>
      Stmt.ReadAll low high (s?.toList.flatMap Stmt.parts) := by
  refine (reads_accept _).skip ?_
  intro _
  refine .ite ?_ ?_
  · intro _
    exact .pure .nil
  · intro _
    have hstmt : Reads (do if ← check (.keyword .var) then varDeclaration else expressionStatement)
        low fun high s => s.Read low high := by
      refine (reads_check _).skip ?_
      intro _
      refine .ite ?_ ?_
      · intro _
        exact reads_varDeclaration _
      · intro _
        exact (reads_expressionStatement _).mono fun _ _ _ h => h.1
    refine hstmt.map ?_
    intro high s _ hs
    simpa using hs

/-- What is known of the clauses of a `for` loop that were read. -/
def ForClauses.Read (low high : Nat) (clauses : ForClauses) : Prop :=
  ∃ a b, low ≤ a ∧ a ≤ b ∧ b ≤ high ∧
    Stmt.ReadAll low a (clauses.initializer.toList.flatMap Stmt.parts) ∧
    Expr.ReadAll a b (clauses.condition.toList.flatMap Expr.parts) ∧
    Expr.ReadAll b high (clauses.increment.toList.flatMap Expr.parts)

theorem reads_forClauses (low : Nat) :
    Reads forClauses low fun high clauses => clauses.Read low high := by
  refine (reads_forInitializer low).bind ?_
  intro a initializer hlow hinitializer
  refine (reads_unlessAt_expression _ _).bind ?_
  intro b condition ha hcondition
  refine (reads_expect _ _).pass ?_
  intro semicolon _
  refine (reads_unlessAt_expression _ _).bind ?_
  intro c increment hb hincrement
  refine (reads_expect _ _).pass ?_
  intro _ _
  exact .pure ⟨a, _, hlow, ha, hb, hinitializer, hcondition, hincrement⟩

theorem reads_test {clauses : ForClauses} {low : Nat} :
    Reads clauses.test low fun high e =>
      (clauses.condition = some e ∧ high = low) ∨
        (clauses.condition = none ∧ e.Read low high) := by
  unfold ForClauses.test
  split
  · rename_i condition hcondition
    exact .pure (.inl ⟨hcondition, rfl⟩)
  · rename_i hcondition
    refine (reads_node _).pass ?_
    intro n hid
    exact .pure (.inr ⟨hcondition, .single (Nat.le_refl _) hid (by simp [Expr.idents])⟩)

/-- The statements of a round are those of the body and, if there is an increment, two more that hold
nothing but its expression. -/
theorem readAll_round {clauses : ForClauses} {body : Stmt} {low mid high : Nat}
    (hincrement : Expr.ReadAll low mid (clauses.increment.toList.flatMap Expr.parts))
    (hbody : body.Read mid high) (hlow : low ≤ mid) (hhigh : mid ≤ high) :
    (clauses.round body).Read low high := by
  unfold ForClauses.round
  split
  · rename_i increment hsome
    rw [hsome] at hincrement
    -- In the tree the increment comes behind the body, though it was read before.
    have htail : Stmt.ReadAll low mid [.expression increment] :=
      .cons (by simpa [Stmt.operands] using hincrement) (by simp [Stmt.idents]) trivial .nil hlow
        (Nat.le_refl _)
    have hparts : Stmt.ReadAll low high (body.parts ++ [.expression increment]) :=
      (htail.append hbody hlow hhigh).perm List.perm_append_comm
    have hblock : Stmt.ReadAll low high
        (.block [body, .expression increment] :: (body.parts ++ [.expression increment])) :=
      .cons .nil (by simp [Stmt.idents]) trivial hparts (Nat.le_refl _) (by omega)
    simpa [Stmt.Read, Stmt.parts, Stmt.partsAll] using hblock
  · exact hbody.mono hlow (Nat.le_refl _)

theorem declares?_round {clauses : ForClauses} {body : Stmt} (h : body.declares? = none) :
    (clauses.round body).declares? = none := by
  unfold ForClauses.round
  split
  · rfl
  · exact h

theorem readAll_around {clauses : ForClauses} {loop : Stmt} {low mid high : Nat}
    (hinitializer : Stmt.ReadAll low mid (clauses.initializer.toList.flatMap Stmt.parts))
    (hloop : loop.Read mid high) (hlow : low ≤ mid) (hhigh : mid ≤ high) :
    (clauses.around loop).Read low high := by
  unfold ForClauses.around
  split
  · rename_i initializer hsome
    rw [hsome] at hinitializer
    have hparts : Stmt.ReadAll low high (initializer.parts ++ loop.parts) := by
      refine .append ?_ hloop hlow hhigh
      simpa using hinitializer
    have hblock : Stmt.ReadAll low high
        (.block [initializer, loop] :: (initializer.parts ++ loop.parts)) :=
      .cons .nil (by simp [Stmt.idents]) trivial hparts (Nat.le_refl _) (by omega)
    simpa [Stmt.Read, Stmt.parts, Stmt.partsAll] using hblock
  · exact hloop.mono hlow (Nat.le_refl _)

theorem declares?_around {clauses : ForClauses} {loop : Stmt} (h : loop.declares? = none) :
    (clauses.around loop).declares? = none := by
  unfold ForClauses.around
  split
  · rfl
  · exact h

theorem reads_forLoop {clauses : ForClauses} {body : Stmt} {low mid high : Nat}
    (hclauses : clauses.Read low mid) (hbody : body.Read mid high)
    (hplain : body.declares? = none) (hhigh : mid ≤ high) :
    Reads (forLoop clauses body) high fun top s => s.Read low top ∧ s.declares? = none := by
  -- The clauses are read in the order initializer, condition, increment, and the body last.
  rcases hclauses with ⟨a, b, hla, hab, hbm, hinitializer, hcondition, hincrement⟩
  have hround : (clauses.round body).Read b high := readAll_round hincrement hbody hbm hhigh
  refine reads_test.bind ?_
  intro top condition htop htest
  refine .pure ⟨readAll_around hinitializer ?_ hla (by omega), declares?_around rfl⟩
  have hplain' : (clauses.round body).declares? = none := declares?_round hplain
  rw [Stmt.Read, Stmt.parts]
  rcases htest with ⟨hsome, rfl⟩ | ⟨-, hread⟩
  · rw [hsome] at hcondition
    exact .cons hcondition (by simp [Stmt.idents]) hplain' hround hab (by omega)
  · -- The condition that is put in gets its number last, after those of the body.
    have hloop : Stmt.ReadAll high top [.while condition (clauses.round body)] :=
      .cons (by simpa [Stmt.operands] using hread) (by simp [Stmt.idents]) hplain' .nil htop
        (Nat.le_refl _)
    have hparts := hround.append hloop (by omega) htop
    exact (hparts.perm List.perm_append_comm).mono hab (Nat.le_refl _)

/-! ## Declarations and statements -/

/-- What is known of a routine that was read. -/
structure RoutineRead (low high : Nat) (r : FunctionDecl) : Prop where
  body : Stmt.ReadAll low high (Stmt.partsRoutine r)
  words : ∀ i ∈ Stmt.routineIdents r, i.IsWord

/-- What is known of methods that were read. -/
structure MethodsRead (low high : Nat) (methods : List FunctionDecl) : Prop where
  bodies : Stmt.ReadAll low high (Stmt.partsMethods methods)
  words : ∀ i ∈ methods.flatMap Stmt.routineIdents, i.IsWord

theorem reads_moreParameters (fuel : Nat) : ∀ low count,
    Reads (moreParameters fuel count) low fun high names =>
      high = low ∧ ∀ i ∈ names, i.IsWord := by
  induction fuel with
  | zero =>
      intro low count
      exact .pure ⟨rfl, by simp⟩
  | succ fuel ih =>
      intro low count
      rw [moreParameters]
      refine (reads_limit _ _).skip ?_
      intro _
      refine (reads_ident _).pass ?_
      intro first hword
      refine (reads_accept _).skip ?_
      intro b
      refine .ite ?_ ?_
      · intro _
        refine (ih _ _).pass ?_
        intro others hothers
        exact .pure ⟨rfl, by simpa using ⟨hword, hothers⟩⟩
      · intro _
        exact .pure ⟨rfl, by simpa using hword⟩

theorem reads_parameters (low : Nat) :
    Reads parameters low fun high names => high = low ∧ ∀ i ∈ names, i.IsWord := by
  refine (reads_check _).skip ?_
  intro b
  refine .ite ?_ ?_
  · intro _
    exact .pure ⟨rfl, by simp⟩
  · intro _
    exact .fuelled fun fuel => reads_moreParameters fuel _ _

theorem reads_superclass (low : Nat) :
    Reads superclass low fun high parent =>
      Expr.ReadAll low high ((parent.map Expr.var).toList.flatMap Expr.parts) := by
  have hstep : Reads (do let name ← ident .superclassName; reference name) low fun high r =>
      high = low + 1 ∧ r.id = low ∧ r.name.IsWord := by
    refine (reads_ident _).pass ?_
    intro name hword
    refine (reads_reference _).mono ?_
    intro high r _ h
    rcases h with ⟨rfl, hid, hname⟩
    exact ⟨rfl, hid, hname ▸ hword⟩
  refine hstep.behind.mono ?_
  intro high parent _ h
  rcases h with ⟨rfl, -⟩ | ⟨r, rfl, rfl, hid, hword⟩
  · exact .nil
  · have hself : Expr.ReadAll low (low + 1) [.var r] :=
      .single (Nat.le_refl _) hid (by simpa [Expr.idents] using hword)
    simpa [Expr.parts] using hself

/-- The steps that read statements, with some amount of fuel, give statements as they should be. -/
structure ReadsStatements (fuel : Nat) : Prop where
  declaration : ∀ low, Reads (declaration fuel) low fun high s? =>
    Stmt.ReadAll low high (s?.toList.flatMap Stmt.parts)
  declarations : ∀ low, Reads (declarations fuel) low fun high ss =>
    Stmt.ReadAll low high (Stmt.partsAll ss)
  blockBody : ∀ low, Reads (blockBody fuel) low fun high ss =>
    Stmt.ReadAll low high (Stmt.partsAll ss)
  routine : ∀ low kind, Reads (routine fuel kind) low (RoutineRead low)
  methods : ∀ low, Reads (methods fuel) low (MethodsRead low)
  classDeclaration : ∀ low, Reads (classDeclaration fuel) low fun high s => s.Read low high
  statement : ∀ low, ReadsPlain (statement fuel) low

theorem readsStatements_zero : ReadsStatements 0 := by
  refine ⟨?_, ?_, ?_, ?_, ?_, ?_, ?_⟩
  · intro low
    exact .pure .nil
  · intro low
    exact .pure .nil
  · intro low
    exact .pure .nil
  · intro low kind
    exact reads_fail _
  · intro low
    exact .pure ⟨.nil, by simp⟩
  · intro low
    exact reads_fail _
  · intro low
    exact reads_fail _

theorem partsAll_toList (s? : Option Stmt) :
    Stmt.partsAll s?.toList = s?.toList.flatMap Stmt.parts := by
  cases s? with
  | none => rfl
  | some s => simp [Stmt.partsAll]

section Step

variable {fuel : Nat} (ih : ReadsStatements fuel)

include ih

theorem reads_declaration_succ (low : Nat) :
    Reads (declaration (fuel + 1)) low fun high s? =>
      Stmt.ReadAll low high (s?.toList.flatMap Stmt.parts) := by
  rw [declaration]
  refine (Reads.recover (Q := fun high s => s.Read low high) ?_).mono ?_
  · -- One production for each keyword that a declaration can begin with.
    refine reads_peek.pass ?_
    intro token _
    split
    · exact ih.classDeclaration _
    · refine reads_advance.pass ?_
      intro _ _
      refine (ih.routine _ _).bind ?_
      intro mid decl hle hdecl
      refine .pure ?_
      rw [Stmt.Read, Stmt.parts]
      exact .cons .nil hdecl.words trivial hdecl.body (Nat.le_refl _) hle
    · exact reads_varDeclaration _
    · exact (ih.statement _).mono fun _ _ _ h => h.1
  · -- A declaration with a mistake gives no statement.
    intro high s? _ h
    rcases h with rfl | ⟨s, rfl, hs⟩
    · exact .nil
    · simpa using hs

theorem reads_declarations_succ (low : Nat) :
    Reads (declarations (fuel + 1)) low fun high ss =>
      Stmt.ReadAll low high (Stmt.partsAll ss) := by
  rw [declarations]
  refine (reads_check _).skip ?_
  intro _
  refine reads_atEnd.skip ?_
  intro _
  refine .ite ?_ ?_
  · intro _
    exact .pure .nil
  · intro _
    refine (ih.declaration _).bind ?_
    intro mid first hle hfirst
    refine (ih.declarations _).bind ?_
    intro high others hle' hothers
    refine .pure ?_
    rw [Stmt.partsAll_append, partsAll_toList]
    exact hfirst.append hothers hle hle'

theorem reads_blockBody_succ (low : Nat) :
    Reads (blockBody (fuel + 1)) low fun high ss =>
      Stmt.ReadAll low high (Stmt.partsAll ss) := by
  rw [blockBody]
  refine (ih.declarations _).bind ?_
  intro mid body hle hbody
  refine (reads_expect _ _).pass ?_
  intro _ _
  exact .pure hbody

theorem reads_routine_succ (low : Nat) (kind : RoutineKind) :
    Reads (routine (fuel + 1) kind) low (RoutineRead low) := by
  rw [routine]
  refine (reads_ident _).pass ?_
  intro name hname
  refine (reads_expect _ _).pass ?_
  intro _ _
  refine (reads_parameters _).pass ?_
  intro names hnames
  refine (reads_expect _ _).pass ?_
  intro _ _
  refine (reads_expect _ _).pass ?_
  intro _ _
  refine (ih.blockBody _).bind ?_
  intro high body hle hbody
  refine .pure ⟨hbody, ?_⟩
  simpa [Stmt.routineIdents] using ⟨hname, hnames⟩

theorem reads_methods_succ (low : Nat) :
    Reads (methods (fuel + 1)) low (MethodsRead low) := by
  rw [methods]
  refine (reads_check _).skip ?_
  intro _
  refine reads_atEnd.skip ?_
  intro _
  refine .ite ?_ ?_
  · intro _
    exact .pure ⟨.nil, by simp⟩
  · intro _
    refine (ih.routine _ _).bind ?_
    intro mid first hle hfirst
    refine (ih.methods _).bind ?_
    intro high others hle' hothers
    refine .pure ⟨hfirst.body.append hothers.bodies hle hle', ?_⟩
    intro i hi
    rw [List.flatMap_cons, List.mem_append] at hi
    rcases hi with hi | hi
    · exact hfirst.words i hi
    · exact hothers.words i hi

theorem reads_classDeclaration_succ (low : Nat) :
    Reads (classDeclaration (fuel + 1)) low fun high s => s.Read low high := by
  rw [classDeclaration]
  refine reads_advance.pass ?_
  intro _ _
  refine (reads_ident _).pass ?_
  intro name hname
  refine (reads_superclass _).bind ?_
  intro mid parent hle hparent
  refine (reads_expect _ _).pass ?_
  intro _ _
  refine (ih.methods _).bind ?_
  intro high members hle' hmembers
  refine (reads_expect _ _).pass ?_
  intro _ _
  refine .pure ?_
  rw [Stmt.Read, Stmt.parts]
  refine .cons hparent ?_ trivial hmembers.bodies hle hle'
  intro i hi
  rw [Stmt.idents, List.mem_cons] at hi
  rcases hi with rfl | hi
  · exact hname
  · exact hmembers.words i hi

theorem reads_if {low : Nat} : ReadsPlain (do
    let condition ← expression
    let _ ← expect .rightParen .closeIf
    let consequent ← statement fuel
    let alternative ← behind (.keyword .else) (statement fuel)
    return .ifElse condition consequent alternative) low := by
  refine (reads_expression _).bind ?_
  intro a condition hla hcondition
  refine (reads_expect _ _).pass ?_
  intro _ _
  refine (ih.statement _).bind ?_
  intro b consequent hab h
  rcases h with ⟨hconsequent, hplain⟩
  refine (ih.statement _).behind.bind ?_
  intro high alternative hbh halternative
  refine .pure ⟨?_, rfl⟩
  rw [Stmt.Read, Stmt.parts]
  have hown : Expr.ReadAll low a ([condition].flatMap Expr.parts) := by
    simpa using hcondition
  -- The numbers of the second branch follow those of the first.
  rcases halternative with ⟨rfl, rfl⟩ | ⟨s, rfl, hs, hs'⟩
  · refine .cons hown (by simp [Stmt.idents]) ⟨hplain, by simp⟩ ?_ hla hab
    simpa [Stmt.partsOption] using hconsequent
  · refine .cons hown (by simp [Stmt.idents]) ⟨hplain, by simpa using hs'⟩ ?_ hla (by omega)
    exact hconsequent.append hs hab hbh

theorem reads_while {low : Nat} : ReadsPlain (do
    let condition ← expression
    let _ ← expect .rightParen .closeWhile
    let body ← statement fuel
    return .while condition body) low := by
  refine (reads_expression _).bind ?_
  intro a condition hla hcondition
  refine (reads_expect _ _).pass ?_
  intro _ _
  refine (ih.statement _).bind ?_
  intro high body hah h
  rcases h with ⟨hbody, hplain⟩
  refine .pure ⟨?_, rfl⟩
  rw [Stmt.Read, Stmt.parts]
  refine .cons ?_ (by simp [Stmt.idents]) hplain hbody hla hah
  simpa [Stmt.operands] using hcondition

theorem reads_statement_succ (low : Nat) : ReadsPlain (statement (fuel + 1)) low := by
  unfold ReadsPlain
  rw [statement]
  refine reads_peek.pass ?_
  intro token _
  split
  · refine reads_advance.pass ?_
    intro _ _
    refine (reads_expect _ _).pass ?_
    intro _ _
    refine (reads_forClauses _).bind ?_
    intro mid clauses _ hclauses
    refine (ih.statement _).bind ?_
    intro high body hle h
    rcases h with ⟨hbody, hplain⟩
    exact reads_forLoop hclauses hbody hplain hle
  · refine reads_advance.pass ?_
    intro _ _
    refine (reads_expect _ _).pass ?_
    intro _ _
    exact reads_if ih
  · exact reads_printStatement _
  · exact reads_returnStatement _
  · refine reads_advance.pass ?_
    intro _ _
    refine (reads_expect _ _).pass ?_
    intro _ _
    exact reads_while ih
  · refine reads_advance.pass ?_
    intro _ _
    refine (ih.blockBody _).bind ?_
    intro high body hle hbody
    refine .pure ⟨?_, rfl⟩
    rw [Stmt.Read, Stmt.parts]
    exact .cons .nil (by simp [Stmt.idents]) trivial hbody (Nat.le_refl _) hle
  · exact reads_expressionStatement _

end Step

theorem readsStatements (fuel : Nat) : ReadsStatements fuel := by
  induction fuel with
  | zero =>
      exact readsStatements_zero
  | succ fuel ih =>
      exact ⟨reads_declaration_succ ih, reads_declarations_succ ih, reads_blockBody_succ ih,
        reads_routine_succ ih, reads_methods_succ ih, reads_classDeclaration_succ ih,
        reads_statement_succ ih⟩

theorem reads_program (fuel : Nat) : ∀ low, Reads (program fuel) low fun high ss =>
    Stmt.ReadAll low high (Stmt.partsAll ss) := by
  induction fuel with
  | zero =>
      intro low
      exact .pure .nil
  | succ fuel ih =>
      intro low
      rw [program]
      refine reads_atEnd.skip ?_
      intro _
      refine .ite ?_ ?_
      · intro _
        exact .pure .nil
      · intro _
        have hfirst : Reads (fuelled declaration) low fun high s? =>
            Stmt.ReadAll low high (s?.toList.flatMap Stmt.parts) :=
          .fuelled fun fuel => (readsStatements fuel).declaration low
        refine hfirst.bind ?_
        intro mid first hle hfirst
        refine (ih _).bind ?_
        intro high others hle' hothers
        refine .pure ?_
        rw [Stmt.partsAll_append, partsAll_toList]
        exact hfirst.append hothers hle hle'

end Parse

/-! ## Whole texts -/

theorem ParseState.proper_start {items : List Item} (h : ∀ t, .ok t ∈ items → t.Proper)
    (nextId : Nat) : (ParseState.start items nextId).Proper := by
  intro t ht
  have hmem : t ∈ items.filterMap Except.toOption := List.dropLast_subset _ ht
  rw [List.mem_filterMap] at hmem
  rcases hmem with ⟨item, hitem, hok⟩
  cases item with
  | error e =>
      cases hok
  | ok t' =>
      cases hok
      exact h t hitem

namespace Reading

variable {offset low : Nat} {text : List Char}

/-- Reading uses up the numbers it gives, also if it fails, and gives them to the expressions it
reads. -/
theorem reads_ofText (offset low : Nat) (text : List Char) :
    low ≤ (ofText offset low text).nextId ∧
      ∀ ss, (ofText offset low text).outcome = .ok ss →
        Stmt.ReadAll low (ofText offset low text).nextId (Stmt.partsAll ss) := by
  have hproper : (ParseState.start (scan offset text) low).Proper :=
    ParseState.proper_start (fun _ => proper_of_mem_scan) low
  have h := Parse.Reads.fuelled (fun fuel => Parse.reads_program fuel low) _ hproper rfl
  unfold ofText ofItems
  revert h
  cases Parse.fuelled Parse.program (ParseState.start (scan offset text) low) with
  | error e s =>
      intro h
      refine ⟨h.2, ?_⟩
      intro ss hss
      cases hss
  | ok ss s =>
      intro h
      rcases h with ⟨-, hle, hread⟩
      refine ⟨hle, ?_⟩
      intro ss' hss
      dsimp only at hss
      split at hss
      · cases hss
        exact hread
      · cases hss

theorem le_nextId_ofText (offset low : Nat) (text : List Char) :
    low ≤ (ofText offset low text).nextId :=
  (reads_ofText offset low text).1

/-- The trees of a text without mistakes have numbers of their own, names that are no reserved words,
and branches that declare nothing. -/
theorem readAll_of_ofText {ss : List Stmt} (h : (ofText offset low text).outcome = .ok ss) :
    Stmt.ReadAll low (ofText offset low text).nextId (Stmt.partsAll ss) :=
  (reads_ofText offset low text).2 ss h

end Reading

end Lox
