import Lox.Proofs.Syntax.Parts
import Lox.Syntax.Statement
import Mathlib.Data.List.Basic

/-!
# The shape of what is read

A few facts on trees that need nothing to be known of the tokens they are read from: what a production
can give at all, and that the parts of a part of a program are parts of the program, in the same order.

Main statements: `Parse.gives_forClauses`, `Parse.gives_statement` and `Stmt.sublist_partsAll`.
-/

namespace Lox

namespace Parse

variable {α β : Type}

/-- Whatever a step gives is as `Q` says. -/
def Gives (p : Parse α) (Q : α → Prop) : Prop :=
  ∀ s a s', p s = .ok a s' → Q a

namespace Gives

variable {p : Parse α} {Q : α → Prop}

theorem pure {a : α} (h : Q a) : Gives (pure a : Parse α) Q := by
  intro s a' s' heq
  cases heq
  exact h

theorem fail (cause : SyntaxCause) : Gives (fail cause : Parse α) Q :=
  fun _ _ _ heq => nomatch heq

theorem bindOf {f : α → Parse β} {R : β → Prop} (hp : Gives p Q) (hf : ∀ a, Q a → Gives (f a) R) :
    Gives (p >>= f) R := by
  intro s b s' heq
  change EStateM.bind p f s = _ at heq
  unfold EStateM.bind at heq
  cases hrun : p s with
  | ok a s₁ =>
      rw [hrun] at heq
      exact hf a (hp _ _ _ hrun) _ _ _ heq
  | error e s₁ =>
      rw [hrun] at heq
      cases heq

/-- Nothing need be known of the first step. -/
theorem bind {f : α → Parse β} {R : β → Prop} (hf : ∀ a, Gives (f a) R) : Gives (p >>= f) R :=
  bindOf (Q := fun _ => True) (fun _ _ _ _ => trivial) fun a _ => hf a

theorem ite {q : Parse α} {c : Prop} [Decidable c] (hp : Gives p Q) (hq : Gives q Q) :
    Gives (if c then p else q) Q := by
  split
  · exact hp
  · exact hq

end Gives

/-! ## Loops -/

/-- The initializer of a loop is the declaration of a variable or an expression. -/
def ForClauses.Plain (clauses : ForClauses) : Prop :=
  ∀ s ∈ clauses.initializer, (∃ name initial, s = .var name initial) ∨ ∃ e, s = .expression e

theorem gives_expressionStatement :
    Gives expressionStatement fun s => ∃ e, s = Stmt.expression e :=
  .bind fun value => .bind fun _ => .pure ⟨value, rfl⟩

theorem gives_varDeclaration :
    Gives varDeclaration fun s => ∃ name initial, s = Stmt.var name initial :=
  .bind fun _ => .bind fun name => .bind fun initial => .bind fun _ => .pure ⟨name, initial, rfl⟩

theorem gives_forInitializer : Gives forInitializer fun s? =>
    ∀ s ∈ s?, (∃ name initial, s = Stmt.var name initial) ∨ ∃ e, s = Stmt.expression e := by
  refine .bind fun _ => .ite (.pure fun s hs => nomatch hs) ?_
  rw [map_eq_pure_bind]
  refine .bindOf (Q := fun s => (∃ name initial, s = Stmt.var name initial) ∨
    ∃ e, s = Stmt.expression e) (.bind fun _ => .ite ?_ ?_) ?_
  · exact fun s a s' heq => .inl (gives_varDeclaration s a s' heq)
  · exact fun s a s' heq => .inr (gives_expressionStatement s a s' heq)
  · intro s hs
    refine .pure ?_
    intro t ht
    cases ht
    exact hs

theorem gives_forClauses : Gives forClauses ForClauses.Plain :=
  .bindOf gives_forInitializer fun _ hplain =>
    .bind fun _ => .bind fun _ => .bind fun _ => .bind fun _ => .pure hplain

theorem gives_forLoop (clauses : ForClauses) (body : Stmt) :
    Gives (forLoop clauses body) fun s => s.declares? = none := by
  refine .bind fun test => .pure ?_
  unfold ForClauses.around
  cases clauses.initializer <;> rfl

/-- A statement that is no declaration declares nothing. -/
theorem gives_statement (fuel : Nat) : Gives (statement fuel) fun s => s.declares? = none := by
  cases fuel with
  | zero => exact .fail _
  | succ fuel =>
      rw [statement]
      refine .bind fun token => ?_
      -- One production for each token that a statement can begin with.
      split
      · exact .bind fun _ => .bind fun _ => .bind fun clauses => .bind fun body =>
          gives_forLoop clauses body
      · exact .bind fun _ => .bind fun _ => .bind fun _ => .bind fun _ => .bind fun _ =>
          .bind fun _ => .pure rfl
      · exact .bind fun _ => .bind fun _ => .bind fun _ => .pure rfl
      · exact .bind fun _ => .bind fun _ => .bind fun _ => .pure rfl
      · exact .bind fun _ => .bind fun _ => .bind fun _ => .bind fun _ => .bind fun _ => .pure rfl
      · exact .bind fun _ => .bind fun _ => .pure rfl
      · exact .bind fun _ => .bind fun _ => .pure rfl

end Parse

/-! ## Parts of parts -/

namespace Stmt

mutual

theorem sublist_parts {t : Stmt} : (s : Stmt) → t ∈ s.parts → t.parts.Sublist s.parts
  | .expression _, h | .print _, h | .var _ _, h | .return _ _, h => by
      cases List.mem_singleton.mp h
      exact .refl _
  | .block body, h => by
      rcases List.mem_cons.mp h with rfl | h
      · exact .refl _
      · exact (sublist_partsAll body h).cons _
  | .ifElse _ consequent alternative, h => by
      rcases List.mem_cons.mp h with rfl | h
      · exact .refl _
      · rcases List.mem_append.mp h with h | h
        · exact ((sublist_parts consequent h).trans (List.sublist_append_left _ _)).cons _
        · exact ((sublist_partsOption alternative h).trans (List.sublist_append_right _ _)).cons _
  | .while _ body, h => by
      rcases List.mem_cons.mp h with rfl | h
      · exact .refl _
      · exact (sublist_parts body h).cons _
  | .function decl, h => by
      rcases List.mem_cons.mp h with rfl | h
      · exact .refl _
      · exact (sublist_partsRoutine decl h).cons _
  | .class _ _ methods, h => by
      rcases List.mem_cons.mp h with rfl | h
      · exact .refl _
      · exact (sublist_partsMethods methods h).cons _

theorem sublist_partsAll {t : Stmt} : (ss : List Stmt) → t ∈ partsAll ss →
    t.parts.Sublist (partsAll ss)
  | s :: ss, h => by
      rcases List.mem_append.mp h with h | h
      · exact (sublist_parts s h).trans (List.sublist_append_left _ _)
      · exact (sublist_partsAll ss h).trans (List.sublist_append_right _ _)

theorem sublist_partsOption {t : Stmt} : (s? : Option Stmt) → t ∈ partsOption s? →
    t.parts.Sublist (partsOption s?)
  | some s, h => sublist_parts s h

theorem sublist_partsRoutine {t : Stmt} : (r : Routine Stmt) → t ∈ partsRoutine r →
    t.parts.Sublist (partsRoutine r)
  | ⟨_, _, body⟩, h => sublist_partsAll body h

theorem sublist_partsMethods {t : Stmt} : (methods : List (Routine Stmt)) →
    t ∈ partsMethods methods → t.parts.Sublist (partsMethods methods)
  | method :: methods, h => by
      rcases List.mem_append.mp h with h | h
      · exact (sublist_partsRoutine method h).trans (List.sublist_append_left _ _)
      · exact (sublist_partsMethods methods h).trans (List.sublist_append_right _ _)

end

end Stmt

end Lox
