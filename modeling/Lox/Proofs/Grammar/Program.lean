import Lox.Proofs.Grammar.Complete.Statement
import Lox.Proofs.Grammar.Nearest
import Lox.Proofs.Grammar.Sound.Statement

/-!
# Programs follow the grammar

A text reads as a program if and only if its characters are tokens without mistakes and the tokens
follow the grammar. The program is then the one the tokens are written for.

Soundness is `Parse.yields_program`, completeness `Parse.accepts_program`. Completeness needs every
`else` at the nearest `if` that is open; `Grammar.declarations_nearest` finds such a reading for
whatever follows the grammar.

Main statement: `Reading.ofText_follows_grammar`.
-/

namespace Lox

/-- The text has no mistake in its characters, and these are its tokens in front of the end. -/
def Tokenizes (offset : Nat) (text : List Char) (tokens : List Token) : Prop :=
  ∃ stop, scan offset text = tokens.map Except.ok ++ [.ok (Token.endAt stop)]

/-- Items without mistakes are tokens. -/
theorem ParseState.items_eq_tokens {items : List Item} (h : mistakes items = []) :
    items = (items.filterMap Except.toOption).map Except.ok := by
  induction items with
  | nil =>
      rfl
  | cons item items ih =>
      cases item with
      | ok token =>
          exact congrArg (List.cons (Except.ok token)) (ih h)
      | error e =>
          cases h

theorem ParseState.mistakes_tokens (tokens : List Token) :
    mistakes (tokens.map Except.ok) = [] := by
  induction tokens with
  | nil => rfl
  | cons token tokens ih => exact ih

theorem filterMap_toOption_tokens (tokens : List Token) :
    (tokens.map (Except.ok : Token → Item)).filterMap Except.toOption = tokens := by
  induction tokens with
  | nil => rfl
  | cons token tokens ih => exact congrArg (List.cons token) ih

namespace Reading

open Grammar

variable {offset nextId stop : Nat} {text : List Char}

/-- A text whose tokens follow the grammar is read without mistakes. -/
theorem ofText_ok_of_derives {tokens : List Token} {ss : List Stmt}
    (htokens : Tokenizes offset text tokens) (h : Declarations True tokens ss) :
    ∃ ss', (ofText offset nextId text).outcome = .ok ss' ∧ Stmt.AllAlike ss ss' := by
  rcases htokens with ⟨stop, hscan⟩
  rcases Parse.accepts_program h (Nat.lt_succ_self _) ⟨tokens, stop, nextId, []⟩
    ⟨(List.append_nil tokens).symm, rfl⟩ with ⟨ss', t, hrun, ht, halike⟩
  refine ⟨ss', ?_, halike⟩
  have hread : ofText offset nextId text = ofState ss' t := by
    refine ofText_of_scan hscan (Nat.lt_succ_self _) ?_
    rw [filterMap_toOption_tokens, ParseState.mistakes_tokens]
    exact hrun
  rw [hread, ofState, ht.2]
  rfl

/-- A text that is read without mistakes has tokens that follow the grammar. -/
theorem derives_of_ofText_ok {ss : List Stmt} (h : (ofText offset nextId text).outcome = .ok ss) :
    ∃ tokens, Tokenizes offset text tokens ∧ Declarations True tokens ss := by
  rcases exists_clean h with ⟨items, stop, t, hclean⟩
  refine ⟨items.filterMap Except.toOption, ⟨stop, ?_⟩, ?_⟩
  · rw [← ParseState.items_eq_tokens hclean.mistakes]
    exact hclean.scan
  · rcases Parse.yields_program _ _ _ _ hclean.program hclean.errors with ⟨-, ts, hrest, hderives⟩
    rw [hclean.rest, List.append_nil] at hrest
    have htokens : items.filterMap Except.toOption = ts := hrest
    rw [htokens]
    exact hderives (Nat.lt_succ_self _)

/-- A text reads as a program if and only if it has no mistake in its characters and its tokens follow
the grammar. The statements are then the ones the tokens are written for, in this order, with every
`else` at the nearest `if` that is open and with blocks and a `while` loop for every `for` loop; apart
from the numbers of expressions there are no others. -/
theorem ofText_follows_grammar (offset nextId : Nat) (text : List Char) :
    ((∃ ss, (ofText offset nextId text).outcome = .ok ss) ↔
      ∃ tokens ss, Tokenizes offset text tokens ∧ Declarations False tokens ss) ∧
    ∀ ss, (ofText offset nextId text).outcome = .ok ss →
      ∃ tokens, Tokenizes offset text tokens ∧ Declarations True tokens ss ∧
        ∀ ss', Declarations True tokens ss' →
          Stmt.relabelAll .numberless ss' = Stmt.relabelAll .numberless ss := by
  refine ⟨⟨?_, ?_⟩, ?_⟩
  · rintro ⟨ss, h⟩
    rcases derives_of_ofText_ok h with ⟨tokens, htokens, hderives⟩
    exact ⟨tokens, ss, htokens, hderives.plain⟩
  · rintro ⟨tokens, ss, htokens, hderives⟩
    rcases declarations_nearest hderives with ⟨ss', hderives'⟩
    rcases ofText_ok_of_derives htokens hderives' with ⟨ss'', h, -⟩
    exact ⟨ss'', h⟩
  · intro ss h
    rcases derives_of_ofText_ok h with ⟨tokens, htokens, hderives⟩
    refine ⟨tokens, htokens, hderives, ?_⟩
    intro ss' hderives'
    -- What the other reading leads to is what was read.
    rcases ofText_ok_of_derives htokens hderives' with ⟨ss'', h', halike⟩
    have heq : ss'' = ss := Except.ok.inj (h'.symm.trans h)
    rw [← heq]
    exact halike.symm

end Reading

end Lox
