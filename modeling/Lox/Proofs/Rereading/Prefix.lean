import Lox.Proofs.Rereading.Text
import Lox.Proofs.Token.Restart

/-!
# What stands before a text

A text that ends a line and has no mistake changes nothing of what is read behind it. What follows is
read as if it stood alone, mistakes and recovery from them included; its expressions have later numbers,
and its places are further on.

Main statement: `Reading.ofText_ignores_front`.
-/

namespace Lox

namespace Reading

variable {offset nextId : Nat} {xs ys : List Char} {ss : List Stmt}

/-- The kind of the first token does not depend on where a text begins. -/
theorem head_kind_moved {kind : Kind} (start : Nat)
    (hkind : ∀ t ∈ ((scan 0 ys).filterMap Except.toOption).head?, t.kind ≠ kind) :
    ∀ t ∈ ((scan start ys).filterMap Except.toOption).head?, t.kind ≠ kind := by
  rw [scan_moved, ParseState.tokens_relabel, List.head?_map]
  intro t ht
  rcases Option.map_eq_some_iff.mp ht with ⟨u, hu, rfl⟩
  exact hkind u hu

/-- A text is read anywhere as it is read alone. -/
theorem ofText_moved (count distance : Nat) (text : List Char) :
    ofText distance count text = (ofText 0 0 text).relabel (.moved count distance) := by
  have hsucc : ∀ n, 0 ≤ n → (Relabel.moved count distance).number (n + 1) =
      (Relabel.moved count distance).number n + 1 :=
    fun n _ => Nat.add_right_comm n 1 count
  calc
    ofText distance count text
        = ofText (0 + distance) ((Relabel.moved count distance).number 0) text := by
          rw [Nat.zero_add, show (Relabel.moved count distance).number 0 = count from
            Nat.zero_add count]
    _ = (ofText 0 0 text).relabel (.moved count distance) := ofText_shift rfl hsucc text

/-- A first text that has no mistake and ends a line does not change what is reported about a second
one that does not go on with `else`. The two read as a program exactly if the second one does: they give
the statements of the first and then those of the second. If the second has mistakes, these are the
mistakes of both, in the same order, further into the text by the length of the first. -/
theorem ofText_ignores_front (hline : EndsLine xs) (hfirst : (ofText offset nextId xs).outcome = .ok ss)
    (helse : ∀ t ∈ ((scan 0 ys).filterMap Except.toOption).head?, t.kind ≠ .keyword .else) :
    let whole := ofText offset nextId (xs ++ ys)
    let alone := ofText 0 0 ys
    let f := Relabel.moved (ofText offset nextId xs).nextId (offset + byteLength xs)
    ((∃ ss', whole.outcome = .ok ss') ↔ ∃ ss', alone.outcome = .ok ss') ∧
      (∀ ss', alone.outcome = .ok ss' →
        whole = ⟨f.number alone.nextId, .ok (ss ++ Stmt.relabelAll f ss')⟩) ∧
      ∀ errors, alone.outcome = .error errors →
        whole = ⟨f.number alone.nextId, .error (errors.map (SyntaxError.relabel f))⟩ := by
  intro whole alone f
  have hwhole : whole = ⟨(alone.relabel f).nextId, (alone.relabel f).outcome.map (ss ++ ·)⟩ := by
    have hbehind := ofText_behind hline hfirst (head_kind_moved (offset + byteLength xs) helse)
    rw [ofText_moved (ofText offset nextId xs).nextId (offset + byteLength xs) ys] at hbehind
    exact hbehind
  rw [hwhole, relabel]
  cases houtcome : alone.outcome with
  | ok ss' =>
      refine ⟨⟨fun _ => ⟨ss', rfl⟩, fun _ => ⟨_, rfl⟩⟩, ?_, nofun⟩
      intro ss'' hss
      cases hss
      rfl
  | error errors =>
      refine ⟨⟨nofun, nofun⟩, nofun, ?_⟩
      intro errors' herrors
      cases herrors
      rfl

/-- A mistake in the characters and one in the grammar, both behind a declaration. -/
theorem ofText_ignores_front_failing :
    ofText 0 0 ("var a;\n".toList ++ "@print;".toList) =
      ⟨0, .error [⟨.lexical (.unrecognized '@'), ⟨7, 1⟩⟩, ⟨.expectedExpression, ⟨13, 1⟩⟩]⟩ := by
  have hfirst : ofText 0 0 "var a;\n".toList = ⟨0, .ok [.var ⟨"a", 4, 1⟩ none]⟩ := by
    with_unfolding_all rfl
  have halone : ofText 0 0 "@print;".toList =
      ⟨0, .error [⟨.lexical (.unrecognized '@'), ⟨0, 1⟩⟩, ⟨.expectedExpression, ⟨6, 1⟩⟩]⟩ := by
    with_unfolding_all rfl
  have hhead : ((scan 0 "@print;".toList).filterMap Except.toOption).head? =
      some ⟨.keyword .print, ⟨1, 5⟩, "print"⟩ := by
    with_unfolding_all rfl
  have helse : ∀ t ∈ ((scan 0 "@print;".toList).filterMap Except.toOption).head?,
      t.kind ≠ .keyword .else := by
    rw [hhead]
    intro t ht
    cases ht
    decide
  have hwhole := (ofText_ignores_front (.inr rfl) (congrArg outcome hfirst) helse).2.2 _
    (congrArg outcome halone)
  rw [hfirst, halone] at hwhole
  exact hwhole

end Reading

end Lox
