import Lox.Proofs.Arena.Statement
import Lox.Proofs.Token.Tiling

/-!
# Texts in an arena

A text has no more tokens than bytes, and a `for` is written with three of them. So all nodes that a
text makes can be counted by its bytes, and as long as the bytes can be counted with 32 bits there is
an index for each node.

Main statement: `Arena.readText_agrees`.
-/

namespace Lox

/-! ## Bytes -/

theorem Munch.Takes.weight_le {m : Munch} (h : m.Takes) {start : Nat} {t : Token}
    (ht : m.item start = .ok t) : t.weight ≤ byteLength m.lexeme := by
  have hpos := byteLength_pos h.ne_nil
  unfold Token.weight
  split
  · rename_i hkind
    rcases h.token_item ht with ⟨hlongest, -⟩
    have htext := (hlongest.written.keyword_iff .for).mp hkind
    have hlexeme : m.lexeme = ['f', 'o', 'r'] := String.ofList_injective htext
    rw [hlexeme]
    decide
  · exact hpos

/-- The tokens of a text before its end are no heavier than the text is long. -/
theorem Tiles.weight_le {start : Nat} {text : List Char} {items : List Item}
    (h : Tiles start text items) :
    ∃ front stop, items.filterMap Except.toOption = front ++ [stop] ∧
      Token.weights front ≤ byteLength text := by
  induction h with
  | @last start gap =>
      exact ⟨[], Token.endAt (start + byteLength gap), rfl, Nat.zero_le _⟩
  | @next start gap m items _ _ htakes _ ih =>
      rcases ih with ⟨front, stop, hitems, hweight⟩
      simp only [byteLength_append]
      cases hitem : m.item (start + byteLength gap) with
      | error e =>
          exact ⟨front, stop, hitems, by omega⟩
      | ok t =>
          refine ⟨t :: front, stop, ?_, ?_⟩
          · change t :: items.filterMap Except.toOption = _
            rw [hitems, List.cons_append]
          · have ht := htakes.weight_le hitem
            rw [Token.weights]
            omega

theorem ParseState.weight_start (start : Nat) (text : List Char) (nextId : Nat) :
    (ParseState.start (scan start text) nextId).weight ≤ byteLength text := by
  rcases (tiles_scan start text).weight_le with ⟨front, stop, hitems, hweight⟩
  unfold weight ParseState.start
  dsimp only
  rw [hitems, List.dropLast_concat]
  exact hweight

/-! ## Reading -/

namespace Arena

variable {a : Arena} {roots : List Handle} {offset : Nat} {text : List Char}

/-- What reading into an arena comes to where reading trees comes to statements or mistakes. -/
def Shows (a : Arena) (roots : List Handle) :
    Except (List SyntaxError) (List Index) → Except (List SyntaxError) (List Stmt) → Prop
  | .ok is, .ok ss => a.ShowsAll is ss ∧ a.Forest (is.map .statement ++ roots)
  | .error es, .error es' => es = es'
  | _, _ => False

/-- What an arena is after a text. -/
structure Takes (a : Arena) (roots : List Handle) (text : List Char) (reading : Reading)
    (b : Arena) (result : Except (List SyntaxError) (List Index)) : Prop where
  grows : a.Grows b
  built : b.Built
  size : b.expressions.size = reading.nextId
  count : b.count ≤ a.count + byteLength text
  shows : b.Shows roots result reading.outcome

/-- Reading a text can begin as long as its bytes can be counted along with the nodes. -/
theorem ready_start (hb : a.Built) (hf : a.Forest roots) (offset : Nat)
    (hsmall : a.count + byteLength text < UInt32.size) :
    BuildState.Ready (a.count + byteLength text) roots roots
      ⟨.start (scan offset text) a.expressions.size, a⟩ :=
  ⟨rfl, hb, hf, .refl _, Nat.add_le_add_left (ParseState.weight_start offset text _) _, hsmall⟩

/-- A text is read into an arena as it is read as trees. -/
theorem readText_agrees (hb : a.Built) (hf : a.Forest roots)
    (hsmall : a.count + byteLength text < UInt32.size) :
    a.Takes roots text (.ofText offset a.expressions.size text) (a.readText offset text).1
      (a.readText offset text).2 := by
  have hagrees := Build.agrees_fuelled fun fuel =>
    Build.agrees_program fuel (ready_start hb hf offset hsmall)
  unfold Build.Agrees at hagrees
  unfold readText readItems Reading.ofText Reading.ofItems
  revert hagrees
  dsimp only
  have hcount : ∀ {rest : List Handle} {b' : BuildState},
      b'.Ready (a.count + byteLength text) roots rest →
        b'.arena.count ≤ a.count + byteLength text :=
    fun h => Nat.le_trans (Nat.le_add_right _ _) h.weight
  cases Build.fuelled Build.program ⟨.start (scan offset text) a.expressions.size, a⟩ with
  | ok is b' =>
      cases Parse.fuelled Parse.program (.start (scan offset text) a.expressions.size) with
      | ok ss s =>
          rintro ⟨rfl, hgrows, hgot⟩
          refine ⟨hgrows, hgot.ready.built, hgot.ready.count.symm, hcount hgot.ready, ?_⟩
          dsimp only
          split
          · exact ⟨hgot.shows, hgot.ready.forest⟩
          · exact rfl
      | error e s => exact False.elim
  | error e b' =>
      cases Parse.fuelled Parse.program (.start (scan offset text) a.expressions.size) with
      | ok ss s => exact False.elim
      | error e' s =>
          rintro ⟨rfl, rfl, hgrows, hready'⟩
          exact ⟨hgrows, hready'.built, hready'.count.symm, hcount hready', rfl⟩

end Arena

end Lox
