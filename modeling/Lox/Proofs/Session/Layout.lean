import Lox.Proofs.Session.Reject
import Lox.Proofs.Token.Restart

/-!
# Layout cannot be observed

White space, newlines and comments decide where the tokens of a text stand, and nothing else. Every
place is carried from the tokens into the program, and from there into the store and into reports. So
two runs are compared after all places have been left out.

Main statement: `Session.layout_unobservable`.
-/

namespace Lox

variable {text text' : List Char}

/-- The change that leaves of a place only whether anything stands there. -/
def Relabel.unplaced : Relabel :=
  ⟨id, fun s => ⟨0, if s.isEmpty then 0 else 1⟩, []⟩

theorem Relabel.isEmpty_unplaced (s : Span) : (unplaced.place s).isEmpty = s.isEmpty := by
  change Span.isEmpty ⟨0, if s.isEmpty then 0 else 1⟩ = s.isEmpty
  cases s.isEmpty <;> rfl

/-! ## Tokens -/

/-- The tokens of a text without their places: what kinds they are of and how they are written. -/
def spellings (text : List Char) : List (Kind × String) :=
  ((scan 0 text).filterMap Except.toOption).map fun t => (t.kind, t.lexeme)

/-- A token that is known by its kind and its lexeme. -/
def Token.ofSpelling (s : Kind × String) : Token :=
  ⟨s.1, ⟨0, if byteLength s.2.toList == 0 then 0 else 1⟩, s.2⟩

theorem Token.relabel_unplaced {start : Nat} {t : Token} (h : .ok t ∈ scan start text) :
    t.relabel .unplaced = ofSpelling (t.kind, t.lexeme) := by
  rcases exists_of_mem_scan h with ⟨left, right, -, hspan⟩
  -- The token takes up a place if and only if its lexeme has a character.
  have hempty : t.span.isEmpty = (byteLength t.lexeme.toList == 0) := by
    rw [hspan]
    rfl
  simp only [relabel, ofSpelling, Relabel.unplaced, hempty]

/-- Without their places, the items of a text that has no mistake in its characters are given by the
kinds and the lexemes of its tokens. -/
theorem map_unplaced_scan (hclean : ∀ e, .error e ∉ scan 0 text) (start : Nat) :
    (scan start text).map (Item.relabel .unplaced) =
      (spellings text).map fun s => .ok (Token.ofSpelling s) := by
  have hitems : ∀ items : List Item, (∀ item ∈ items, item ∈ scan 0 text) →
      (items.map (Item.relabel (.moved 0 start))).map (Item.relabel .unplaced) =
        ((items.filterMap Except.toOption).map fun t => (t.kind, t.lexeme)).map
          fun s => .ok (Token.ofSpelling s) := by
    intro items
    induction items with
    | nil =>
        intro _
        rfl
    | cons item items ih =>
        intro hmem
        have hitem := hmem item List.mem_cons_self
        have htail := ih fun other hother => hmem other (List.mem_cons_of_mem item hother)
        cases item with
        | ok t =>
            -- Moving a token leaves its length.
            have htoken : (t.relabel (.moved 0 start)).relabel .unplaced =
                Token.ofSpelling (t.kind, t.lexeme) := (Token.relabel_unplaced hitem :)
            exact congrArg₂ List.cons (congrArg Except.ok htoken) htail
        | error e =>
            exact absurd hitem (hclean e)
  rw [scan_moved]
  exact hitems _ fun _ => id

/-! ## Reading -/

/-- What is read of a text, without places, is what is read of its items without places. -/
theorem Reading.relabel_unplaced (offset nextId : Nat) (text : List Char) :
    (ofText offset nextId text).relabel .unplaced =
      ofItems ((scan offset text).map (Item.relabel .unplaced)) nextId := by
  rcases exists_scan_eq offset text with ⟨items, stop, hscan⟩
  have hstop : Relabel.unplaced.place ⟨stop, 0⟩ = ⟨0, 0⟩ := rfl
  unfold ofText
  rw [hscan, List.map_append, List.map_singleton, Item.relabel, Token.relabel_endAt hstop]
  have hnumber : ∀ n, nextId ≤ n →
      Relabel.unplaced.number (n + 1) = Relabel.unplaced.number n + 1 := fun _ _ => rfl
  exact (ofItems_relabel hstop hnumber items).symm

namespace Session

variable {fuel : Nat} {clock : Nat → Except String Float}

/-- Texts with the same tokens are read and resolved in the same way, apart from places. -/
theorem relabel_unplaced_chunk (s : Session) (hclean : ∀ e, .error e ∉ scan 0 text)
    (hclean' : ∀ e, .error e ∉ scan 0 text') (hsame : spellings text = spellings text') :
    (s.chunk text).relabel .unplaced = (s.chunk text').relabel .unplaced := by
  have hread : ∀ {chars}, (∀ e, .error e ∉ scan 0 chars) → (s.chunk chars).relabel .unplaced =
      .ofReading (.ofItems ((spellings chars).map fun t => .ok (Token.ofSpelling t)) s.nextId) := by
    intro chars h
    rw [← map_unplaced_scan h (byteLength s.text), ← Reading.relabel_unplaced,
      Chunk.ofReading_relabel]
    rfl
  rw [hread hclean, hread hclean', hsame]

/-! ## Running -/

/-- A session apart from its text and from places. -/
def unplaced (s : Session) : Session :=
  { s with text := [], machine := s.machine.relabel .unplaced }

/-- What a text leads to and what it shows, apart from places. -/
def unplaced? (result : Option (Session × Answer)) : Option (Session × Answer) :=
  result.map fun r =>
    (r.1.unplaced, { r.2 with problems := r.2.problems.map (Problem.relabel .unplaced) })

/-- Runs a text that has been read and resolved. -/
def runChunk? (fuel : Nat) (clock : Nat → Except String Float) (c : Chunk) (s : Session) :
    Option (Session × Answer) :=
  match c.outcome with
  | .error problems => some ({ s with nextId := c.nextId }.reject problems)
  | .ok (statements, locals) =>
      interpret? fuel clock statements { s with nextId := c.nextId, locals := s.locals ++ locals }

theorem unplaced?_afterRun? (s : Session) (o : Outcome Unit) :
    unplaced? (s.afterRun? o) = s.unplaced.afterRun? (o.relabel .unplaced id) := by
  cases o with
  | timeout =>
      rfl
  | ended result m =>
      have hprinted : (m.relabel .unplaced).printed = m.printed := List.append_nil m.printed
      cases result with
      | ok _ =>
          simp only [Outcome.relabel, Fault.relabelOr, afterRun?, hprinted]
          rfl
      | error fault =>
          simp only [Outcome.relabel, Fault.relabelOr, afterRun?, hprinted]
          rfl

/-- Running is the same without places. -/
theorem unplaced?_runChunk? (c : Chunk) (s : Session) :
    unplaced? (runChunk? fuel clock c s) =
      runChunk? fuel clock (c.relabel .unplaced) s.unplaced := by
  have hlocals : ∀ locals : Locals, locals.relabel .unplaced = locals :=
    fun locals => List.map_id locals
  rcases c with ⟨nextId, outcome⟩
  cases outcome with
  | error problems =>
      rfl
  | ok accepted =>
      rcases accepted with ⟨ss, locals⟩
      let t : Session := { s with nextId, locals := s.locals ++ locals }
      have hmirrors : (t.setting clock).Mirrors .unplaced (t.setting clock) :=
        ⟨fun _ => rfl, rfl, rfl⟩
      have hrun := Eval.run_interpret_relabel hmirrors fuel t.globals ss t.machine
      calc
        unplaced? (runChunk? fuel clock ⟨nextId, .ok (ss, locals)⟩ s)
            = unplaced? (interpret? fuel clock ss t) := rfl
        _ = t.unplaced.afterRun? (((Eval.interpret t.globals ss (t.setting clock) t.machine).run
              (perform (t.setting clock) fuel)).relabel .unplaced id) := by
            rw [interpret?_eq, unplaced?_afterRun?]
        _ = interpret? fuel clock (Stmt.relabelAll .unplaced ss) t.unplaced := by
            rw [← hrun]
            rfl
        _ = runChunk? fuel clock (Chunk.relabel .unplaced ⟨nextId, .ok (ss, locals)⟩) s.unplaced := by
            simp only [runChunk?, Chunk.relabel, hlocals]
            rfl

/-- Apart from places a problem says the same. -/
theorem gist_of_unplaced? (result : Option (Session × Answer)) :
    (unplaced? result).map (fun r => r.2.gist) = result.map fun r => r.2.gist := by
  cases result with
  | none =>
      rfl
  | some r =>
      have hwording : ∀ p : Problem, (p.relabel .unplaced).wording = p.wording :=
        fun p => p.relabel_wording Relabel.isEmpty_unplaced
      simp [unplaced?, Answer.gist, hwording]

/-- Layout cannot be observed. In any session, let two texts have no mistake in their characters, and
let their tokens be of the same kinds and written alike. Then both texts lead to the same session,
with the same globals and the same store, apart from what was written and where; they show the same
lines and the same problems, apart from places; so the status is the same, and all messages are. -/
theorem layout_unobservable (s : Session) (hclean : ∀ e, .error e ∉ scan 0 text)
    (hclean' : ∀ e, .error e ∉ scan 0 text') (hsame : spellings text = spellings text')
    (fuel : Nat) (clock : Nat → Except String Float) :
    unplaced? (s.run? fuel clock text) = unplaced? (s.run? fuel clock text') ∧
      (s.run? fuel clock text).map (fun r => r.2.gist) =
        (s.run? fuel clock text').map fun r => r.2.gist := by
  have hrun : ∀ chars, unplaced? (s.run? fuel clock chars) =
      runChunk? fuel clock ((s.chunk chars).relabel .unplaced) s.unplaced := by
    intro chars
    exact unplaced?_runChunk? (s.chunk chars) { s with text := s.text ++ chars }
  have hunplaced : unplaced? (s.run? fuel clock text) = unplaced? (s.run? fuel clock text') := by
    rw [hrun, hrun, s.relabel_unplaced_chunk hclean hclean' hsame]
  refine ⟨hunplaced, ?_⟩
  rw [← gist_of_unplaced?, hunplaced, gist_of_unplaced?]

theorem scan_spaced : scan 0 "nil + 1;".toList =
    [.ok ⟨.keyword .nil, ⟨0, 3⟩, "nil"⟩, .ok ⟨.plus, ⟨4, 1⟩, "+"⟩,
      .ok ⟨.number, ⟨6, 1⟩, "1"⟩, .ok ⟨.semicolon, ⟨7, 1⟩, ";"⟩, .ok (Token.endAt 8)] := by
  with_unfolding_all rfl

theorem scan_commented : scan 0 "nil//\n+1;".toList =
    [.ok ⟨.keyword .nil, ⟨0, 3⟩, "nil"⟩, .ok ⟨.plus, ⟨6, 1⟩, "+"⟩,
      .ok ⟨.number, ⟨7, 1⟩, "1"⟩, .ok ⟨.semicolon, ⟨8, 1⟩, ";"⟩, .ok (Token.endAt 9)] := by
  with_unfolding_all rfl

/-- A comment and a newline, in a program that stops at a fault. -/
theorem layout_unobservable_commented :
    spellings "nil + 1;".toList = spellings "nil//\n+1;".toList ∧
      (Session.empty.run? 2 (fun _ => .error "no clock") "nil + 1;".toList).map
          (fun r => r.2.gist) =
        (Session.empty.run? 2 (fun _ => .error "no clock") "nil//\n+1;".toList).map
          fun r => r.2.gist := by
  have hsame : spellings "nil + 1;".toList = spellings "nil//\n+1;".toList := by
    rw [spellings, spellings, scan_spaced, scan_commented]
    rfl
  refine ⟨hsame, (layout_unobservable .empty ?_ ?_ hsame 2 fun _ => .error "no clock").2⟩
  · rw [scan_spaced]
    simp
  · rw [scan_commented]
    simp

end Session

end Lox
