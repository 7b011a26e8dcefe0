import Lox.Proofs.Session.Spelling
import Lox.Proofs.Text.Place

/-!
# Both styles cite one place

In plain style a problem is cited by the line table, which counts bytes. In rich style the same byte
is taken as the index of a character. Both cite one place exactly if all characters before the span of
the problem are single bytes; after a longer character the rich report is on a later place, and may
lose remarks.

Main statement: `Session.Recorded.cites_one_place`.
-/

namespace Lox

/-- The mistake is one in the grammar, and the text does not end where it is found. -/
def SyntaxError.cites (e : SyntaxError) : Bool :=
  match e.cause with
  | .lexical _ => false
  | _ => !e.isAtEnd

namespace Problem

/-- The problem is neither a mistake in the characters nor found where the text ends. -/
def cites : Problem → Bool
  | .grammar e => e.cites
  | .scope _ | .fault _ => true

/-- A problem in plain style, with the line and the characters it is about. -/
def plainOn (line : Nat) (covered : List Char) : Problem → String
  | .grammar e =>
      "[line " ++ toString line ++ "] Error at '" ++ String.ofList covered ++ "': " ++ e.message
  | .scope e =>
      "[line " ++ toString line ++ "] Error at '" ++ String.ofList covered ++ "': " ++ e.message
  | .fault f => f.cause.message ++ "\n[line " ++ toString line ++ "]"

end Problem

/-- A notice in rich style with all its remarks at a place. -/
def Notice.snippetAt (n : Notice) (path : String) (p : Position) : Snippet :=
  { head := "[" ++ n.code ++ "] Error: " ++ n.message
    place := some (path ++ ":" ++ toString p.line ++ ":" ++ toString p.column)
    remarks := n.remarks.map Remark.text }

section Reports

variable {problem : Problem} {text covered : List Char}

/-! ## Plain style -/

theorem plainAt_of_slice? {s : Span} (message : String) (h : slice? text s = some covered) :
    plainAt (.ofText text) text s message =
      "[line " ++ toString ((LineTable.ofText text).lineOf s) ++ "] Error at '" ++
        String.ofList covered ++ "': " ++ message := by
  rw [plainAt, excerpt, h, Option.getD_some]

theorem SyntaxError.plain_of_cites {e : SyntaxError} (h : e.cites = true) :
    e.plain (.ofText text) text = plainAt (.ofText text) text e.span e.message := by
  unfold cites at h
  unfold plain
  split at h
  · cases h
  · rw [Bool.not_eq_true'] at h
    simp only [h, Bool.false_eq_true, if_false]

theorem SyntaxError.isEmpty_of_cites {e : SyntaxError} (h : e.cites = true) :
    e.span.isEmpty = false := by
  unfold cites isAtEnd at h
  split at h
  · cases h
  · simpa using h

theorem Problem.plain_of_cites (h : problem.cites = true)
    (hcovered : slice? text problem.notice.span = some covered) :
    problem.plain (.ofText text) text =
      problem.plainOn ((LineTable.ofText text).lineOf problem.notice.span) covered := by
  cases problem with
  | grammar e =>
      exact (SyntaxError.plain_of_cites h).trans (plainAt_of_slice? e.message hcovered)
  | scope e =>
      exact plainAt_of_slice? e.message hcovered
  | fault f =>
      rfl

/-! ## Rich style -/

theorem Span.drawn_of_not_isEmpty {s : Span} (h : s.isEmpty = false) : s.drawn = s := by
  rw [drawn, h, Bool.false_and, if_neg Bool.false_ne_true]

theorem Span.Covers.isEmpty {s : Span} (h : s.Covers text) : s.isEmpty = false := by
  rcases h with ⟨covered, hslice, hsome⟩
  rcases exists_of_slice? hslice with ⟨-, -, -, -, hlength⟩
  rcases List.exists_cons_of_ne_nil hsome with ⟨c, cs, rfl⟩
  have hpos : 0 < c.utf8Size := c.utf8Size_pos
  rw [byteLength_cons] at hlength
  rw [Span.isEmpty, beq_eq_false_iff_ne]
  omega

theorem Problem.remarks_ne_nil (problem : Problem) : problem.notice.remarks ≠ [] := by
  cases problem with
  | grammar e => exact List.cons_ne_nil _ _
  | fault f => exact List.cons_ne_nil _ _
  | scope e =>
      show e.remarks ≠ []
      unfold ScopeError.remarks
      split <;> exact List.cons_ne_nil _ _

/-- All remarks are shown that end before the first longer character. -/
theorem Notice.shown_eq {n : Notice} {plain more : List Char} (hplain : SingleByte plain)
    (hcovers : ∀ place ∈ n.places, place.Covers (plain ++ more))
    (hstop : ∀ place ∈ n.places, place.stop ≤ byteLength plain) :
    n.shown (plain ++ more).length = n.remarks := by
  rw [shown, List.filter_eq_self]
  intro r hr
  have hplace : r.span ∈ n.places := List.mem_cons_of_mem _ (List.mem_map_of_mem hr)
  have hlength : byteLength plain = plain.length := byteLength_eq_length_iff.mpr hplain
  have hend : r.span.stop ≤ byteLength plain := hstop _ hplace
  have hstart : r.span.start ≤ r.span.stop := Nat.le_add_right _ _
  rw [Span.drawn_of_not_isEmpty (hcovers _ hplace).isEmpty, Span.drawable, List.length_append]
  simp only [Bool.and_eq_true, Bool.or_eq_true, decide_eq_true_eq]
  omega

theorem Notice.snippet_eq {n : Notice} {path : String} {p : Position}
    (hsome : n.remarks ≠ []) (hshown : n.shown text.length = n.remarks)
    (hplace : Position.ofIndex? text n.span.drawn.start = some p) :
    n.snippet path text = n.snippetAt path p := by
  have hempty : n.remarks.isEmpty = false := by
    rw [List.isEmpty_eq_false_iff]
    exact hsome
  rw [snippet, hshown, hempty, place, hplace]
  rfl

end Reports

/-! ## Sessions -/

namespace Session

variable {pieces : List Piece} {s s' : Session} {a : Arena} {fuel : Nat}
  {clock : Nat → Except String Float} {text : List Char} {answer : Answer} {problem : Problem}

/-- What a problem that cites characters cites. -/
theorem Recorded.covers_places (h : Recorded pieces s a)
    (hrun : s.run? fuel clock text = some (s', answer)) (hsmall : byteLength s'.text < UInt32.size)
    (hproblem : problem ∈ answer.problems) (hcites : problem.cites = true) :
    ∀ place ∈ problem.notice.places, place.Covers s'.text := by
  intro place hplace
  rcases h.cites hrun hsmall problem hproblem place hplace with hcovers | ⟨⟨e, rfl⟩, rfl⟩
  · exact hcovers
  · -- A mistake in the grammar cites one place only, and that is not empty.
    have hspan : (⟨byteLength s'.text, 0⟩ : Span) = e.span := by
      rcases List.mem_cons.mp hplace with hspan | hremark
      · exact hspan
      · exact List.mem_singleton.mp hremark
    have hempty := SyntaxError.isEmpty_of_cites hcites
    rw [← hspan] at hempty
    cases hempty

/-- Whatever a text of a session has to report, apart from mistakes in its characters and from what is
found at its end, is about characters that stand in it. In plain style the line is one more than the
number of newlines before them, and they are quoted. In rich style the place found is that line and the
column after the characters before them exactly if those are all single bytes. If no longer character
stands before the end of any place that the problem cites, then all its remarks are shown, too. -/
theorem Recorded.cites_one_place (h : Recorded pieces s a)
    (hrun : s.run? fuel clock text = some (s', answer)) (hsmall : byteLength s'.text < UInt32.size)
    (hlines : NewlineOnly s'.text) (hproblem : problem ∈ answer.problems) (hcites : problem.cites = true) :
    ∃ before covered after, s'.text = before ++ covered ++ after ∧
      problem.notice.span = ⟨byteLength before, byteLength covered⟩ ∧
      problem.plain (.ofText s'.text) s'.text = problem.plainOn (Position.behind before).line covered ∧
      (Position.ofIndex? s'.text problem.notice.span.drawn.start = some (.behind before) ↔
        SingleByte before) ∧
      ∀ plain more, s'.text = plain ++ more → SingleByte plain →
        (∀ place ∈ problem.notice.places, place.stop ≤ byteLength plain) →
          ∀ path, problem.notice.snippet path s'.text =
            problem.notice.snippetAt path (.behind before) := by
  have hplaces := h.covers_places hrun hsmall hproblem hcites
  have hspan : problem.notice.span ∈ problem.notice.places := List.mem_cons_self
  have hcovers := hplaces _ hspan
  have hdrawn := Span.drawn_of_not_isEmpty hcovers.isEmpty
  rcases hcovers with ⟨covered, hslice, hsome⟩
  rcases exists_of_slice? hslice with ⟨before, after, htext, hstart, hlength⟩
  have hrest : covered ++ after ≠ [] := List.append_ne_nil_of_left_ne_nil hsome after
  have hplain := Problem.plain_of_cites hcites hslice
  rw [LineTable.lineOf, ← hstart] at hplain
  rw [List.append_assoc] at htext
  have hbefore : NewlineOnly before := fun c hc =>
    hlines c (by rw [htext]; exact List.mem_append_left _ hc)
  have hiff := Position.ofIndex?_byteLength_iff hbefore hrest
  rw [← htext, hstart] at hiff
  refine ⟨before, covered, after, ?_, ?_, ?_, ?_, ?_⟩
  · rw [htext, List.append_assoc]
  · rw [hstart, hlength]
  · rw [hplain, htext, LineTable.lineAt_byteLength]
    rfl
  · rw [hdrawn]
    exact hiff
  · intro plain more hsplit hsingle hstops path
    have hshown : problem.notice.shown s'.text.length = problem.notice.remarks := by
      rw [hsplit] at hplaces ⊢
      exact Notice.shown_eq hsingle hplaces hstops
    have hle : byteLength before ≤ byteLength plain := by
      have hstop := hstops _ hspan
      rw [Span.stop] at hstop
      omega
    have hsingle : SingleByte before := by
      rw [hsplit] at htext
      exact hsingle.of_le htext hle
    refine Notice.snippet_eq problem.remarks_ne_nil hshown ?_
    rw [hdrawn]
    exact hiff.mpr hsingle

/-- The operator on the second line fails, and both styles say so. -/
theorem cites_one_place_secondLine :
    ∃ s' answer problem,
      Session.empty.run? 9 (fun _ => .error "no clock") "1;\n-nil;".toList = some (s', answer) ∧
        problem ∈ answer.problems ∧
          problem.plain (.ofText s'.text) s'.text = problem.plainOn 2 ['-'] ∧
            problem.notice.snippet "test.lox" s'.text = problem.notice.snippetAt "test.lox" ⟨2, 1⟩ := by
  have hruns : ((Session.empty.run? 9 (fun _ => .error "no clock") "1;\n-nil;".toList).map
      fun r => r.2.problems.map fun problem => (problem.cites, problem.notice.places)) =
        some [(true, [⟨3, 1⟩, ⟨3, 1⟩])] := by
    decide +kernel
  rcases Option.map_eq_some_iff.mp hruns with ⟨⟨s', answer⟩, hrun, hproblems⟩
  rcases List.map_eq_singleton_iff.mp hproblems with ⟨problem, hsingle, hproblem⟩
  rcases Prod.mk.inj hproblem with ⟨hcites, hplaces⟩
  have hmem : problem ∈ answer.problems := by
    rw [hsingle]
    exact List.mem_cons_self
  have htext : s'.text = "1;\n-nil;".toList := text_of_run? hrun
  rcases Recorded.empty.cites_one_place hrun (by rw [htext]; decide) (by rw [htext]; decide) hmem
    hcites with ⟨before, covered, after, hsplit, hspan, hplain, -, hsnippet⟩
  -- The two characters of the span are found by cutting the text.
  have hfirst : problem.notice.span = ⟨3, 1⟩ := (List.cons.inj hplaces).1
  rw [hfirst] at hspan
  rw [htext] at hsplit
  have hbefore : before = "1;\n".toList := by
    have hlength : byteLength before = 3 := (congrArg Span.start hspan).symm
    have htake := takeBytes?_byteLength before (covered ++ after)
    rw [← List.append_assoc, ← hsplit, hlength] at htake
    exact Option.some.inj (htake.symm.trans rfl)
  have hcovered : covered = ['-'] := by
    have hslice := slice?_middle before covered after
    rw [← hsplit, ← hspan] at hslice
    exact Option.some.inj (hslice.symm.trans rfl)
  rw [hbefore] at hplain hsnippet
  rw [hcovered] at hplain
  refine ⟨s', answer, problem, hrun, hmem, hplain, ?_⟩
  refine hsnippet s'.text [] (List.append_nil _).symm (by rw [htext]; decide) ?_ "test.lox"
  rw [hplaces, htext]
  decide

/-- A string of longer characters stands before the operator of the first line. The line of the plain
report is right, but the snippet is placed on the next one. -/
theorem cites_next_line :
    ∃ s' answer problem,
      Session.empty.run? 9 (fun _ => .error "no clock") "\"éééééé\";-nil;\n1;".toList =
          some (s', answer) ∧
        byteLength s'.text < UInt32.size ∧ NewlineOnly s'.text ∧
          problem ∈ answer.problems ∧ problem.cites = true ∧
            problem.plain (.ofText s'.text) s'.text = "Operand must be a number.\n[line 1]" ∧
              (problem.notice.snippet "test.lox" s'.text).place = some "test.lox:2:1" := by
  have hruns : ((Session.empty.run? 9 (fun _ => .error "no clock")
      "\"éééééé\";-nil;\n1;".toList).map fun r => r.2.problems.map fun problem =>
        (problem.cites, problem.plain (.ofText r.1.text) r.1.text,
          (problem.notice.snippet "test.lox" r.1.text).place)) =
      some [(true, "Operand must be a number.\n[line 1]", some "test.lox:2:1")] := by
    decide +kernel
  rcases Option.map_eq_some_iff.mp hruns with ⟨⟨s', answer⟩, hrun, hproblems⟩
  rcases List.map_eq_singleton_iff.mp hproblems with ⟨problem, hsingle, hproblem⟩
  rcases Prod.mk.inj hproblem with ⟨hcites, hreports⟩
  rcases Prod.mk.inj hreports with ⟨hplain, hplace⟩
  have htext : s'.text = "\"éééééé\";-nil;\n1;".toList := text_of_run? hrun
  refine ⟨s', answer, problem, hrun, ?_, ?_, ?_, hcites, hplain, hplace⟩
  · rw [htext]
    decide
  · rw [htext]
    decide
  · rw [hsingle]
    exact List.mem_cons_self

end Session

end Lox
