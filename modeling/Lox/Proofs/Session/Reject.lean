import Lox.Proofs.Relabel.Problem
import Lox.Proofs.Rereading.Text
import Lox.Proofs.Session.Blind

/-!
# Rejected texts

A rejected text leaves its characters behind, and the numbers that were given while it was read. All
later places and numbers are shifted by them, and nothing else can be seen of them.

Main statements: `Session.Trails.run?` for one text, `Session.Trails.runAll?` for many, and
`Session.History.rejected_invisible`.
-/

namespace Lox

variable {f : Relabel}

/-- What an answer says, apart from the places of problems. -/
def Answer.gist (a : Answer) : Status × List String × List Wording :=
  (a.status, a.printed, a.problems.map Problem.wording)

/-- One problem as it is reported in the text of the file at `path`. -/
def Style.report (style : Style) (path : String) (text : List Char) (p : Problem) : Report :=
  match style with
  | .plain => .plain (p.plain (LineTable.ofText text) text)
  | .rich => .rich (p.notice.snippet path text)

theorem Style.reports_eq_map (style : Style) (path : String) (text : List Char)
    (problems : List Problem) :
    style.reports path text problems = problems.map (style.report path text) := by
  cases style <;> rfl

/-! ## Reading and resolving -/

/-- What is not accepted has a mistake. -/
theorem Reading.errors_ne_nil {offset nextId : Nat} {text : List Char} {errors : List SyntaxError}
    (h : (ofText offset nextId text).outcome = .error errors) : errors ≠ [] := by
  unfold ofText ofItems at h
  split at h
  · dsimp only at h
    split at h
    · cases h
    · rename_i hsome
      cases h
      intro hnil
      exact hsome (List.isEmpty_iff.mpr hnil)
  · cases h
    simp

theorem resolveProgram_relabel (ss : List Stmt) :
    resolveProgram (Stmt.relabelAll f ss) =
      match resolveProgram ss with
      | .ok locals => .ok (locals.relabel f)
      | .error errors => .error (errors.map (ScopeError.relabel f)) := by
  have hfindings := Stmt.resolveAll_relabel (f := f) ⟨.none, .none⟩ [] ss
  rw [show Scopes.relabel f [] = [] from rfl] at hfindings
  unfold resolveProgram
  dsimp only
  rw [hfindings]
  simp only [Findings.relabel, List.isEmpty_map]
  split <;> rfl

namespace Chunk

/-- A text as it is read and resolved, with other numbers and places. -/
def relabel (f : Relabel) (c : Chunk) : Chunk :=
  ⟨f.number c.nextId,
    match c.outcome with
    | .ok (ss, locals) => .ok (Stmt.relabelAll f ss, locals.relabel f)
    | .error problems => .error (problems.map (Problem.relabel f))⟩

/-- What has been read, resolved. -/
def ofReading (r : Reading) : Chunk :=
  ⟨r.nextId,
    match r.outcome with
    | .error errors => .error (errors.map .grammar)
    | .ok statements =>
        match resolveProgram statements with
        | .error errors => .error (errors.map .scope)
        | .ok locals => .ok (statements, locals)⟩

theorem ofReading_relabel (r : Reading) : ofReading (r.relabel f) = (ofReading r).relabel f := by
  rcases r with ⟨nextId, outcome⟩
  cases outcome with
  | error errors =>
      simp only [ofReading, Reading.relabel, relabel, List.map_map]
      rfl
  | ok ss =>
      simp only [ofReading, Reading.relabel, relabel, resolveProgram_relabel]
      cases resolveProgram ss with
      | error errors =>
          simp only [List.map_map]
          rfl
      | ok locals =>
          rfl

/-- A text that begins later and whose expressions are numbered from another number on is read and
resolved in the same way. -/
theorem ofText_shift {distance offset nextId : Nat} (hplace : f.place = Span.shift distance)
    (hnumber : ∀ n, nextId ≤ n → f.number (n + 1) = f.number n + 1) (text : List Char) :
    ofText (offset + distance) (f.number nextId) text = (ofText offset nextId text).relabel f := by
  rw [show ofText offset nextId text = ofReading (.ofText offset nextId text) from rfl,
    ← ofReading_relabel, ← Reading.ofText_shift hplace hnumber]
  rfl

end Chunk

/-! ## Trailing sessions -/

/-- The change that leaves out all places. -/
def Relabel.bare : Relabel :=
  ⟨id, fun _ => ⟨0, 0⟩, []⟩

/-- The change that skips numbers from `low` on and moves all places further into the text. -/
def Relabel.later (low count distance : Nat) : Relabel :=
  .skip low count (Span.shift distance)

theorem Relabel.later_of_le {low count n : Nat} (distance : Nat) (h : low ≤ n) :
    (later low count distance).number n = n + count :=
  skip_of_le h

theorem Machine.relabel_flush (m : Machine) :
    m.flush.relabel f = { m.relabel f with printed := f.before } :=
  rfl

namespace Session

/-- The second session has seen more texts than the first, all of them rejected: numbers from `low`
on and places are later. -/
structure Trails (low count distance : Nat) (s s' : Session) : Prop where
  low_le : low ≤ s.nextId
  nextId : s'.nextId = s.nextId + count
  text : byteLength s'.text = byteLength s.text + distance
  locals : s'.locals = s.locals.relabel (.later low count distance)
  globals : s'.globals = s.globals
  machine : s.machine.relabel ((Relabel.later low count distance).andThen .bare) =
    s'.machine.relabel .bare

variable {s s' : Session} {clock : Nat → Except String Float} {fuel low count distance : Nat}

theorem Trails.number_nextId (h : Trails low count distance s s') :
    (Relabel.later low count distance).number s.nextId = s'.nextId := by
  rw [h.nextId]
  exact Relabel.later_of_le distance h.low_le

theorem Trails.chunk (h : Trails low count distance s s') (text : List Char) :
    s'.chunk text = (s.chunk text).relabel (.later low count distance) := by
  have hnumber : ∀ n, s.nextId ≤ n → (Relabel.later low count distance).number (n + 1) =
      (Relabel.later low count distance).number n + 1 := by
    intro n hn
    have hle : low ≤ n := Nat.le_trans h.low_le hn
    rw [Relabel.later_of_le distance hle, Relabel.later_of_le distance (Nat.le_succ_of_le hle)]
    exact Nat.add_right_comm n 1 count
  unfold Session.chunk
  rw [h.text, ← h.number_nextId]
  exact Chunk.ofText_shift rfl hnumber text

/-- A session that trails another after both have taken in a text. -/
theorem Trails.append (h : Trails low count distance s s') (text : List Char) (locals : Locals) :
    Trails low count distance
      { s.append text (s.chunk text).nextId with locals := s.locals ++ locals }
      { s'.append text (s'.chunk text).nextId with
        locals := s'.locals ++ locals.relabel (.later low count distance) } := by
  have hlow : low ≤ (s.chunk text).nextId := Nat.le_trans h.low_le (s.le_nextId_chunk text)
  refine ⟨hlow, ?_, ?_, ?_, h.globals, h.machine⟩
  · rw [h.chunk text]
    exact Relabel.later_of_le distance hlow
  · simp only [Session.append, byteLength_append, h.text]
    omega
  · simp only [h.locals, Locals.relabel_append]

/-- A session that trails another after both have run, if the runs end in the same way apart from
numbers and places. -/
theorem Trails.afterRun? (h : Trails low count distance s s') {o o' : Outcome Unit}
    (ho : o.relabel ((Relabel.later low count distance).andThen .bare) id = o'.relabel .bare id) :
    Option.Rel (fun r r' => Trails low count distance r.1 r'.1 ∧ r.2.gist = r'.2.gist)
      (s.afterRun? o) (s'.afterRun? o') := by
  cases o with
  | timeout =>
      cases o' with
      | timeout =>
          exact .none
      | ended r' m' =>
          cases ho
  | ended r m =>
      cases o' with
      | timeout =>
          cases ho
      | ended r' m' =>
          rcases Outcome.ended.inj ho with ⟨hr, hm⟩
          -- What was printed mentions no numbers and no places.
          have hprinted : m.printed = m'.printed := by
            simpa [Machine.relabel, Relabel.bare, Relabel.later, Relabel.skip, Relabel.andThen]
              using congrArg Machine.printed hm
          have hflush : m.flush.relabel ((Relabel.later low count distance).andThen .bare) =
              m'.flush.relabel .bare := by
            rw [Machine.relabel_flush, Machine.relabel_flush, hm]
            rfl
          -- The flag for faults is not compared, since no later run depends on it.
          have htrails : ∀ hadFault hadFault', Trails low count distance
              { s with machine := m.flush, hadFault }
              { s' with machine := m'.flush, hadFault := hadFault' } :=
            fun _ _ => ⟨h.low_le, h.nextId, h.text, h.locals, h.globals, hflush⟩
          cases r with
          | ok _ =>
              cases r' with
              | ok _ =>
                  refine .some ⟨htrails _ _, ?_⟩
                  simp [Answer.gist, hprinted]
              | error fault' =>
                  cases hr
          | error fault =>
              cases r' with
              | ok _ =>
                  cases hr
              | error fault' =>
                  have hfault := Except.error.inj hr
                  have hwording : fault.notice.wording = fault'.notice.wording := by
                    rw [← fault.relabel_wording, hfault, fault'.relabel_wording]
                  refine .some ⟨htrails _ _, ?_⟩
                  simp [Answer.gist, hprinted, Problem.wording, Problem.notice, hwording]

theorem Trails.interpret? (h : Trails low count distance s s') (ss : List Stmt) :
    Option.Rel (fun r r' => Trails low count distance r.1 r'.1 ∧ r.2.gist = r'.2.gist)
      (interpret? fuel clock ss s)
      (interpret? fuel clock (Stmt.relabelAll (.later low count distance) ss) s') := by
  let f : Relabel := .later low count distance
  -- The runs of the two sessions meet in the middle: each is compared with the run of the moved
  -- statements without places.
  have hmirrors : (s.setting clock).Mirrors (f.andThen .bare) (s'.setting clock) := by
    refine ⟨?_, h.globals, rfl⟩
    intro id
    simp only [setting, h.locals]
    exact Locals.distance?_relabel (Relabel.skip_injective _ _ _) s.locals id
  have hmirrors' : (s'.setting clock).Mirrors .bare (s'.setting clock) :=
    ⟨fun _ => rfl, rfl, rfl⟩
  have hrun := Eval.run_interpret_relabel hmirrors fuel s.globals ss s.machine
  have hrun' := Eval.run_interpret_relabel hmirrors' fuel s.globals (Stmt.relabelAll f ss) s'.machine
  rw [Stmt.relabelAll_relabelAll, ← h.machine, hrun] at hrun'
  rw [interpret?_eq, interpret?_eq, h.globals]
  exact h.afterRun? hrun'

/-- A session that trails another says the same of every text, apart from places, and goes on
trailing. -/
theorem Trails.run? (h : Trails low count distance s s') (fuel : Nat)
    (clock : Nat → Except String Float) (text : List Char) :
    Option.Rel (fun r r' => Trails low count distance r.1 r'.1 ∧ r.2.gist = r'.2.gist)
      (s.run? fuel clock text) (s'.run? fuel clock text) := by
  have hchunk := h.chunk text
  cases houtcome : (s.chunk text).outcome with
  | error problems =>
      have houtcome' : (s'.chunk text).outcome =
          .error (problems.map (Problem.relabel (.later low count distance))) := by
        rw [hchunk, Chunk.relabel, houtcome]
      rw [run?_of_error houtcome, run?_of_error houtcome']
      have happend := h.append text []
      refine .some ⟨⟨happend.low_le, happend.nextId, happend.text, h.locals, h.globals, h.machine⟩, ?_⟩
      simp only [Session.reject, Answer.gist, List.map_map]
      refine congrArg (fun ws => (_, _, ws)) (List.map_congr_left ?_)
      intro p _
      exact (p.relabel_wording (fun _ => rfl)).symm
  | ok accepted =>
      rcases accepted with ⟨ss, locals⟩
      have houtcome' : (s'.chunk text).outcome =
          .ok (Stmt.relabelAll (.later low count distance) ss,
            locals.relabel (.later low count distance)) := by
        rw [hchunk, Chunk.relabel, houtcome]
      rw [run?_of_ok houtcome, run?_of_ok houtcome']
      exact (h.append text locals).interpret? ss

/-- Runs texts in order and gives what each of them shows. -/
def runAll? (fuel : Nat) (clock : Nat → Except String Float) :
    List (List Char) → Session → Option (List Answer)
  | [], _ => some []
  | text :: texts, s => do
      let (s, answer) ← s.run? fuel clock text
      let answers ← runAll? fuel clock texts s
      return answer :: answers

theorem runAll?_gists {t : Session} {text : List Char} {answer : Answer}
    (h : s.run? fuel clock text = some (t, answer)) (texts : List (List Char)) :
    (s.runAll? fuel clock (text :: texts)).map (List.map Answer.gist) =
      ((t.runAll? fuel clock texts).map (List.map Answer.gist)).map (answer.gist :: ·) := by
  simp only [runAll?, h, Option.bind_eq_bind, Option.bind_some]
  cases t.runAll? fuel clock texts <;> rfl

/-- A session that trails another says the same of all texts that follow, apart from places. -/
theorem Trails.runAll? (h : Trails low count distance s s') (fuel : Nat)
    (clock : Nat → Except String Float) (texts : List (List Char)) :
    (s'.runAll? fuel clock texts).map (List.map Answer.gist) =
      (s.runAll? fuel clock texts).map (List.map Answer.gist) := by
  induction texts generalizing s s' with
  | nil =>
      rfl
  | cons text texts ih =>
      -- The sessions vary, since each text leaves both changed, and still one trailing the other.
      have hstep := h.run? fuel clock text
      cases hrun : s.run? fuel clock text with
      | none =>
          rw [hrun] at hstep
          cases hrun' : s'.run? fuel clock text with
          | none =>
              simp [Session.runAll?, hrun, hrun']
          | some r' =>
              rw [hrun'] at hstep
              cases hstep
      | some r =>
          rw [hrun] at hstep
          cases hrun' : s'.run? fuel clock text with
          | none =>
              rw [hrun'] at hstep
              cases hstep
          | some r' =>
              rw [hrun'] at hstep
              cases hstep with
              | some hr =>
                  rw [runAll?_gists hrun, runAll?_gists hrun', ih hr.1, hr.2]

/-! ## Rejected texts -/

/-- The problems for which a text is rejected: the mistakes in its characters and its grammar, or, if
there are none, the violations of scope rules. -/
def staticProblems (s : Session) (text : List Char) : List Problem :=
  match (Reading.ofText (byteLength s.text) s.nextId text).outcome with
  | .error errors => errors.map .grammar
  | .ok ss => (Stmt.programFindings ss).errors.map .scope

theorem chunk_error {text : List Char} {problems : List Problem}
    (h : (s.chunk text).outcome = .error problems) :
    problems = s.staticProblems text ∧ problems ≠ [] := by
  unfold Session.chunk Chunk.ofText at h
  unfold staticProblems
  dsimp only at h
  -- Scopes are checked only in a text without grammatical mistakes.
  cases hread : (Reading.ofText (byteLength s.text) s.nextId text).outcome with
  | error errors =>
      rw [hread] at h
      cases h
      refine ⟨rfl, ?_⟩
      intro hnil
      exact Reading.errors_ne_nil hread (List.map_eq_nil_iff.mp hnil)
  | ok ss =>
      rw [hread] at h
      dsimp only at h
      cases hresolve : resolveProgram ss with
      | ok locals =>
          rw [hresolve] at h
          cases h
      | error errors =>
          rw [hresolve] at h
          cases h
          rcases resolveProgram_error hresolve with ⟨rfl, hne⟩
          refine ⟨rfl, ?_⟩
          intro hnil
          exact hne (List.map_eq_nil_iff.mp hnil)

/-- What is known of a text that has been rejected. -/
theorem of_staticError {text : List Char} {answer : Answer}
    (h : s.run? fuel clock text = some (s', answer)) (hstatus : answer.status = .staticError) :
    ∃ problems, (s.chunk text).outcome = .error problems ∧
      (s', answer) = (s.append text (s.chunk text).nextId).reject problems := by
  cases hchunk : (s.chunk text).outcome with
  | error problems =>
      rw [run?_of_error hchunk] at h
      exact ⟨problems, rfl, (Option.some.inj h).symm⟩
  | ok accepted =>
      rcases accepted with ⟨ss, locals⟩
      rw [run?_of_ok hchunk] at h
      unfold Session.interpret? at h
      dsimp only at h
      split at h
      · cases h
        cases hstatus
      · cases h
        cases hstatus
      · cases h

/-- After a rejected text a session trails itself as it was before. -/
theorem History.trails_reject {runs : List Run} (h : History runs s) (text : List Char)
    (problems : List Problem) :
    Trails s.nextId ((s.chunk text).nextId - s.nextId) (byteLength text) s
      ((s.append text (s.chunk text).nextId).reject problems).1 := by
  have hfixes : (Relabel.later s.nextId ((s.chunk text).nextId - s.nextId)
      (byteLength text)).Fixes s.nextId :=
    Relabel.fixes_skip _ _ _
  refine ⟨Nat.le_refl _, ?_, ?_, ?_, rfl, ?_⟩
  · exact (Nat.add_sub_cancel' (s.le_nextId_chunk text)).symm
  · exact byteLength_append s.text text
  · exact (h.within.relabel_eq hfixes).symm
  · have hbare : (Relabel.andThen (.later s.nextId ((s.chunk text).nextId - s.nextId)
        (byteLength text)) .bare).Fixes s.nextId :=
      ⟨hfixes.below, hfixes.above⟩
    -- Nothing in the store has a number as large as those that the rejected text took.
    have hstore := h.numbersBelow _ hbare
    exact congrArg (Machine.mk · s.machine.depth s.machine.readings (s.machine.printed ++ [])) hstore

/-- A rejected text cannot be seen by programs. The machine, with the store and the depth of the calls,
the globals and the recorded distances are as they were, nothing is printed, and there is one report
for each problem. Whatever texts follow, each shows what it would show if the rejected text had never
been, apart from places. -/
theorem History.rejected_invisible {runs : List Run} (h : History runs s) {text : List Char}
    {answer : Answer} (hrun : s.run? fuel clock text = some (s', answer))
    (hrejected : answer.status = .staticError) :
    (s'.machine = s.machine ∧ s'.globals = s.globals ∧ s'.locals = s.locals ∧
        s'.hadFault = s.hadFault ∧ answer.printed = []) ∧
      (answer.problems = s.staticProblems text ∧ answer.problems ≠ [] ∧
        ∀ style path, Style.reports style path s'.text answer.problems =
          (s.staticProblems text).map (style.report path s'.text)) ∧
      ∀ fuel clock texts, (s'.runAll? fuel clock texts).map (List.map Answer.gist) =
        (s.runAll? fuel clock texts).map (List.map Answer.gist) := by
  rcases of_staticError hrun hrejected with ⟨problems, hchunk, hreject⟩
  rcases chunk_error hchunk with ⟨hproblems, hne⟩
  cases hreject
  refine ⟨⟨rfl, rfl, rfl, rfl, rfl⟩, ⟨hproblems, hne, ?_⟩, ?_⟩
  · intro style path
    rw [Style.reports_eq_map, ← hproblems]
  · intro fuel clock texts
    exact (h.trails_reject text problems).runAll? fuel clock texts

/-- A session that has rejected a text. -/
def rejecting : Session :=
  { Session.empty with text := "print;\n".toList, hadError := true }

theorem run?_rejecting : Session.empty.run? 0 (fun _ => .error "no clock") "print;\n".toList =
    some (rejecting, ⟨.staticError, [], [.grammar ⟨.expectedExpression, ⟨5, 1⟩⟩]⟩) := by
  with_unfolding_all rfl

theorem rejected_invisible_rejecting :
    Session.empty.staticProblems "print;\n".toList =
        [.grammar ⟨.expectedExpression, ⟨5, 1⟩⟩] ∧
      ∀ fuel clock texts, (rejecting.runAll? fuel clock texts).map (List.map Answer.gist) =
        (Session.empty.runAll? fuel clock texts).map (List.map Answer.gist) := by
  rcases History.empty.rejected_invisible run?_rejecting rfl with ⟨-, ⟨hproblems, -, -⟩, hlater⟩
  exact ⟨hproblems.symm, hlater⟩

end Session

end Lox
