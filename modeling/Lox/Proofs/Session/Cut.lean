import Lox.Proofs.Rebuilding.Text
import Lox.Proofs.Session.Blind
import Lox.Proofs.Session.Identity

/-!
# Texts in two parts

A text that ends a line may be cut off from what follows it. The parts read and resolve as the whole
does, and they run as it does, though the whole is resolved before anything of it runs. Nodes are added
to the arena of the session in the same order, so the handles are the same as well.

Main statement: `Session.History.run?_append`.
-/

namespace Lox

/-! ## Reading and resolving -/

theorem resolveProgram_append {ss ss' : List Stmt} {locals locals' : Locals}
    (h : resolveProgram ss = .ok locals) (h' : resolveProgram ss' = .ok locals') :
    resolveProgram (ss ++ ss') = .ok (locals ++ locals') := by
  rcases resolveProgram_ok h with ⟨herrors, rfl⟩
  rcases resolveProgram_ok h' with ⟨herrors', rfl⟩
  have happend := Stmt.programFindings_append ss ss'
  unfold Stmt.programFindings at *
  unfold resolveProgram
  dsimp only
  rw [happend, Findings.errors_append, herrors, herrors', Findings.locals_append]
  rfl

namespace Chunk

variable {offset nextId : Nat} {text : List Char}

theorem ofText_ok {ss : List Stmt} {locals : Locals}
    (h : (ofText offset nextId text).outcome = .ok (ss, locals)) :
    (Reading.ofText offset nextId text).outcome = .ok ss ∧ resolveProgram ss = .ok locals := by
  unfold ofText at h
  dsimp only at h
  split at h
  · cases h
  · rename_i ss' hread
    split at h
    · cases h
    · rename_i locals' hresolve
      cases h
      exact ⟨hread, hresolve⟩

/-- A text of two parts gives the statements of both and the distances of both. -/
theorem ofText_append {xs ys : List Char} (hline : EndsLine xs) {ss ss' : List Stmt}
    {locals locals' : Locals} (hfirst : (ofText offset nextId xs).outcome = .ok (ss, locals))
    (hsecond : (ofText (offset + byteLength xs) (ofText offset nextId xs).nextId ys).outcome =
      .ok (ss', locals')) :
    ofText offset nextId (xs ++ ys) =
      ⟨(ofText (offset + byteLength xs) (ofText offset nextId xs).nextId ys).nextId,
        .ok (ss ++ ss', locals ++ locals')⟩ := by
  rcases ofText_ok hfirst with ⟨hread, hresolve⟩
  rcases ofText_ok hsecond with ⟨hread', hresolve'⟩
  have hwhole := Reading.ofText_append hline hread hread'
  have hresolveAll := resolveProgram_append hresolve hresolve'
  unfold ofText
  simp only [hwhole, hresolveAll]

end Chunk

/-! ## Running -/

/-- What two texts show that run one after the other. -/
def Answer.andThen (first second : Answer) : Answer :=
  ⟨second.status, first.printed ++ second.printed, first.problems ++ second.problems⟩

theorem Eval.interpret_append {setting : Setting} (frame : FrameId) (ss ts : List Stmt)
    (m : Machine) : interpret frame (ss ++ ts) setting m =
      (interpret frame ss setting m).bind fun _ m' => interpret frame ts setting m' := by
  induction ss generalizing m with
  | nil =>
      rfl
  | cons s ss ih =>
      have hstep : ∀ us : List Stmt, interpret frame (s :: us) setting m =
          (execute frame s setting m).bind fun _ m' => interpret frame us setting m' :=
        fun _ => rfl
      rw [List.cons_append, hstep, hstep, Course.bind_assoc]
      simp only [ih]

namespace Session

variable {s s₁ : Session} {clock : Nat → Except String Float} {runs : List Run}
  {fuel more : Nat} {xs ys : List Char} {first : Answer}

/-- Statements that run to their end may be followed by others. -/
theorem interpret?_append {ss ss' : List Stmt} {m : Machine}
    (h : (Eval.interpret s.globals ss (s.setting clock) s.machine).run
      (perform (s.setting clock) fuel) = .ended (.ok ()) m) :
    interpret? fuel clock (ss ++ ss') s = interpret? fuel clock ss' { s with machine := m } := by
  rw [interpret?_eq, interpret?_eq, Eval.interpret_append, Course.run_bind, h]
  rfl

theorem afterRun?_printing (s : Session) (printed : List String) (o : Outcome Unit) :
    s.afterRun? (o.relabel (.printing printed) id) =
      (s.afterRun? o).map (Prod.map id (Answer.andThen ⟨.completed, printed.reverse, []⟩)) := by
  cases o with
  | timeout =>
      rfl
  | ended r m =>
      simp only [Outcome.relabel, Machine.relabel_printing]
      cases r with
      | ok _ =>
          simp [afterRun?, Fault.relabelOr, Machine.flush, Answer.andThen]
      | error fault =>
          simp [afterRun?, Fault.relabelOr, Machine.flush, Answer.andThen, Fault.relabel_printing]

/-- What was printed before a run is printed before what it prints. -/
theorem interpret?_printed (ss : List Stmt) (s : Session) (m : Machine) :
    interpret? fuel clock ss { s with machine := m } =
      (interpret? fuel clock ss { s with machine := m.flush }).map
        (Prod.map id (Answer.andThen ⟨.completed, m.printed.reverse, []⟩)) := by
  have hmirrors : (s.setting clock).Mirrors (.printing m.printed) (s.setting clock) :=
    ⟨fun _ => rfl, rfl, rfl⟩
  have hrun := Eval.run_interpret_relabel hmirrors fuel s.globals ss m.flush
  have hmachine : m.flush.relabel (.printing m.printed) = m :=
    m.flush.relabel_printing m.printed
  rw [Stmt.relabelAll_printing, hmachine] at hrun
  rw [interpret?_eq, interpret?_eq, ← afterRun?_printing]
  exact congrArg (afterRun? { s with machine := m }) hrun

/-- What is known of a text that has run to its end. -/
theorem of_completed {answer : Answer} (h : s.run? fuel clock xs = some (s₁, answer))
    (hstatus : answer.status = .completed) :
    ∃ ss locals m, (s.chunk xs).outcome = .ok (ss, locals) ∧
      (Eval.interpret s.globals ss ⟨s.locals ++ locals, s.globals, clock⟩ s.machine).run
        (perform ⟨s.locals ++ locals, s.globals, clock⟩ fuel) = .ended (.ok ()) m ∧
      s₁ = { s.append xs (s.chunk xs).nextId with
        locals := s.locals ++ locals, machine := m.flush } ∧
      answer = ⟨.completed, m.printed.reverse, []⟩ := by
  cases hchunk : (s.chunk xs).outcome with
  | error problems =>
      rw [run?_of_error hchunk] at h
      cases h
      cases hstatus
  | ok accepted =>
      rcases accepted with ⟨ss, locals⟩
      rw [run?_of_ok hchunk] at h
      unfold interpret? at h
      dsimp only at h
      split at h
      · rename_i m hrun
        cases h
        exact ⟨ss, locals, m, rfl, hrun, rfl, rfl⟩
      · cases h
        cases hstatus
      · cases h

/-- A text whose first part ends a line is read as its two parts are. -/
theorem chunk_append {ss ss' : List Stmt} {locals locals' : Locals} {m : Machine}
    (hline : EndsLine xs) (hchunk : (s.chunk xs).outcome = .ok (ss, locals))
    (hs₁ : s₁ = { s.append xs (s.chunk xs).nextId with
      locals := s.locals ++ locals, machine := m })
    (hchunk' : (s₁.chunk ys).outcome = .ok (ss', locals')) :
    s.chunk (xs ++ ys) = ⟨(s₁.chunk ys).nextId, .ok (ss ++ ss', locals ++ locals')⟩ := by
  subst hs₁
  unfold chunk append at hchunk' ⊢
  dsimp only at hchunk' ⊢
  rw [byteLength_append] at hchunk' ⊢
  exact Chunk.ofText_append hline hchunk hchunk'

/-- The nodes of a text whose first part ends a line are those of its parts, under the same handles. -/
theorem Stored.readText_append {roots : List (List Index)} {a : Arena} (h : Stored runs roots s a)
    (hsmall : byteLength (s.text ++ (xs ++ ys)) < UInt32.size) (hline : EndsLine xs)
    {ss ss' : List Stmt} {locals locals' : Locals} (hchunk : (s.chunk xs).outcome = .ok (ss, locals))
    (htext : s₁.text = s.text ++ xs) (hnext : s₁.nextId = (s.chunk xs).nextId)
    (hchunk' : (s₁.chunk ys).outcome = .ok (ss', locals')) :
    let b := (a.readText (byteLength s.text) xs).1
    ∃ is is', s.roots? a xs = some is ∧ s₁.roots? b ys = some is' ∧
      a.readText (byteLength s.text) (xs ++ ys) =
        ((b.readText (byteLength s₁.text) ys).1, .ok (is ++ is')) := by
  intro b
  have hkeep := h.keep (Nat.lt_of_le_of_lt (byteLength_le_append _ _) hsmall)
  have hcount := hkeep.count
  have hread := (Chunk.ofText_ok hchunk).1
  have hread' := (Chunk.ofText_ok hchunk').1
  have hcounted : (s.chunk xs).nextId = (Reading.ofText (byteLength s.text) s.nextId xs).nextId := rfl
  rw [htext, byteLength_append, hnext, hcounted] at hread'
  rw [← hkeep.size] at hread hread'
  rw [byteLength_append] at hsmall
  rcases Arena.readText_append hkeep.stores.built hkeep.stores.forest (by omega) hline hread hread'
    with ⟨is, is', his, his', hall⟩
  rw [htext, byteLength_append]
  refine ⟨is, is', ?_, ?_, hall⟩
  · rw [roots?, hchunk]
    exact congrArg Except.toOption his
  · rw [roots?, hchunk', htext, byteLength_append]
    exact congrArg Except.toOption his'

/-- A text whose first part ends a line and runs to its end does what its two parts do one after the
other, unless the second part is rejected. It leaves the same session, it gives the same answer, with
the same reports, and it is read as the same statements with the same distances. Whatever arena the
session has, as long as the bytes of the texts can be counted the whole adds the nodes to it that the
parts add one after the other, and its statements have the handles of theirs. -/
theorem History.run?_append (h : History runs s) (hline : EndsLine xs)
    (hfirst : s.run? fuel clock xs = some (s₁, first)) (hcompleted : first.status = .completed)
    (hfuel : fuel ≤ more)
    (hsecond : ∀ r, s₁.run? more clock ys = some r → r.2.status ≠ .staticError) :
    s.run? more clock (xs ++ ys) = (s₁.run? more clock ys).map (Prod.map id first.andThen) ∧
      (∀ style path r, s₁.run? more clock ys = some r →
        Style.reports style path r.1.text (first.andThen r.2).problems =
          style.reports path s₁.text first.problems ++ style.reports path r.1.text r.2.problems) ∧
      ∃ ss locals ss' locals', (s.chunk xs).outcome = .ok (ss, locals) ∧
        (s₁.chunk ys).outcome = .ok (ss', locals') ∧
        s.chunk (xs ++ ys) = ⟨(s₁.chunk ys).nextId, .ok (ss ++ ss', locals ++ locals')⟩ ∧
        ∀ roots a, Stored runs roots s a → byteLength (s.text ++ (xs ++ ys)) < UInt32.size →
          let b := (a.readText (byteLength s.text) xs).1
          ∃ is is', s.roots? a xs = some is ∧ s₁.roots? b ys = some is' ∧
            a.readText (byteLength s.text) (xs ++ ys) =
              ((b.readText (byteLength s₁.text) ys).1, .ok (is ++ is')) := by
  have h₁ := History.run h hfirst
  rcases of_completed hfirst hcompleted with ⟨ss, locals, m, hchunk, hrun, hs₁, rfl⟩
  cases hchunk' : (s₁.chunk ys).outcome with
  | error problems =>
      exact absurd rfl (hsecond _ (run?_of_error hchunk'))
  | ok accepted =>
      rcases accepted with ⟨ss', locals'⟩
      have hwhole := chunk_append hline hchunk hs₁ hchunk'
      refine ⟨?_, ?_, ss, locals, ss', locals', hchunk, rfl, hwhole, ?_⟩
      · have hwholeOutcome : (s.chunk (xs ++ ys)).outcome = .ok (ss ++ ss', locals ++ locals') := by
          rw [hwhole]
        rcases chunk_ok hchunk with ⟨hread, -, -⟩
        rcases chunk_ok hchunk' with ⟨hread', herrors', rfl⟩
        subst hs₁
        have hbelow : s.machine.store.NumbersBelow (s.chunk xs).nextId :=
          h.numbersBelow.mono (s.le_nextId_chunk xs)
        have hbelow' : m.store.NumbersBelow (s.chunk xs).nextId := h₁.numbersBelow
        have hlater := Stmt.within_programFindings hread' herrors'
        -- The first part runs as it does alone, though the distances of the second are recorded.
        have hfirstPart := Eval.run_interpret_later hread h₁.within hlater hbelow hbelow'
          (run_perform_mono hfuel hrun)
        let whole : Session := { s.append (xs ++ ys) (s.chunk (xs ++ ys)).nextId with
          locals := s.locals ++ locals ++ (Stmt.programFindings ss').locals }
        calc
          s.run? more clock (xs ++ ys) = interpret? more clock (ss ++ ss') whole := by
            rw [run?_of_ok hwholeOutcome, ← List.append_assoc]
          _ = interpret? more clock ss' { whole with machine := m } :=
            interpret?_append hfirstPart
          _ = (interpret? more clock ss' { whole with machine := m.flush }).map _ :=
            interpret?_printed ss' whole m
          _ = _ := by
            rw [run?_of_ok hchunk']
            simp only [whole, hwhole, append, List.append_assoc]
      · intro style path r _
        cases style <;> rfl
      · intro roots a hstored hsmall
        rw [hs₁] at hchunk' ⊢
        exact hstored.readText_append hsmall hline hchunk rfl rfl hchunk'

/-- A session that has declared a variable. -/
def declaring : Session :=
  { Session.empty with
    text := "var x;\n".toList
    machine := ⟨Session.empty.machine.store.define 0 "x" .nil, 0, 0, []⟩ }

theorem run?_declaring : Session.empty.run? 2 (fun _ => .error "no clock") "var x;\n".toList =
    some (declaring, ⟨.completed, [], []⟩) := by
  with_unfolding_all rfl

theorem run?_printing : declaring.run? 2 (fun _ => .error "no clock") "print x;".toList =
    some ({ declaring with text := "var x;\nprint x;".toList, nextId := 1 },
      ⟨.completed, ["nil"], []⟩) := by
  with_unfolding_all rfl

theorem run?_append_printing :
    Session.empty.run? 2 (fun _ => .error "no clock") ("var x;\n".toList ++ "print x;".toList) =
      some ({ declaring with text := "var x;\nprint x;".toList, nextId := 1 },
        ⟨.completed, ["nil"], []⟩) := by
  have hsecond : ∀ r, declaring.run? 2 (fun _ => .error "no clock") "print x;".toList = some r →
      r.2.status ≠ .staticError := by
    intro r hr
    rw [run?_printing] at hr
    cases hr
    decide
  have hwhole := (History.empty.run?_append (.inr rfl) run?_declaring rfl (Nat.le_refl 2) hsecond).1
  rw [run?_printing] at hwhole
  exact hwhole

end Session

end Lox
