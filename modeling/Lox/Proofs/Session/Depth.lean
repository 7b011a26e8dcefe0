import Lox.Proofs.Eval.Depth
import Lox.Proofs.Session.History

/-!
# The depth of calls in a session

The depth counts the calls of a run and nothing else, so every run of a session begins at zero, also
after one that overflowed.

* `Session.History.codeIn` says that between the runs of a session the depth is zero and that all
  code that values hold comes from the programs that have run.
* `Session.History.call_depth` is the main statement.
-/

namespace Lox

namespace Eval

variable {setting : Setting} {P : Stmt → Prop} {A : Task → Nat → Prop} {depth : Nat}
  {frame : FrameId}

theorem keeps_interpret {ss : List Stmt} (h : ∀ s ∈ ss, A (.execute frame s) depth) :
    Keeps setting P A depth (interpret frame ss) fun _ => True := by
  induction ss with
  | nil =>
      exact .pure trivial
  | cons s ss ih =>
      refine (keeps_execute (h s List.mem_cons_self)).bind ?_
      intro flow _
      exact ih fun s' hs => h s' (List.mem_cons_of_mem _ hs)

end Eval

namespace Run

variable {P : Stmt → Prop} {r : Run}

/-- A run is begun outside all calls and ends there. -/
theorem meets_asking (hstatements : ∀ s ∈ r.statements, P s) (hdepth : r.machine.depth = 0)
    (hcode : r.machine.store.CodeIn P) :
    r.course.Meets r.setting (asking P (Task.Outermost P)) fun _ m =>
      m.depth = 0 ∧ m.store.CodeIn P := by
  have hkeeps : (Eval.interpret r.setting.globals r.statements).Keeps r.setting P
      (Task.Outermost P) 0 fun _ => True :=
    Eval.keeps_interpret fun s hs => ⟨hstatements s hs, rfl⟩
  exact (hkeeps r.machine hdepth hcode).mono fun _ _ hpost => ⟨hpost.1, hpost.2.1⟩

/-- A round of a task is begun in a run, inside `n` calls. -/
def BeginsIn (r : Run) (n : Nat) (task : Task) (m : Machine) : Prop :=
  r.course.BeginsIn r.setting n task m

/-- What is known of the depth of the calls in a run. -/
structure CountsCalls (r : Run) : Prop where
  /-- It is zero at the beginning. -/
  begun : r.machine.depth = 0
  /-- It is zero at the end, whether there was a fault or not. -/
  ended : ∀ result m, r.course.Ends r.setting result m → m.depth = 0
  /-- Every task that is begun stands inside some number of calls. -/
  counts : ∀ task m, r.Begins task m → ∃ n, r.BeginsIn n task m
  /-- Inside `n` calls it is `n`, and no task is begun inside more than `maxDepth`. -/
  counted : ∀ n task m, r.BeginsIn n task m → m.depth = n ∧ n ≤ maxDepth
  /-- However a task ends, the depth is again what it was. -/
  restored : ∀ n task m result m', r.BeginsIn n task m → task.Ends r.setting m result m' →
    m'.depth = m.depth
  /-- A task at which a fault arises ends with it. -/
  raised : ∀ (task : Task) m fault m', task.Raises r.setting m fault m' →
    task.Ends r.setting m (.error fault) m'
  /-- The overflow arises at a call exactly if its operands have values, the first of which can be
  called with so many arguments, and the call stands inside `maxDepth` others. -/
  overflows : ∀ n frame node callee arguments m m',
    r.BeginsIn n (.evaluate frame (.call node callee arguments)) m →
      ((Task.evaluate frame (.call node callee arguments)).Raises r.setting m
          ⟨.stackOverflow, node.span⟩ m' ↔
        ∃ v m₁ vs, (Task.evaluate frame callee).Ends r.setting m (.ok v) m₁ ∧
          (Eval.evaluateAll frame arguments).Ends r.setting m₁ (.ok vs) m' ∧
          v.arity? = some vs.length ∧ n = maxDepth)

end Run

namespace Session

variable {runs : List Run} {s : Session} {clock : Nat → Except String Float} {text : List Char}
  {r : Run} {P : Stmt → Prop}

theorem codeIn_empty : Session.empty.machine.store.CodeIn P := by
  have hnothing : Store.empty.CodeIn P := by
    refine ⟨?_, ?_⟩
    · intro f name v hv
      rw [Store.value?_of_size_le (Nat.zero_le f)] at hv
      cases hv
    · intro object name v hv
      cases hv
  exact hnothing.fresh.addFrame.define (Value.codeIn_of_code_eq_nil rfl)

/-- Between the runs the depth is zero, and values hold only code of the programs that have run. -/
theorem History.codeIn (h : History runs s) (hP : Stmt.Hereditary P)
    (hstatements : ∀ stmt ∈ Run.programOf runs, P stmt) :
    s.machine.depth = 0 ∧ s.machine.store.CodeIn P := by
  induction h with
  | empty =>
      exact ⟨rfl, codeIn_empty⟩
  | resetError _ ih =>
      exact ih hstatements
  | @run runs s s' fuel clock text answer _ hrun ih =>
      rw [Run.programOf_append] at hstatements
      rcases ih fun stmt hstmt => hstatements stmt (List.mem_append_left _ hstmt) with
        ⟨hdepth, hcode⟩
      rcases run?_cases hrun with ⟨-, rfl⟩ | ⟨r, m, result, hadFault, hsome, hends, rfl⟩
      · exact ⟨hdepth, hcode⟩
      · rw [hsome, Option.toList_some, Run.programOf_single] at hstatements
        have hmachine := (accepts_of_running? hsome).machine
        rw [← hmachine] at hdepth hcode
        have hmeets := Run.meets_asking
          (fun stmt hstmt => hstatements stmt (List.mem_append_right _ hstmt)) hdepth hcode
        have hended := hmeets.ends_asking hP Task.Outermost.within hends
        exact ⟨hended.1, hended.2⟩

/-- A run of a session is begun outside all calls, on values that hold only code of the programs that
have run. -/
theorem History.meets_asking (h : History runs s) (hr : s.running? clock text = some r)
    (hP : Stmt.Hereditary P) (hstatements : ∀ stmt ∈ Run.programOf (runs ++ [r]), P stmt) :
    r.machine.depth = 0 ∧
      r.course.Meets r.setting (asking P (Task.Outermost P)) fun _ m =>
        m.depth = 0 ∧ m.store.CodeIn P := by
  rw [Run.programOf_append, Run.programOf_single] at hstatements
  rcases h.codeIn hP fun stmt hstmt => hstatements stmt (List.mem_append_left _ hstmt) with
    ⟨hdepth, hcode⟩
  rw [← (accepts_of_running? hr).machine] at hdepth hcode
  refine ⟨hdepth, Run.meets_asking ?_ hdepth hcode⟩
  intro stmt hstmt
  exact hstatements stmt (List.mem_append_right _ hstmt)

/-- In every session the depth of the calls is zero before and after every run, and in between it
counts the calls. -/
theorem History.call_depth (h : History runs s) :
    s.machine.depth = 0 ∧
      ∀ clock text r, s.running? clock text = some r → r.CountsCalls := by
  have hP : Stmt.Hereditary fun _ => True := fun _ _ _ _ => trivial
  refine ⟨(h.codeIn hP fun _ _ => trivial).1, ?_⟩
  intro clock text r hr
  rcases h.meets_asking hr hP fun _ _ => trivial with ⟨hdepth, hmeets⟩
  have hcounted : ∀ n task m, r.BeginsIn n task m →
      m.depth = n ∧ task.Within (fun _ => True) n ∧ m.store.CodeIn fun _ => True :=
    fun n task m hbegun => hbegun.depth hP hmeets
  refine ⟨hdepth, ?_, ?_, ?_, ?_, ?_, ?_⟩
  · intro result m hends
    exact (hmeets.ends_asking hP Task.Outermost.within hends).1
  · intro task m hbegun
    exact Course.begins_iff.mp hbegun
  · intro n task m hbegun
    rcases hcounted n task m hbegun with ⟨hn, hwithin, -⟩
    exact ⟨hn, hwithin.2⟩
  · intro n task m result m' hbegun hends
    rcases hcounted n task m hbegun with ⟨rfl, hwithin, hcode⟩
    exact (hends.keeps hP hwithin hcode).1
  · intro task m fault m' hraises
    exact hraises.ends
  · intro n frame node callee arguments m m' hbegun
    rcases hcounted n _ m hbegun with ⟨rfl, hwithin, hcode⟩
    rw [Task.raises_stackOverflow_iff]
    refine ⟨?_, ?_⟩
    · rintro ⟨v, m₁, vs, hcallee, harguments, harity, hfull⟩
      have hkept : m'.depth = m.depth := Eval.depth_operands hP hwithin.2 hcode hcallee harguments
      rw [hkept] at hfull
      exact ⟨v, m₁, vs, hcallee, harguments, harity, Nat.le_antisymm hwithin.2 hfull⟩
    · rintro ⟨v, m₁, vs, hcallee, harguments, harity, hfull⟩
      have hkept : m'.depth = m.depth := Eval.depth_operands hP hwithin.2 hcode hcallee harguments
      exact ⟨v, m₁, vs, hcallee, harguments, harity, Nat.le_of_eq (hkept.trans hfull).symm⟩

/-- The statement by which a function calls itself. -/
def recurring : Stmt :=
  .expression (.call ⟨1, 10, 1⟩ (.var ⟨0, "f", 8, 1⟩) [])

/-- The call at the end of a program whose function calls itself. -/
def firstCall : Expr :=
  .call ⟨3, 15, 1⟩ (.var ⟨2, "f", 13, 1⟩) []

/-- The run of a program whose function calls itself. -/
def recurringRun : Run :=
  ⟨⟨[], 0, fun _ => .error "no clock"⟩, Session.empty.machine,
    [.function ⟨⟨"f", 4, 1⟩, [], [recurring]⟩, .expression firstCall]⟩

theorem running?_recurringRun :
    Session.empty.running? (fun _ => .error "no clock") "fun f()\x7bf();\x7df();".toList =
      some recurringRun := by
  with_unfolding_all rfl

/-- The body of the function is begun inside one call. -/
theorem beginsIn_recurringRun : ∃ m, recurringRun.BeginsIn 1 (.execute 1 recurring) m := by
  have hcall : ∃ m, recurringRun.BeginsIn 0 (.evaluate 0 firstCall) m ∧
      ∃ m', ((Task.evaluate 0 firstCall).round recurringRun.setting m).Asks recurringRun.setting
        (.execute 1 recurring) m' :=
    ⟨_, @Course.BeginsIn.inside _ _ _ 0 (.execute 0 (.expression firstCall)) _ _ _
      (.asked (.later ⟨1, rfl⟩ .now)) .now, _, .later ⟨1, rfl⟩ .now⟩
  rcases hcall with ⟨m, hcall, m', hasks⟩
  exact ⟨m', .inside hcall hasks⟩

theorem call_depth_recurringRun :
    ∃ m, recurringRun.BeginsIn 1 (.execute 1 recurring) m ∧ m.depth = 1 ∧
      ∀ result m', (Task.execute 1 recurring).Ends recurringRun.setting m result m' →
        m'.depth = 1 := by
  have hcounts : recurringRun.CountsCalls :=
    History.empty.call_depth.2 _ _ _ running?_recurringRun
  rcases beginsIn_recurringRun with ⟨m, hbegun⟩
  have hdepth : m.depth = 1 := (hcounts.counted 1 _ m hbegun).1
  refine ⟨m, hbegun, hdepth, ?_⟩
  intro result m' hends
  exact (hcounts.restored 1 _ m result m' hbegun hends).trans hdepth

end Session

end Lox
