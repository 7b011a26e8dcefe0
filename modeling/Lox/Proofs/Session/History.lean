import Lox.Proofs.Eval.Preservation
import Lox.Proofs.Syntax.Reading
import Lox.Session

/-!
# Histories of sessions

A session runs one text after another. What its earlier texts were, which of them ran, and what
happened in those runs is its history.

* `Session.History` lists the runs that have led to a session.
* `Session.History.read`, `Session.History.locals` and `Session.History.printed` say what stays of
  them.
* `Session.History.fits` says that all values in the store fit the programs that have run.
-/

namespace Lox

/-- A run of a program: the statements, what they can read, and the machine they begin on. -/
structure Run where
  setting : Setting
  machine : Machine
  statements : List Stmt

namespace Run

/-- The course of a run. -/
def course (r : Run) : Course Unit :=
  Eval.interpret r.setting.globals r.statements r.setting r.machine

/-- A task is begun in a run, at a machine. The run need not come to an end. -/
def Begins (r : Run) (task : Task) (m : Machine) : Prop :=
  r.course.Begins r.setting task m

/-- In a run the declaration of a class has made the class `cls`, whose methods close over
`frame`. -/
def Makes (r : Run) (d : ClassDecl) (frame : FrameId) (cls : Class) : Prop :=
  ∃ outer m m', r.Begins (.execute outer d.statement) m ∧
    (Eval.makeClass outer d.name d.parent d.methods).Ends r.setting m (.ok (frame, cls)) m'

/-- In a run a method is bound to an instance, in a new frame. -/
def Binds (r : Run) (method : Closure) (object : Instance) (frame : FrameId) : Prop :=
  ∃ task m, r.Begins task m ∧ task.Binds r.setting m method object frame

/-- The statements of runs, in order. -/
def programOf (runs : List Run) : List Stmt :=
  runs.flatMap Run.statements

theorem programOf_append (runs runs' : List Run) :
    programOf (runs ++ runs') = programOf runs ++ programOf runs' := by
  simp [programOf]

theorem programOf_single (r : Run) : programOf [r] = r.statements := by
  simp [programOf]

end Run

namespace Session

/-- The run that a text makes in a session, if it is accepted. -/
def running? (s : Session) (clock : Nat → Except String Float) (text : List Char) : Option Run :=
  match (s.chunk text).outcome with
  | .error _ => none
  | .ok (statements, locals) =>
      some ⟨⟨s.locals ++ locals, s.globals, clock⟩, s.machine, statements⟩

/-- The runs that have led to a session. Texts that are rejected make none. -/
inductive History : List Run → Session → Prop
  | empty : History [] .empty
  | resetError {runs : List Run} {s : Session} : History runs s → History runs s.resetError
  | run {runs : List Run} {s s' : Session} {fuel : Nat} {clock : Nat → Except String Float}
      {text : List Char} {answer : Answer} :
      History runs s → s.run? fuel clock text = some (s', answer) →
        History (runs ++ (s.running? clock text).toList) s'

/-! ## One run -/

variable {s s' : Session} {clock : Nat → Except String Float} {text : List Char} {answer : Answer}
  {fuel : Nat}

theorem run?_of_error {problems : List Problem} (h : (s.chunk text).outcome = .error problems) :
    s.run? fuel clock text =
      some ((s.append text (s.chunk text).nextId).reject problems) := by
  unfold run?
  simp only [h]

theorem run?_of_ok {statements : List Stmt} {locals : Locals}
    (h : (s.chunk text).outcome = .ok (statements, locals)) :
    s.run? fuel clock text = interpret? fuel clock statements
      { s.append text (s.chunk text).nextId with locals := s.locals ++ locals } := by
  unfold run?
  simp only [h]
  rfl

/-- A session after a run that ends in an outcome, and what it shows. -/
def afterRun? (s : Session) : Outcome Unit → Option (Session × Answer)
  | .ended (.ok ()) m => some ({ s with machine := m.flush }, ⟨.completed, m.printed.reverse, []⟩)
  | .ended (.error fault) m =>
      some ({ s with machine := m.flush, hadFault := true },
        ⟨.runtimeError, m.printed.reverse, [.fault fault]⟩)
  | .timeout => none

theorem interpret?_eq (statements : List Stmt) : interpret? fuel clock statements s =
    s.afterRun? ((Eval.interpret s.globals statements (s.setting clock) s.machine).run
      (perform (s.setting clock) fuel)) :=
  rfl

/-- What interpreting changes in a session: the machine and the mark that there was a fault. -/
theorem of_interpret? {statements : List Stmt}
    (h : interpret? fuel clock statements s = some (s', answer)) :
    ∃ m r hadFault, s' = { s with machine := m.flush, hadFault } ∧
      (Eval.interpret s.globals statements).Ends (s.setting clock) s.machine r m := by
  unfold interpret? at h
  dsimp only at h
  split at h
  · rename_i m hrun
    cases h
    exact ⟨m, .ok (), s.hadFault, rfl, fuel, hrun⟩
  · rename_i fault m hrun
    cases h
    exact ⟨m, .error fault, true, rfl, fuel, hrun⟩
  · cases h

/-! ## Texts -/

/-- A text that is accepted has been read and resolved. -/
theorem read_of_chunk {statements : List Stmt} {locals : Locals}
    (h : (s.chunk text).outcome = .ok (statements, locals)) :
    (Reading.ofText (byteLength s.text) s.nextId text).outcome = .ok statements ∧
      resolveProgram statements = .ok locals := by
  unfold chunk Chunk.ofText at h
  dsimp only at h
  split at h
  · cases h
  · rename_i statements' hread
    split at h
    · cases h
    · rename_i locals' hresolve
      cases h
      exact ⟨hread, hresolve⟩

theorem chunk_ok {statements : List Stmt} {locals : Locals}
    (h : (s.chunk text).outcome = .ok (statements, locals)) :
    Stmt.ReadAll s.nextId (s.chunk text).nextId (Stmt.partsAll statements) ∧
      (Stmt.programFindings statements).errors = [] ∧
        locals = (Stmt.programFindings statements).locals := by
  rcases read_of_chunk h with ⟨hread, hresolve⟩
  exact ⟨Reading.readAll_of_ofText hread, resolveProgram_ok hresolve⟩

theorem le_nextId_chunk (s : Session) (text : List Char) : s.nextId ≤ (s.chunk text).nextId :=
  Reading.le_nextId_ofText _ _ _

/-- What is known of the run that a text makes. -/
structure Accepts (s : Session) (text : List Char) (r : Run) : Prop where
  machine : r.machine = s.machine
  globals : r.setting.globals = s.globals
  locals : r.setting.locals = s.locals ++ (Stmt.programFindings r.statements).locals
  read : Stmt.ReadAll s.nextId (s.chunk text).nextId (Stmt.partsAll r.statements)
  errors : (Stmt.programFindings r.statements).errors = []

theorem accepts_of_running? {r : Run} (h : s.running? clock text = some r) :
    s.Accepts text r := by
  unfold running? at h
  split at h
  · cases h
  · rename_i statements locals hok
    cases h
    rcases chunk_ok hok with ⟨hread, herrors, rfl⟩
    exact ⟨rfl, rfl, rfl, hread, herrors⟩

/-- A text is rejected, and then only its characters and numbers are kept, or it makes a run, and then
the machine is left as the run ends. -/
theorem run?_cases (h : s.run? fuel clock text = some (s', answer)) :
    (s.running? clock text = none ∧
      s' = { s.append text (s.chunk text).nextId with hadError := true }) ∨
    ∃ r m result hadFault, s.running? clock text = some r ∧ r.course.Ends r.setting result m ∧
      s' = { s.append text (s.chunk text).nextId with
        locals := r.setting.locals, machine := m.flush, hadFault } := by
  unfold running?
  cases hchunk : (s.chunk text).outcome with
  | error problems =>
      rw [run?_of_error hchunk] at h
      cases h
      exact .inl ⟨rfl, rfl⟩
  | ok accepted =>
      rcases accepted with ⟨statements, locals⟩
      rw [run?_of_ok hchunk] at h
      rcases of_interpret? h with ⟨m, result, hadFault, rfl, hends⟩
      exact .inr ⟨_, m, result, hadFault, rfl, hends, rfl⟩

/-! ## What stays -/

/-- What is known of a session by the programs that have run in it. -/
structure Keeps (runs : List Run) (s : Session) : Prop where
  read : Stmt.ReadAll 0 s.nextId (Stmt.partsAll (Run.programOf runs))
  errors : (Stmt.programFindings (Run.programOf runs)).errors = []
  locals : s.locals = (Stmt.programFindings (Run.programOf runs)).locals
  printed : s.machine.printed = []

theorem Keeps.accept {runs : List Run} {r : Run} (h : Keeps runs s) (haccepts : s.Accepts text r) :
    Stmt.ReadAll 0 (s.chunk text).nextId (Stmt.partsAll (Run.programOf (runs ++ [r]))) ∧
      (Stmt.programFindings (Run.programOf (runs ++ [r]))).errors = [] ∧
        r.setting.locals = (Stmt.programFindings (Run.programOf (runs ++ [r]))).locals := by
  rw [Run.programOf_append, Run.programOf_single, Stmt.partsAll_append,
    Stmt.programFindings_append]
  refine ⟨h.read.append haccepts.read (Nat.zero_le _) (s.le_nextId_chunk text), ?_, ?_⟩
  · rw [Findings.errors_append, h.errors, haccepts.errors]
    rfl
  · rw [Findings.locals_append, haccepts.locals, h.locals]

theorem History.keeps {runs : List Run} (h : History runs s) : Keeps runs s := by
  induction h with
  | empty =>
      exact ⟨.nil, rfl, rfl, rfl⟩
  | resetError _ ih =>
      exact ⟨ih.read, ih.errors, ih.locals, ih.printed⟩
  | @run runs s s' fuel clock text answer _ hrun ih =>
      -- A rejected text uses up numbers, but adds no program.
      rcases run?_cases hrun with ⟨hnone, rfl⟩ | ⟨r, m, result, hadFault, hsome, -, rfl⟩
      · rw [hnone, Option.toList_none, List.append_nil]
        exact ⟨ih.read.mono (Nat.le_refl _) (s.le_nextId_chunk text), ih.errors, ih.locals,
          ih.printed⟩
      · rw [hsome, Option.toList_some]
        rcases ih.accept (accepts_of_running? hsome) with ⟨hread, herrors, hlocals⟩
        exact ⟨hread, herrors, hlocals, rfl⟩

/-! ## The store -/

end Session

namespace World

/-- A world that holds what happens in runs: the visits to their expressions, their statements, the
classes that are made and the methods that are bound. -/
structure Holds (W : World) (runs : List Run) : Prop where
  visits : ∀ r ∈ runs, ∀ v ∈ Stmt.programVisits r.statements, v ∈ W.visits
  statements : ∀ r ∈ runs, ∀ s ∈ Stmt.partsAll r.statements, s ∈ W.statements
  made : ∀ r ∈ runs, ∀ d frame cls, r.Makes d frame cls → W.made d frame cls
  bound : ∀ r ∈ runs, ∀ method object frame, r.Binds method object frame →
    W.bound method object frame
  words : ∀ v ∈ W.visits, ∀ i ∈ v.expr.idents, i.IsWord

variable {W : World} {setting : Setting} {m : Machine}

theorem hosts_root {s : Store} (h : W.StoreFits s) : W.Hosts s W.root none [] :=
  ⟨⟨h.root, trivial⟩, h.rootOpen⟩

theorem safe_interpret {ss : List Stmt} : ∀ {m : Machine}, W.StoreFits m.store →
    (∀ v ∈ Stmt.programVisits ss, v ∈ W.visits) → W.Sound (Stmt.partsAll ss) →
      W.Safe setting m (Eval.interpret W.root ss) fun _ _ => True := by
  induction ss with
  | nil =>
      intro m h _ _
      exact .pure h trivial
  | cons s ss ih =>
      intro m h hvisits hsound
      have hfirst : ∀ v ∈ s.visits none [], v ∈ W.visits :=
        fun v hv => hvisits v (List.mem_append_left _ hv)
      -- A statement declares nothing outside all scopes, so the others are resolved as if it were
      -- not there.
      have hothers : ∀ v ∈ Stmt.programVisits ss, v ∈ W.visits := by
        intro v hv
        refine hvisits v (List.mem_append_right _ ?_)
        rw [Stmt.extend_nil]
        exact hv
      rw [Eval.interpret]
      refine (safe_execute h hfirst hsound.left (hosts_root h)).bind ?_
      intro flow m₁ h₁ _ _
      exact ih h₁ hothers hsound.right

/-- A world explains a run: it describes what happens in it, and the run keeps what is said of the
values. -/
structure Explains (W : World) (r : Run) : Prop where
  describes : W.Describes r.setting (r.course.Begins r.setting)
  safe : W.Safe r.setting r.machine (Eval.interpret r.setting.globals r.statements) fun _ _ => True

namespace Explains

variable {r : Run}

theorem kept (h : W.Explains r) : W.contract.Kept r.setting (r.course.Begins r.setting) :=
  World.kept h.describes

theorem meets (h : W.Explains r) :
    r.course.Meets r.setting W.contract (W.Ended r.machine.store fun _ _ => True) :=
  h.safe.meets

/-- Every task that is begun may be begun. -/
theorem before (h : W.Explains r) {task : Task} {m : Machine} (hbegun : r.Begins task m) :
    W.contract.before task m :=
  h.kept.begins h.meets hbegun

/-- Every task that is begun and ends, ends as it should. -/
theorem after (h : W.Explains r) {task : Task} {m m' : Machine} {result : Except Fault task.Result}
    (hbegun : r.Begins task m) (hends : task.Ends r.setting m result m') :
    W.contract.after task m result m' :=
  h.kept.ends r.course.closed_begins hbegun (h.before hbegun) hends

/-- The values fit when the run has ended, and the store has grown. -/
theorem ended (h : W.Explains r) {result : Except Fault Unit} {m : Machine}
    (hends : r.course.Ends r.setting result m) :
    W.StoreFits m.store ∧ r.machine.store.Grows m.store := by
  have hended := h.kept.course_ends h.meets hends
  exact ⟨hended.1, hended.2.1⟩

end Explains

/-- A run may be begun where the values fit. -/
theorem explains_of_holds {r : Run} {runs : List Run} (hholds : W.Holds runs) (hr : r ∈ runs)
    (hroot : W.root = r.setting.globals) (hstore : W.StoreFits r.machine.store)
    (hsound : Stmt.Sound (Stmt.partsAll r.statements)) : W.Explains r := by
  refine ⟨⟨hholds.words, ?_, ?_⟩, ?_⟩
  · intro d frame m inner cls m' hbegun hends
    exact hholds.made r hr d inner cls ⟨frame, m, m', hbegun, hends⟩
  · intro task m method object f hbegun hbinds
    exact hholds.bound r hr method object f ⟨task, m, hbegun, hbinds⟩
  · rw [← hroot]
    exact safe_interpret hstore (hholds.visits r hr) ⟨hsound, hholds.statements r hr⟩

theorem storeFits_empty (hroot : W.root = Session.empty.globals) :
    W.StoreFits Session.empty.machine.store := by
  -- Before the clock is defined nothing is bound at all.
  let base : Store := Store.empty.fresh.2.newRoot.2
  have hvalue : ∀ f name, base.value? f name = none := by
    intro f name
    change (Store.empty.fresh.2.addFrame []).2.value? f name = none
    rw [Store.value?_addFrame]
    exact Store.value?_of_size_le (Nat.zero_le f)
  have hopen : ∀ f, base.Open f := fun f name _ => hvalue f name
  have hbase : W.StoreFits base := by
    refine ⟨?_, hopen W.root, ?_, fun f _ => .inl (hopen f), ?_, ?_⟩
    · rw [hroot]
      refine ⟨Nat.zero_lt_one, rfl, rfl, ?_⟩
      intro d g scope _ hscope
      cases hscope
    · intro f hf
      have hzero : f = 0 := Nat.lt_one_iff.mp hf
      subst hzero
      intro g hg
      have hg0 : g = 0 := List.mem_singleton.mp hg
      subst hg0
      exact ⟨hf, List.suffix_refl _⟩
    · intro f name v hv
      rw [hvalue] at hv
      cases hv
    · intro object name v hv
      cases hv
  exact hbase.define (.define (by decide) (hopen _)) trivial

theorem Holds.left {runs runs' : List Run} (h : W.Holds (runs ++ runs')) : W.Holds runs :=
  ⟨fun r hr => h.visits r (List.mem_append_left _ hr),
    fun r hr => h.statements r (List.mem_append_left _ hr),
    fun r hr => h.made r (List.mem_append_left _ hr),
    fun r hr => h.bound r (List.mem_append_left _ hr), h.words⟩

end World

namespace Session

variable {s : Session} {runs : List Run} {clock : Nat → Except String Float} {text : List Char}

/-- The store of a session fits the programs that have run in it. Each run was explained, has ended,
and since then the store has only grown. -/
theorem History.fits (h : History runs s) {W : World} (hholds : W.Holds runs)
    (hroot : W.root = s.globals) :
    W.StoreFits s.machine.store ∧ ∀ r ∈ runs, W.Explains r ∧
      ∃ result m, r.course.Ends r.setting result m ∧ m.store.Grows s.machine.store := by
  induction h with
  | empty =>
      exact ⟨World.storeFits_empty hroot, fun r hr => nomatch hr⟩
  | resetError _ ih =>
      exact ih hholds hroot
  | @run runs s s' fuel clock text answer _ hrun ih =>
      rcases run?_cases hrun with ⟨hnone, rfl⟩ | ⟨r, m, result, hadFault, hsome, hends, rfl⟩
      · rw [hnone, Option.toList_none, List.append_nil] at hholds ⊢
        exact ih hholds hroot
      · have haccepts := accepts_of_running? hsome
        rw [hsome, Option.toList_some] at hholds ⊢
        -- The run begins in the store that the runs before it have left.
        rcases ih hholds.left hroot with ⟨hstore, hruns⟩
        have hexplains : W.Explains r := by
          refine World.explains_of_holds hholds (List.mem_append_right _ List.mem_cons_self)
            (hroot.trans haccepts.globals.symm) ?_ haccepts.read.sound
          rw [haccepts.machine]
          exact hstore
        rcases hexplains.ended hends with ⟨hstore', hgrows⟩
        rw [haccepts.machine] at hgrows
        refine ⟨hstore', ?_⟩
        intro r' hr'
        -- Since an earlier run ended the store has grown up to this run, and then in it.
        rcases List.mem_append.mp hr' with hr' | hr'
        · rcases hruns r' hr' with ⟨hexplains', result', m', hends', hgrows'⟩
          exact ⟨hexplains', result', m', hends', hgrows'.trans hgrows⟩
        · rw [List.mem_singleton] at hr'
          subst hr'
          exact ⟨hexplains, result, m, hends, .refl _⟩

/-- A run that a text may make is explained. -/
theorem History.explains_of_accepts (h : History runs s) {W : World} {r : Run}
    (haccepts : s.Accepts text r) (hholds : W.Holds (runs ++ [r])) (hroot : W.root = s.globals) :
    W.Explains r := by
  refine World.explains_of_holds hholds (List.mem_append_right _ List.mem_cons_self)
    (hroot.trans haccepts.globals.symm) ?_ haccepts.read.sound
  rw [haccepts.machine]
  exact (h.fits hholds.left hroot).1

/-- A text that is accepted makes a run that is explained. -/
theorem History.explains (h : History runs s) {W : World} {r : Run}
    (hr : s.running? clock text = some r) (hholds : W.Holds (runs ++ [r]))
    (hroot : W.root = s.globals) : W.Explains r :=
  h.explains_of_accepts (accepts_of_running? hr) hholds hroot

end Session

end Lox
