import Lox.Proofs.Parallel.Clauses
import Lox.Proofs.Parallel.World
import Lox.Proofs.Session.Agreement
import Lox.Proofs.Session.Blind
import Mathlib.Data.List.Flatten

/-!
# Loops in a session

Where the tree for a `for` loop is executed in a session, the loop itself might be run instead: its
scope is opened once, and in that scope the condition, the body and the increment are resolved and
evaluated in turns. The run of the tree and the run of the loop come to the same.

The parts of the loop are copied for that, with numbers that are free, since what is recorded for the
tree has to stay: the functions in the store may execute the tree once more.

Main statement: `Session.History.for_is_loop`.
-/

namespace Lox

/-- Two ways to go on from a state. When one of them ends, so does the other, with the same result, the
same output and the same effect on the store. What was in the state stands for itself. -/
structure Tracks.Concur (T : Tracks) (m : Machine) (ends ends' : Except Fault Flow → Machine → Prop) :
    Prop where
  forth : ∀ {r n}, ends r n → ∃ P r' n', Pairing.same m.store.frames.size ≤ P ∧
    Fault.ParallelsOr (Flow.Parallels T P) r r' ∧ n.Parallels T P n' ∧ ends' r' n'
  back : ∀ {r' n'}, ends' r' n' → ∃ P r n, Pairing.same m.store.frames.size ≤ P ∧
    Fault.ParallelsOr (Flow.Parallels T P) r r' ∧ n.Parallels T P n' ∧ ends r n

/-- The distances that are recorded when a loop is resolved in addition. -/
def Setting.withLoop (setting : Setting) (context : Context) (scopes : Scopes)
    (clauses : Parse.ForClauses) (body : Stmt) : Tracks :=
  ⟨setting, setting.locals ++ (clauses.resolve context scopes body).locals⟩

namespace Locals

variable {locals : Locals} {low id : Nat}

/-- The numbers of a copy are those of the loop, moved behind all others. -/
theorem distance?_renumber_of_lt (h : id < low) :
    distance? (locals.relabel (.renumber (· + low))) id = none := by
  refine distance?_eq_none ?_
  intro entry hentry
  rcases List.mem_map.mp hentry with ⟨other, -, rfl⟩
  exact Nat.ne_of_gt (Nat.lt_of_lt_of_le h (Nat.le_add_left low other.1))

end Locals

theorem Resolved.recorded {vs : List Visit} {locals : Locals} (h : Resolved vs locals) {v : Visit}
    (hv : v ∈ vs) : v.Recorded locals v.expr.number := by
  have hfound : v.Recorded v.findings.locals v.expr.number := rfl
  refine (h.distance v hv).trans (hfound.distance ?_).symm
  exact fun _ => Visit.owner_of_this (h.errors v hv)

theorem Stmt.Sound.of_subset {ss ts : List Stmt} (h : Sound ts) (hsub : ss ⊆ ts) : Sound ss :=
  ⟨fun s hs => h.words s (hsub hs), fun s hs => h.plain s (hsub hs)⟩

namespace Session

variable {runs : List Run} {s : Session} {clock : Nat → Except String Float} {text : List Char}
  {r : Run}

/-- The expressions of the programs have numbers that have been given. -/
theorem History.number_lt (h : History runs s) (hr : s.running? clock text = some r) {v : Visit}
    (hv : v ∈ Stmt.programVisits (Run.programOf (runs ++ [r]))) :
    v.expr.number < (s.chunk text).nextId := by
  rcases h.keeps.accept (accepts_of_running? hr) with ⟨hread, -, -⟩
  have hmem : v.expr ∈ Stmt.expressions (Stmt.partsAll (Run.programOf (runs ++ [r]))) := by
    rw [← Stmt.map_expr_visitsAll none []]
    exact List.mem_map_of_mem hv
  exact (hread.expressions.fresh.2 _ (List.mem_map_of_mem hmem)).2

/-- The expressions of a statement of the programs have different numbers. -/
theorem History.nodup_numbers (h : History runs s) (hr : s.running? clock text = some r) {stmt : Stmt}
    (hmem : stmt ∈ Stmt.partsAll (Run.programOf (runs ++ [r]))) :
    ((Stmt.expressions stmt.parts).map Expr.number).Nodup := by
  rcases h.keeps.accept (accepts_of_running? hr) with ⟨hread, -, -⟩
  have hsublist := (Stmt.sublist_partsAll _ hmem).flatMap fun s => s.operands.flatMap Expr.parts
  exact hread.expressions.fresh.1.sublist (hsublist.map Expr.number)

section Loop

variable {clauses : Parse.ForClauses} {body : Stmt} {context : Context} {owner : Option ClassDecl}
  {scopes : Scopes} {low : Nat}

/-- What is recorded for the programs stays when the copy of a loop is resolved in addition. -/
theorem History.records (h : History runs s) (hr : s.running? clock text = some r)
    (hlow : (s.chunk text).nextId ≤ low) :
    (r.setting.withLoop context scopes (clauses.relabel (.renumber (· + low)))
      (body.relabel (.renumber (· + low)))).Records id
        (Stmt.programVisits (Run.programOf (runs ++ [r])))
        (Stmt.programVisits (Run.programOf (runs ++ [r]))) := by
  have hresolved := h.resolved hr
  refine ⟨fun v hv => hresolved.recorded hv, hresolved.errors, ?_⟩
  intro v hv
  have hlt := Nat.lt_of_lt_of_le (h.number_lt hr hv) hlow
  rw [Visit.Recorded, ← hresolved.recorded hv, Setting.withLoop,
    Parse.ForClauses.resolve_renumber, Locals.distance?_append]
  rw [Findings.relabel, id, Locals.distance?_renumber_of_lt hlt, Option.or_none]

/-- What is recorded for the copy is what resolution finds in the loop. -/
theorem History.records_copy (h : History runs s) (hr : s.running? clock text = some r)
    (hlow : (s.chunk text).nextId ≤ low) (hcontext : context.cls = .ofOwner owner) {vs : List Visit}
    (hvisits : ∀ v ∈ vs, v ∈ Stmt.programVisits (Run.programOf (runs ++ [r])))
    (hnumbers : ((clauses.visits owner scopes (clauses.scopes scopes) (clauses.scopes scopes)
      body).map fun v => v.expr.number).Nodup) :
    (r.setting.withLoop context scopes (clauses.relabel (.renumber (· + low)))
      (body.relabel (.renumber (· + low)))).Records (· + low) vs
        (clauses.visits owner scopes (clauses.scopes scopes) (clauses.scopes scopes) body) := by
  have hresolved := h.resolved hr
  refine ⟨fun v hv => hresolved.recorded (hvisits v hv), fun v hv => hresolved.errors v (hvisits v hv),
    ?_⟩
  intro v hv
  have hold : r.setting.locals.distance? (v.expr.number + low) = none :=
    (h.within_running hr).distance?_of_le (Nat.le_add_left_of_le hlow)
  have hcovers := Parse.ForClauses.covers_resolve hcontext scopes clauses body
  have hinjective : Function.Injective (· + low) := fun _ _ heq => Nat.add_right_cancel heq
  rw [Visit.Recorded, Setting.withLoop, Parse.ForClauses.resolve_renumber, Locals.distance?_append,
    hold, Option.none_or]
  refine (Locals.distance?_relabel (f := .renumber (· + low)) hinjective _ _).trans ?_
  rw [hcovers.locals]
  exact Visit.recorded_flatMap hnumbers v hv

end Loop

/-- The tree that is read for a `for` loop does what the loop does. With an initializer one scope is
opened for the whole loop, and the initializer runs there once. Before each round the condition is
evaluated in that scope, then the body runs, and then the increment is evaluated in the same scope;
after a `return` or a fault it is not.

The loop is resolved where the tree stands: `scopes` are those that resolution has had around the tree,
and the frames of the state match them. -/
theorem History.for_is_loop (h : History runs s) (hr : s.running? clock text = some r) {fuel : Nat}
    {p₀ p₁ p₂ p₃ : ParseState} {clauses : Parse.ForClauses} {body tree : Stmt}
    (hclauses : Parse.forClauses p₀ = .ok clauses p₁)
    (hbody : Parse.statement fuel p₁ = .ok body p₂)
    (htree : Parse.forLoop clauses body p₂ = .ok tree p₃) {frame : FrameId} {m : Machine}
    (hbegun : r.Begins (.execute frame tree) m) {low : Nat} (hlow : (s.chunk text).nextId ≤ low)
    (routine : RoutineContext) :
    ∃ owner scopes,
      (∀ v ∈ tree.visits owner scopes, v ∈ Stmt.programVisits (Run.programOf (runs ++ [r]))) ∧
      m.store.Matches s.globals frame scopes ∧
      let clauses' := clauses.relabel (.renumber (· + low))
      let body' := body.relabel (.renumber (· + low))
      let T := r.setting.withLoop ⟨routine, .ofOwner owner⟩ scopes clauses' body'
      T.Concur m ((Task.execute frame tree).Ends T.first m)
        (LoopEnds T.second (Eval.enterFor clauses' frame) (Eval.forRound clauses' body') m) := by
  rcases h.before hr hbegun with ⟨hstore, owner, scopes, hvisits, hsound, hhosts⟩
  refine ⟨owner, scopes, hvisits, hhosts.frames, ?_⟩
  intro clauses' body' T
  have hplain := Parse.gives_forClauses _ _ _ hclauses
  have hdeclares := Parse.gives_statement fuel _ _ _ hbody
  have hparts := Parse.ForClauses.parts_subset_tree htree
  have hsoundBody := hsound.sound.of_subset (List.append_subset.mp hparts).2
  have hsublist := Parse.ForClauses.sublist_visits_tree htree hdeclares hsoundBody owner scopes
  have hnumbers := Parse.ForClauses.nodup_visits htree hdeclares hsoundBody
    (h.nodup_numbers hr (hsound.known tree tree.mem_parts_self)) owner scopes
    (clauses.scopes scopes) (clauses.scopes scopes)
  have hloop : clauses.Parallels T clauses' body body' :=
    Parse.ForClauses.parallels_renumber hhosts.toStands.homes
      (hsound.sound.of_subset (List.append_subset.mp hparts).1) hsoundBody hdeclares
      (h.records_copy hr hlow rfl (fun v hv => hvisits v (hsublist.subset hv)) hnumbers)
  -- The copy is resolved in addition, so nothing that is in the state notices it.
  have hm : m.Parallels T (.same m.store.frames.size) m := by
    refine ⟨World.StoreFits.parallels (h.records hr hlow) hstore, ?_, rfl, rfl, rfl⟩
    refine ⟨rfl, rfl, ?_⟩
    change r.setting.globals < _
    rw [(accepts_of_running? hr).globals]
    exact hstore.root.inside
  have hframe : Pairing.same m.store.frames.size none frame frame :=
    ⟨rfl, rfl, hhosts.frames.inside⟩
  -- The tree does what its own loop does, and that loop and its copy run in parallel.
  refine ⟨?_, ?_⟩
  · intro result n hends
    exact ((Eval.ends_forLoop hplain htree).mp hends.request).forth hloop hframe hm
  · intro result n hends
    rcases hends.back hloop hframe hm with ⟨P, r₁, n₁, hle, hresult, hn, hblocks⟩
    exact ⟨P, r₁, n₁, hle, hresult, hn, .of_request ((Eval.ends_forLoop hplain htree).mpr hblocks)⟩

/-! ## A loop with all clauses -/

/-- The text of a program that is a loop with all clauses. -/
def loopText : List Char :=
  "for(var a;!a;a=true)print a;".toList

/-- The clauses of the loop. -/
def loopClauses : Parse.ForClauses :=
  ⟨some (.var ⟨"a", 8, 1⟩ none), some (.unary ⟨1, 10, 1⟩ .not (.var ⟨0, "a", 11, 1⟩)), ⟨12, 1⟩,
    some (.assign ⟨4, "a", 13, 1⟩ (.literal ⟨3, 15, 4⟩ (.boolean true)))⟩

/-- The body of the loop. -/
def loopBody : Stmt :=
  .print (.var ⟨5, "a", 26, 1⟩)

/-- The tree that is read for the loop. -/
def loopTree : Stmt :=
  .block [.var ⟨"a", 8, 1⟩ none, .while (.unary ⟨1, 10, 1⟩ .not (.var ⟨0, "a", 11, 1⟩))
    (.block [loopBody,
      .expression (.assign ⟨4, "a", 13, 1⟩ (.literal ⟨3, 15, 4⟩ (.boolean true)))])]

/-- The run of the program. -/
def loopRun : Run :=
  ⟨⟨[(0, 0), (5, 1), (4, 1)], 0, fun _ => .error "no clock"⟩, Session.empty.machine, [loopTree]⟩

theorem running?_loopRun :
    Session.empty.running? (fun _ => .error "no clock") loopText = some loopRun := by
  with_unfolding_all rfl

/-- The clauses, the body and the tree are read one after the other. -/
theorem reads_loopTree : ∃ p₀ p₁ p₂ p₃, Parse.forClauses p₀ = .ok loopClauses p₁ ∧
    Parse.statement 2 p₁ = .ok loopBody p₂ ∧ Parse.forLoop loopClauses loopBody p₂ = .ok loopTree p₃ :=
  let p : ParseState := .start (scan 0 loopText) 0
  ⟨{ p with rest := p.rest.drop 2 }, _, _, _, by with_unfolding_all rfl, by with_unfolding_all rfl,
    by with_unfolding_all rfl⟩

theorem begins_loopTree : loopRun.Begins (.execute 0 loopTree) Session.empty.machine :=
  .asked .now

theorem ends_loopTree : ∃ n, (Task.execute 0 loopTree).Ends loopRun.setting Session.empty.machine
    (.ok .normal) n ∧ n.printed = ["nil"] :=
  ⟨_, ⟨9, rfl⟩, rfl⟩

/-- The loop itself prints what the tree prints. Its body and its increment find the variable in the
innermost scope, where those of the tree find it one step further out. -/
theorem for_is_loop_loopRun :
    let T : Tracks := ⟨loopRun.setting, [(0, 0), (5, 1), (4, 1), (6, 0), (11, 0), (10, 0)]⟩
    ∃ n', LoopEnds T.second (Eval.enterFor (loopClauses.relabel (.renumber (· + 6))) 0)
      (Eval.forRound (loopClauses.relabel (.renumber (· + 6))) (loopBody.relabel (.renumber (· + 6))))
      Session.empty.machine (.ok .normal) n' ∧ n'.printed = ["nil"] := by
  have hlow : (Session.empty.chunk loopText).nextId ≤ 6 := by with_unfolding_all decide
  rcases reads_loopTree with ⟨p₀, p₁, p₂, p₃, hclauses, hbody, htree⟩
  rcases ends_loopTree with ⟨n, hends, hprinted⟩
  rcases History.empty.for_is_loop running?_loopRun hclauses hbody htree begins_loopTree hlow .none with
    ⟨owner, scopes, hvisits, hmatches, hconcur⟩
  have hscopes : scopes = [] := List.eq_nil_of_length_eq_zero (Nat.succ.inj hmatches.length.symm)
  have howner : owner = none := by
    subst hscopes
    have howners : (Stmt.programVisits [loopTree]).map Visit.owner = List.replicate 5 none := rfl
    have hmem := List.mem_map_of_mem (f := Visit.owner) (hvisits _ List.mem_cons_self)
    exact List.eq_of_mem_replicate (howners ▸ hmem)
  subst hscopes howner
  rcases hconcur.forth hends with ⟨P, r', n', -, hr, hn, hloop⟩
  cases hr with
  | ok hflow =>
      cases hflow
      exact ⟨n', hloop, hn.printed.trans hprinted⟩

end Session

end Lox
