import Lox.Proofs.Grammar.Binders
import Lox.Proofs.Rename.Perform
import Lox.Proofs.Rename.Variable
import Lox.Proofs.Session.Agreement

/-!
# The name of a local variable cannot be observed

In a program that is accepted a variable that is no global, or a parameter, gets a new name, together
with the references that resolution binds to it. If nothing in the session has the new name, then
resolution finds the same distances, and the program prints the same and ends in the same way.

The machine on which the program begins is one in which the old name can be put back without a change,
and so it is after every earlier run: `Session.History.unaware`.

Main statement: `Session.History.rename_unobservable`.
-/

namespace Lox

/-! ## Runs -/

section Runs

variable {W : World} {n : Alias} {setting : Setting} {m : Machine} {r : Run}

/-- The statements of a program are executed in the globals, which never gain the new name. -/
theorem Eval.undoes_interpret {ss : List Stmt} : ∀ {m : Machine}, n.Clear W.root m.store →
    (∀ s ∈ ss, n.new ∉ s.declared) →
      (interpret W.root ss).Undoes W n setting m id (fun _ _ => True)
        (interpret W.root (Stmt.renameAll n.back ss)) := by
  induction ss with
  | nil =>
      intro m hclear _
      exact .pure hclear rfl trivial
  | cons s ss ih =>
      intro m hclear hnew
      have hadmits : n.Admits W.root m.store W.root s.declared := by
        refine ⟨Alias.apart_of_not_mem ?_, fun _ => hnew s List.mem_cons_self⟩
        intro hmem
        rcases List.mem_append.mp hmem with hmem | hmem
        · exact hnew s List.mem_cons_self hmem
        · exact hclear.globals hmem
      -- The globals never bind the new name, so what a statement declares there is not confused.
      have hready : (Task.execute W.root s).Ready W n m.store :=
        ⟨hclear.inside, hclear, hadmits, fun _ hnil => nomatch hnil⟩
      rw [interpret, Stmt.renameAll, interpret]
      refine (undoes_execute hready).bind ?_
      intro _ m₁ hclear₁ _
      exact ih hclear₁ fun s hs => hnew s (List.mem_cons_of_mem _ hs)

/-- A run goes the same way when the old name is put back. -/
theorem World.Explains.undoes (h : W.Explains r) (hsuits : n.Suits W r.setting)
    (hclear : n.Clear W.root r.machine.store) (hnew : ∀ s ∈ r.statements, n.new ∉ s.declared)
    (fuel : Nat) :
    (r.course.run (perform r.setting fuel)).Undoes W n id (fun _ _ => True)
      ((Eval.interpret r.setting.globals (Stmt.renameAll n.back r.statements) r.setting
        (r.machine.undo n)).run (perform r.setting fuel)) := by
  have hcourse : r.course.Undoes W n id (fun _ _ => True)
      (Eval.interpret r.setting.globals (Stmt.renameAll n.back r.statements) r.setting
        (r.machine.undo n)) := by
    rw [Run.course, hsuits.globals]
    exact Eval.undoes_interpret hclear hnew
  refine Course.Undoes.run ?_ ?_ h.meets hcourse
  · intro task m hasks hbefore hready
    exact perform_undoes hsuits r.course.closed_begins h.kept (.asked hasks) hbefore hready
  · intro task m result m' hasks hbefore hperform
    exact h.kept.perform r.course.closed_begins (.asked hasks) hbefore hperform

/-- Where both outcomes come to an end, the old name has been put back. -/
theorem Outcome.Undoes.ended {α β : Type} {k : α → β} {Q : α → Machine → Prop}
    {result : Except Fault α} {result' : Except Fault β} {m' : Machine}
    (h : Outcome.Undoes W n k Q (.ended result m) (.ended result' m')) :
    m' = m.undo n ∧ n.Clear W.root m.store := by
  cases h with
  | ok hclear _ => exact ⟨rfl, hclear⟩
  | error hclear => exact ⟨rfl, hclear⟩

/-- Where the new name is not written nothing is put back. -/
theorem Stmt.renameAll_back_of_omits {ss : List Stmt} (h : Omits ss n.new) :
    renameAll n.back ss = ss := by
  refine renameAll_eq_self ss ⟨?_, ?_⟩
  · exact fun s hs j hj =>
      Alias.undo_of_ne (h.binders s hs j (s.variables_sublist_binders.subset hj))
  · exact fun e he r hr => Alias.undo_of_ne (h.references e he r hr)

theorem Stmt.Omits.declared {ss : List Stmt} {name : String} (h : Omits ss name) :
    ∀ s ∈ ss, name ∉ s.declared := by
  intro s hs hmem
  rw [Stmt.declared, Option.mem_toList, Option.map_eq_some_iff] at hmem
  rcases hmem with ⟨j, hj, hname⟩
  exact h.binders s (parts_subset_partsAll hs s.mem_parts_self) j (mem_binders_of_declares? hj) hname

end Runs

/-! ## The machine on which a run begins -/

namespace Store

variable {n : Alias}

theorem names_newRoot (f : FrameId) : empty.fresh.2.newRoot.2.names f = [] := by
  rw [newRoot, names, bindings_addFrame, bindings_of_size_le (Nat.zero_le f)]
  rfl

/-- The first globals bind nothing but the clock. -/
theorem undo_newGlobals (hclock : clockName ≠ n.new) :
    empty.newGlobals.2.undo n = empty.newGlobals.2 := by
  let root : FrameId × Store := empty.fresh.2.newRoot
  have htells : n.Tells clockName (root.2.names root.1) := by
    rw [names_newRoot]
    exact fun _ hnil => nomatch hnil
  have hroot : root.2.undo n = root.2 := by
    simp [root, newRoot, addFrame, fresh, empty, undo, Frame.undo, Bindings.mapEntries]
  have hdefine : (root.2.undo n).define root.1 (n.undo clockName)
      ((Value.native empty.fresh.1).rename n.back) = empty.newGlobals.2.undo n := undo_define htells
  rw [hroot, Alias.undo_of_ne hclock] at hdefine
  exact hdefine.symm

theorem clear_newGlobals (hclock : clockName ≠ n.new) :
    n.Clear empty.newGlobals.1 empty.newGlobals.2 := by
  have hroot : n.Clear empty.newGlobals.1 empty.fresh.2.newRoot.2 := by
    refine ⟨Nat.zero_lt_one, fun f => Alias.apart_of_not_mem ?_, ?_⟩
    · rw [names_newRoot]
      exact List.not_mem_nil
    · rw [names_newRoot]
      exact List.not_mem_nil
  refine hroot.define ⟨?_, fun _ hmem => hclock (List.mem_singleton.mp hmem).symm⟩
  rw [names_newRoot]
  exact Alias.apart_of_not_mem fun hmem => hclock (List.mem_singleton.mp hmem).symm

end Store

namespace Session

variable {runs : List Run} {s : Session} {clock : Nat → Except String Float} {text : List Char}
  {r : Run} {n : Alias}

/-- Nothing on the machine of a session has the new name. -/
structure Unaware (n : Alias) (s : Session) : Prop where
  machine : s.machine.undo n = s.machine
  clear : n.Clear s.globals s.machine.store

/-- A run that a text may make goes the same way when the old name is put back in its program, if it
can be put back in all programs of the session. -/
theorem History.undoes (h : History runs s) (haccepts : s.Accepts text r) (hunaware : s.Unaware n)
    (hundoable : n.Undoable r.setting.locals (Run.programOf (runs ++ [r])))
    (hnew : ∀ stmt ∈ r.statements, n.new ∉ stmt.declared) (fuel : Nat) :
    (r.course.run (perform r.setting fuel)).Undoes (World.ofRuns (runs ++ [r]) s.globals) n id
      (fun _ _ => True)
      ((Eval.interpret r.setting.globals (Stmt.renameAll n.back r.statements) r.setting
        r.machine).run (perform r.setting fuel)) := by
  rcases h.keeps.accept haccepts with ⟨hread, herrors, hlocals⟩
  have hholds : (World.ofRuns (runs ++ [r]) s.globals).Holds (runs ++ [r]) :=
    World.holds_ofRuns (Stmt.resolved_of_readAll hread herrors)
  have hexplains := h.explains_of_accepts haccepts hholds rfl
  have hsuits : n.Suits (World.ofRuns (runs ++ [r]) s.globals) r.setting :=
    Alias.suits haccepts.globals rfl rfl hread herrors hlocals hundoable
  have hmachine : r.machine.undo n = r.machine := by
    rw [haccepts.machine]
    exact hunaware.machine
  have hclear : n.Clear s.globals r.machine.store := by
    rw [haccepts.machine]
    exact hunaware.clear
  have hundoes := hexplains.undoes hsuits hclear hnew fuel
  rwa [hmachine] at hundoes

/-- In a session whose programs do not have a name, the machine does not have it either. -/
theorem History.unaware (h : History runs s) (hclock : Store.clockName ≠ n.new)
    (homits : Stmt.Omits (Run.programOf runs) n.new) : s.Unaware n := by
  induction h with
  | empty =>
      exact ⟨congrArg (Machine.mk · 0 0 []) (Store.undo_newGlobals hclock),
        Store.clear_newGlobals hclock⟩
  | resetError _ ih =>
      rcases ih homits with ⟨hmachine, hclear⟩
      exact ⟨hmachine, hclear⟩
  | @run runs s s' fuel clock text answer h hrun ih =>
      rcases run?_cases hrun with ⟨hnone, rfl⟩ | ⟨r, m, result, hadFault, hsome, hends, rfl⟩
      · rw [hnone, Option.toList_none, List.append_nil] at homits
        rcases ih homits with ⟨hmachine, hclear⟩
        exact ⟨hmachine, hclear⟩
      · rw [hsome, Option.toList_some] at homits
        have hundoable : n.Undoable r.setting.locals (Run.programOf (runs ++ [r])) :=
          Alias.undoable_of_omits homits
        rw [Run.programOf_append, Run.programOf_single] at homits
        rcases hends with ⟨steps, hends⟩
        have hundoes := h.undoes (accepts_of_running? hsome) (ih homits.left) hundoable
          homits.right.declared steps
        -- The program is as it was, so the run is compared with itself.
        rw [Stmt.renameAll_back_of_omits homits.right] at hundoes
        change Outcome.Undoes _ _ _ _ (r.course.run _) (r.course.run _) at hundoes
        rw [hends] at hundoes
        rcases hundoes.ended with ⟨hmachine, hclear⟩
        exact ⟨congrArg Machine.flush hmachine.symm, hclear⟩

/-! ## A new name -/

/-- The session in which an accepted text runs. -/
def accepting (s : Session) (text : List Char) (locals : Locals) : Session :=
  { s.append text (s.chunk text).nextId with locals := s.locals ++ locals }

/-- An accepted text runs with its distances. Its declarations are all different. -/
theorem of_running? (h : s.running? clock text = some r) :
    ∃ locals, resolveProgram r.statements = .ok locals ∧
      (∀ fuel, s.run? fuel clock text = interpret? fuel clock r.statements (s.accepting text locals)) ∧
        r.setting = (s.accepting text locals).setting clock ∧
          (Stmt.bindersAll (Stmt.partsAll r.statements)).Nodup := by
  unfold running? at h
  split at h
  · cases h
  · rename_i statements locals hok
    cases h
    rcases read_of_chunk hok with ⟨hread, hresolve⟩
    exact ⟨locals, hresolve, fun fuel => run?_of_ok hok, rfl, Reading.nodup_binders_of_ofText hread⟩

/-- How a run ends and what it prints. Faults may show the names of variables, and are left out. -/
def observed? (result : Option (Session × Answer)) : Option (Status × List String) :=
  result.map fun answered => (answered.2.status, answered.2.printed)

theorem observed?_afterRun? {W : World} {Q : Unit → Machine → Prop} {o o' : Outcome Unit}
    (h : o.Undoes W n id Q o') : observed? (s.afterRun? o') = observed? (s.afterRun? o) := by
  cases h <;> rfl

/-- A program that is accepted, with a new name for one of its variables that is no global. The
variable is declared in one place. The new name is no reserved word, not that of the clock, and nothing
in the session has it. Then resolution accepts the program with the new name too and finds the same
distances, and with any number of steps both programs print the same lines and end in the same way, if
they end. -/
theorem History.rename_unobservable (h : History runs s) (hr : s.running? clock text = some r)
    {t : Stmt} {i : Ident} (ht : t ∈ Stmt.partsAll r.statements) (hi : i ∈ t.variables)
    (hlocal : ∀ initial, .var i initial ∉ r.statements) {new : String}
    (hword : Keyword.ofText? new = none) (hclock : new ≠ Store.clockName)
    (homits : Stmt.Omits (Run.programOf (runs ++ [r])) new) :
    ((Stmt.partsAll r.statements).flatMap Stmt.variables).count i = 1 ∧
      ∃ locals, resolveProgram r.statements = .ok locals ∧
        resolveProgram (Stmt.renameAll (.ofVariable r.statements i new) r.statements) = .ok locals ∧
          ∀ fuel,
            s.run? fuel clock text = interpret? fuel clock r.statements (s.accepting text locals) ∧
              observed? (interpret? fuel clock
                  (Stmt.renameAll (.ofVariable r.statements i new) r.statements)
                  (s.accepting text locals)) =
                observed? (s.run? fuel clock text) := by
  rcases of_running? hr with ⟨locals, hresolve, hrun, hsetting, hunique⟩
  have haccepts := accepts_of_running? hr
  have hdeclares : Stmt.Declares r.statements i := ⟨⟨t, ht, hi⟩, hunique⟩
  let n : Alias := ⟨i.name, new, hdeclares.isWord haccepts.read, hword⟩
  rw [Run.programOf_append, Run.programOf_single] at homits
  let renamed := Stmt.renameAll (.ofVariable r.statements i new) r.statements
  have hfindings : Stmt.programFindings renamed = Stmt.programFindings r.statements :=
    Stmt.programFindings_rename haccepts.read haccepts.errors hdeclares hword homits.right
  refine ⟨hdeclares.count, locals, hresolve, ?_, ?_⟩
  · rw [Stmt.resolveProgram_rename haccepts.read haccepts.errors hdeclares hword homits.right]
    exact hresolve
  intro fuel
  refine ⟨hrun fuel, ?_⟩
  -- The program with the new name is the first to run, and then the old name is put back.
  let other : Run := ⟨r.setting, r.machine, renamed⟩
  have haccepts' : s.Accepts text other := by
    refine ⟨haccepts.machine, haccepts.globals, ?_, Stmt.readAll_ofVariable haccepts.read hword, ?_⟩
    · rw [hfindings]
      exact haccepts.locals
    · rw [hfindings]
      exact haccepts.errors
  have hundoable : n.Undoable other.setting.locals (Run.programOf (runs ++ [other])) := by
    rw [Run.programOf_append, Run.programOf_single]
    refine (Alias.undoable_of_omits homits.left).append ?_
    refine Alias.undoable_ofVariable haccepts.read haccepts.errors hdeclares rfl homits.right ?_
    intro v hv
    have hmem : r ∈ runs ++ [r] := List.mem_append_right _ List.mem_cons_self
    exact (h.resolved hr).distance v (World.mem_programVisits hmem hv)
  have hundoes := h.undoes haccepts' (h.unaware hclock.symm homits.left) hundoable
    (Stmt.declared_ofVariable haccepts.read hdeclares homits.right hlocal) fuel
  have hback : Stmt.renameAll n.back renamed = r.statements :=
    Stmt.renameAll_back (Stmt.resolved_of_readAll haccepts.read haccepts.errors) homits.right rfl
  rw [hback] at hundoes
  have hglobals : (s.accepting text locals).globals = r.setting.globals := haccepts.globals.symm
  have hmachine : (s.accepting text locals).machine = r.machine := haccepts.machine.symm
  rw [hrun fuel, interpret?_eq, interpret?_eq, hglobals, hmachine, ← hsetting]
  exact (observed?_afterRun? hundoes).symm

/-- The text of a program with a variable in a block. -/
def blockText : List Char :=
  "\x7bvar a=true;print a;\x7d".toList

/-- The block. -/
def blockStmt (name : String) : Stmt :=
  .block [.var ⟨name, 5, 1⟩ (some (.literal ⟨0, 7, 4⟩ (.boolean true))),
    .print (.var ⟨1, name, 18, 1⟩)]

theorem running?_blockText :
    Session.empty.running? (fun _ => .error "no clock") blockText =
      some ⟨⟨[(1, 0)], 0, fun _ => .error "no clock"⟩, Session.empty.machine, [blockStmt "a"]⟩ := by
  with_unfolding_all rfl

/-- Under another name the variable is printed as before. -/
theorem rename_unobservable_blockText :
    observed? (interpret? 9 (fun _ => .error "no clock") [blockStmt "b"]
      (Session.empty.accepting blockText [(1, 0)])) = some (.completed, ["true"]) := by
  have hvar : Stmt.var ⟨"a", 5, 1⟩ (some (.literal ⟨0, 7, 4⟩ (.boolean true))) ∈
      Stmt.partsAll [blockStmt "a"] := List.mem_cons_of_mem _ List.mem_cons_self
  have hlocal : ∀ initial, Stmt.var ⟨"a", 5, 1⟩ initial ∉ [blockStmt "a"] := by
    intro initial hmem
    cases List.mem_singleton.mp hmem
  have homits : Stmt.Omits [blockStmt "a"] "b" := by
    refine ⟨by decide, ?_⟩
    intro e he r hr
    rcases List.mem_cons.mp he with rfl | he
    · cases hr
    · cases List.mem_singleton.mp he
      cases hr
      decide
  rcases History.empty.rename_unobservable running?_blockText hvar List.mem_cons_self hlocal (by decide)
    (by decide) homits with ⟨-, locals, haccepted, -, hsame⟩
  have hlocals : resolveProgram [blockStmt "a"] = .ok [(1, 0)] := rfl
  rw [hlocals] at haccepted
  cases haccepted
  have hrun : observed? (Session.empty.run? 9 (fun _ => .error "no clock") blockText) =
      some (.completed, ["true"]) := by
    with_unfolding_all rfl
  have hobserved : observed? (interpret? 9 (fun _ => .error "no clock") [blockStmt "b"]
      (Session.empty.accepting blockText [(1, 0)])) = _ := (hsame 9).2
  exact hobserved.trans hrun

end Session

end Lox
