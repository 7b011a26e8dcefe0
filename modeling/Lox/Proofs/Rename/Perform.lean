import Lox.Proofs.Rename.Eval

/-!
# Runs do not see the name of a variable

A statement is executed in the same way when the old name is put back, round after round, and so is
every task. The contract of evaluation tells where the tasks of a round stand.

Main statement: `perform_undoes`.
-/

namespace Lox

variable {W : World} {n : Alias} {setting : Setting} {m : Machine} {frame : FrameId}

namespace Eval

/-! ## Statements -/

/-- A statement that declares nothing can be executed wherever no frame binds both names. -/
theorem ready_of_plain {s : Stmt} (hplain : s.declares? = none) (hinside : frame < m.store.frames.size)
    (hclear : n.Clear W.root m.store) : (Task.execute frame s).Ready W n m.store := by
  refine ⟨hinside, hclear, ?_, fun _ hnil => nomatch hnil⟩
  have hnil : (Task.execute frame s).declared = [] := by
    rw [Task.declared, Stmt.declared, hplain]
    rfl
  rw [hnil]
  exact hclear.admits_nil

/-- A branch is executed, and the frame gains nothing. -/
theorem undoes_branch {s : Stmt} (hplain : s.declares? = none)
    (hinside : frame < m.store.frames.size) (hclear : n.Clear W.root m.store) :
    (execute frame s).Undoes W n setting m (Flow.rename n.back)
      (fun _ m' => m.store.Gains m'.store frame []) (execute frame (s.rename n.back)) := by
  refine (undoes_execute (ready_of_plain hplain hinside hclear)).mono ?_
  intro _ m' hgains
  rw [Stmt.declared, hplain] at hgains
  exact hgains

theorem undoes_loopRound {condition : Expr} {body : Stmt} (hplain : body.declares? = none)
    (hready : (Task.evaluate frame condition).Ready W n m.store) :
    (loopRound frame condition body).Undoes W n setting m (Option.map (Flow.rename n.back))
      (fun _ m' => m.store.Gains m'.store frame [])
      (loopRound frame (condition.rename n.back) (body.rename n.back)) := by
  refine (undoes_evaluate hready).bind ?_
  rintro value m₁ hclear₁ ⟨hpassed, -⟩
  rw [Value.isTruthy_rename]
  split
  · have hinside : frame < m₁.store.frames.size := Nat.lt_of_lt_of_le hready.inside hpassed.gains.size
    refine (undoes_branch hplain hinside hclear₁).bind ?_
    intro flow m₂ hclear₂ hgains₂
    cases flow with
    | returned value => exact .pure hclear₂ rfl (hpassed.gains.after hgains₂)
    | normal => exact .pure hclear₂ rfl (hpassed.gains.after hgains₂)
  · exact .pure hclear₁ rfl hpassed.gains

theorem undoes_ifElse {condition : Expr} {consequent : Stmt} {alternative : Option Stmt}
    (hplain : (Stmt.ifElse condition consequent alternative).BranchesPlain)
    (hready : (Task.evaluate frame condition).Ready W n m.store) :
    (executeRound frame (.ifElse condition consequent alternative)).Undoes W n setting m
      (Option.map (Flow.rename n.back)) (fun _ m' => m.store.Gains m'.store frame [])
      (executeRound frame ((Stmt.ifElse condition consequent alternative).rename n.back)) := by
  refine (undoes_evaluate hready).bind ?_
  rintro value m₁ hclear₁ ⟨hpassed, -⟩
  have hinside : frame < m₁.store.frames.size := Nat.lt_of_lt_of_le hready.inside hpassed.gains.size
  rw [Value.isTruthy_rename]
  split
  · exact (undoes_branch hplain.1 hinside hclear₁).map (fun _ => rfl) fun _ _ hgains =>
      hpassed.gains.after hgains
  · cases alternative with
    | none =>
        exact .pure hclear₁ rfl hpassed.gains
    | some s =>
        exact (undoes_branch (hplain.2 s rfl) hinside hclear₁).map (fun _ => rfl) fun _ _ hgains =>
          hpassed.gains.after hgains

/-- A block is executed in a frame of its own. -/
theorem undoes_block {body : List Stmt} (hapart : n.Apart (Stmt.declaredAll body))
    (hclear : n.Clear W.root m.store) :
    (executeRound frame (.block body)).Undoes W n setting m (Option.map (Flow.rename n.back))
      (fun _ m' => m.store.Gains m'.store frame [])
      (executeRound frame ((Stmt.block body).rename n.back)) := by
  have hadmits : n.Admits W.root (m.store.newScope frame).2 m.store.frames.size
      (Stmt.declaredAll body) := hclear.admits_addFrame hapart
  have hinside : m.store.frames.size < (m.store.newScope frame).2.frames.size := by
    rw [Store.newScope, Store.size_addFrame]
    exact Nat.lt_succ_self _
  refine (undoes_newScope hclear).bind ?_
  rintro inner m₁ hclear₁ ⟨rfl, rfl⟩
  refine (undoes_executeAll hinside hclear₁ hadmits).map (fun _ => rfl) ?_
  intro flow m₂ hgains
  exact Store.Gains.outside .addFrame hgains (Nat.le_refl _)

/-- A declaration of a variable evaluates its initializer and then binds the name. -/
theorem undoes_var (h : n.Suits W setting) {name : Ident} {initial : Option Expr}
    (hs : .var name initial ∈ W.statements)
    (hready : (Task.execute frame (.var name initial)).Ready W n m.store) :
    (executeRound frame (.var name initial)).Undoes W n setting m (Option.map (Flow.rename n.back))
      (fun _ m' => m.store.Gains m'.store frame [name.name])
      (executeRound frame ((Stmt.var name initial).rename n.back)) := by
  have hinitial : ∀ e ∈ initial, (Task.evaluate frame e).Ready W n m.store := fun e he =>
    h.ready hs (Option.mem_toList.mpr he) hready.inside hready.clear hready.admits
  refine (undoes_evaluateOption hready.clear hinitial).bind ?_
  intro value m₁ hclear₁ hgains₁
  have hadmits : n.Admits W.root m₁.store frame [name.name] :=
    Alias.Admits.gains hready.admits hgains₁ hready.inside
  refine (undoes_define hclear₁ hadmits rfl rfl).bind ?_
  rintro _ m₂ hclear₂ rfl
  exact .pure hclear₂ rfl (hgains₁.after .define)

theorem undoes_function (h : n.Suits W setting) {decl : FunctionDecl}
    (hs : .function decl ∈ W.statements)
    (hready : (Task.execute frame (.function decl)).Ready W n m.store) :
    (executeRound frame (.function decl)).Undoes W n setting m (Option.map (Flow.rename n.back))
      (fun _ m' => m.store.Gains m'.store frame [decl.name.name])
      (executeRound frame ((Stmt.function decl).rename n.back)) := by
  have hmake : (makeFunction ⟨decl, frame, false⟩).Undoes W n setting m (Value.rename n.back)
      (fun _ m' => m.store.Gains m'.store frame [])
      (makeFunction ⟨Stmt.renameRoutine n.back decl, frame, false⟩) :=
    undoes_makeFunction frame hready.clear
  refine hmake.bind ?_
  intro value m₁ hclear₁ hgains₁
  have hadmits : n.Admits W.root m₁.store frame [decl.name.name] :=
    Alias.Admits.gains hready.admits hgains₁ hready.inside
  have hname : (Stmt.renameRoutine n.back decl).name.name = n.undo decl.name.name := by
    rw [Stmt.renameRoutine_name, Alias.undo_of_ne (h.functions decl hs)]
  refine (undoes_define hclear₁ hadmits hname rfl).bind ?_
  rintro _ m₂ hclear₂ rfl
  exact .pure hclear₂ rfl (hgains₁.after .define)

theorem undoes_executeRound (h : n.Suits W setting) {s : Stmt} (hsound : W.Sound s.parts)
    (hready : (Task.execute frame s).Ready W n m.store) :
    (executeRound frame s).Undoes W n setting m (Option.map (Flow.rename n.back))
      (fun _ m' => m.store.Gains m'.store frame s.declared) (executeRound frame (s.rename n.back)) := by
  have hs : s ∈ W.statements := hsound.known s (Stmt.mem_parts_self s)
  have hplain : s.BranchesPlain := hsound.sound.plain s (Stmt.mem_parts_self s)
  have hclear := hready.clear
  have hoperand : ∀ e ∈ s.operands, (Task.evaluate frame e).Ready W n m.store := fun e he =>
    h.ready hs he hready.inside hclear hready.admits
  cases s with
  | expression e =>
      refine (undoes_evaluate (hoperand e List.mem_cons_self)).bind ?_
      rintro _ m₁ hclear₁ ⟨hpassed, -⟩
      exact .pure hclear₁ rfl hpassed.gains
  | print e =>
      refine (undoes_evaluate (hoperand e List.mem_cons_self)).bind ?_
      rintro value m₁ hclear₁ ⟨hpassed, -⟩
      refine (undoes_print hclear₁ value.text_rename).bind ?_
      intro _ m₂ hclear₂ hstore
      refine .pure hclear₂ rfl ?_
      rw [hstore]
      exact hpassed.gains
  | var name initial =>
      exact undoes_var h hs hready
  | block body =>
      exact undoes_block (h.blocks body hs) hclear
  | ifElse condition consequent alternative =>
      exact undoes_ifElse hplain (hoperand condition List.mem_cons_self)
  | «while» condition body =>
      exact undoes_loopRound hplain (hoperand condition List.mem_cons_self)
  | function decl =>
      exact undoes_function h hs hready
  | «return» keyword value =>
      have hvalue : ∀ e ∈ value, (Task.evaluate frame e).Ready W n m.store := fun e he =>
        hoperand e (Option.mem_toList.mpr he)
      refine (undoes_evaluateOption hclear hvalue).bind ?_
      intro value m₁ hclear₁ hgains₁
      exact .pure hclear₁ rfl hgains₁
  | «class» name parent methods =>
      let d : ClassDecl := ⟨name, parent, methods⟩
      have hd : d.statement ∈ W.statements := hs
      refine (undoes_declareClass h hd hready).bind ?_
      intro _ m₁ hclear₁ hgains₁
      exact .pure hclear₁ rfl hgains₁

end Eval

/-! ## Tasks -/

theorem Task.undoes_round (h : n.Suits W setting) {task : Task} (hbefore : W.contract.before task m)
    (hready : task.Ready W n m.store) :
    task.round.Undoes W n setting m (Option.map (task.undoResult n))
      (fun _ m' => m.store.Gains m'.store task.frame task.declared) (task.undo n).round := by
  cases task with
  | evaluate frame e =>
      exact (Eval.undoes_valueOf h hbefore hready).map (fun _ => rfl) fun _ _ hgains => hgains
  | execute frame s =>
      rcases hbefore with ⟨-, owner, scopes, -, hsound, -⟩
      exact Eval.undoes_executeRound h hsound hready

/-- Doing a task gives the same when the old name is put back in the task and in the machine. -/
theorem perform_undoes (h : n.Suits W setting) {B : Task → Machine → Prop}
    (hclosed : Closed setting B) (hkept : W.contract.Kept setting B) {fuel : Nat} :
    ∀ {task : Task} {m : Machine}, B task m → W.contract.before task m → task.Ready W n m.store →
      (perform setting fuel task m).Undoes W n (task.undoResult n)
        (fun _ m' => m.store.Gains m'.store task.frame task.declared)
        (perform setting fuel (task.undo n) (m.undo n)) := by
  induction fuel with
  | zero =>
      intro task m _ _ _
      exact .timeout
  | succ fuel ih =>
      intro task m hB hbefore hready
      have hafter : ∀ task' m' r m'', (task.round setting m).Asks setting task' m' →
          W.contract.before task' m' → perform setting fuel task' m' = .ended r m'' →
            W.contract.after task' m' r m'' := fun _ _ _ _ hasks hbefore' hperform =>
        hkept.perform hclosed (hclosed.inside hB hasks) hbefore' hperform
      have hround : ((task.round setting m).run (perform setting fuel)).Undoes W n
          (Option.map (task.undoResult n))
          (fun _ m' => m.store.Gains m'.store task.frame task.declared)
          (((task.undo n).round setting (m.undo n)).run (perform setting fuel)) :=
        Course.Undoes.run (fun _ _ hasks => ih (hclosed.inside hB hasks)) hafter
          (hkept task m hB hbefore) (Task.undoes_round h hbefore hready)
      rw [perform, perform]
      generalize hfirst : (task.round setting m).run (perform setting fuel) = first at hround
      generalize ((task.undo n).round setting (m.undo n)).run (perform setting fuel) = second
        at hround
      cases hround with
      | timeout => exact .timeout
      | error hclear => exact .error hclear
      | @ok result? m' hclear hgains =>
          cases result? with
          | some result => exact .ok hclear hgains
          | none =>
              -- The task goes round once more, and its frame gains no other names by that.
              have hagain : W.contract.RoundEnds task m (.ok none) m' :=
                (hkept task m hB hbefore).run hafter hfirst
              refine (ih (hclosed.again hB ⟨fuel, hfirst⟩) hagain.1
                (hready.again hclear hgains)).mono ?_
              intro _ m'' hgains'
              exact (hgains.trans hgains').mono
                (List.append_subset.mpr ⟨List.Subset.refl _, List.Subset.refl _⟩)

end Lox
