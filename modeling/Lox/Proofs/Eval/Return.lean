import Lox.Proofs.Eval.Calls

/-!
# How statements return

A statement ends in a return only if a `return` that stands in it, and in no function or method inside
it, is the last statement that is executed for it.

Main statement: `Task.Ends.of_returned`.
-/

namespace Lox

variable {α β : Type} {setting : Setting}

/-! ## What is asked for last -/

/-- A course asks for a task, and ends when it has been answered. -/
inductive Course.AsksLast (setting : Setting) : Course α → Task → Machine → Prop
  | now {task : Task} {m m' m'' : Machine} {next : Except Fault task.Result → Machine → Course α}
      {r : Except Fault task.Result} {r' : Except Fault α} :
      task.Ends setting m r m' → next r m' = .ended r' m'' → AsksLast setting (.ask task m next) task m
  | later {task task' : Task} {m m' m'' : Machine}
      {next : Except Fault task.Result → Machine → Course α} {r : Except Fault task.Result} :
      task.Ends setting m r m' → AsksLast setting (next r m') task' m'' →
        AsksLast setting (.ask task m next) task' m''

namespace Course.AsksLast

variable {c : Course α} {f : α → Machine → Course β} {task : Task} {m m' : Machine}

/-- What is only done with the result is no question. -/
theorem map (h : c.AsksLast setting task m) (hf : ∀ a m', ∃ r, f a m' = .ended r m') :
    (c.bind f).AsksLast setting task m := by
  induction h with
  | @now task m₁ m₂ m₃ next r r' hends hended =>
      cases r' with
      | error fault =>
          have hnext : (next r m₂).bind f = .ended (.error fault) m₃ := by
            rw [hended]
            rfl
          exact .now hends hnext
      | ok a =>
          rcases hf a m₃ with ⟨r'', hr⟩
          have hnext : (next r m₂).bind f = .ended r'' m₃ := by
            rw [hended]
            exact hr
          exact .now hends hnext
  | later hends _ ih => exact .later hends ih

theorem bind_right {a : α} (hends : c.Ends setting (.ok a) m')
    (h : (f a m').AsksLast setting task m) : (c.bind f).AsksLast setting task m := by
  rcases hends with ⟨fuel, hrun⟩
  induction c with
  | ended result m₁ =>
      cases hrun
      exact h
  | ask task' m₁ next ih =>
      simp only [Course.run] at hrun
      cases hanswer : perform setting fuel task' m₁ with
      | timeout =>
          rw [hanswer] at hrun
          cases hrun
      | ended result m₂ =>
          rw [hanswer] at hrun
          exact .later ⟨fuel, hanswer⟩ (ih result m₂ hrun)

end Course.AsksLast

/-- The last statement that is executed for a statement in the same call: the statement itself, or the
last one for the statement that it asks for last, in the last round if it is a loop. -/
inductive Stmt.Last (setting : Setting) :
    FrameId → Stmt → Machine → FrameId → Stmt → Machine → Prop
  | self {frame : FrameId} {s : Stmt} {m : Machine} : Last setting frame s m frame s m
  | inside {frame g g' : FrameId} {s t t' : Stmt} {m m' m'' : Machine} :
      ((Task.execute frame s).round setting m).AsksLast setting (.execute g t) m' →
      Last setting g t m' g' t' m'' → Last setting frame s m g' t' m''
  | again {frame g : FrameId} {s t : Stmt} {m m' m'' : Machine} :
      (Task.execute frame s).round.Ends setting m (.ok none) m' →
      Last setting frame s m' g t m'' → Last setting frame s m g t m''

namespace Eval

variable {frame : FrameId} {m m' : Machine} {v : Value}

/-- A step asks last for a statement that returns. -/
def LastReturns (setting : Setting) (x : Eval α) (m : Machine) (ss : List Stmt) (v : Value)
    (m' : Machine) : Prop :=
  ∃ t ∈ ss, ∃ g m₁, (x setting m).AsksLast setting (.execute g t) m₁ ∧
    (Task.execute g t).Ends setting m₁ (.ok (.returned v)) m'

theorem LastReturns.bind_right {x : Eval α} {f : α → Eval β} {a : α} {m₁ : Machine}
    {ss : List Stmt} (hx : x.Ends setting m (.ok a) m₁)
    (h : (f a).LastReturns setting m₁ ss v m') : (x >>= f).LastReturns setting m ss v m' := by
  rcases h with ⟨t, ht, g, m₂, hasks, hends⟩
  exact ⟨t, ht, g, m₂, hasks.bind_right hx, hends⟩

theorem LastReturns.map {x : Eval α} {f : α → β} {ss : List Stmt}
    (h : x.LastReturns setting m ss v m') : (f <$> x).LastReturns setting m ss v m' := by
  rcases h with ⟨t, ht, g, m₁, hasks, hends⟩
  exact ⟨t, ht, g, m₁, hasks.map fun a m' => ⟨_, rfl⟩, hends⟩

theorem LastReturns.mono {x : Eval α} {ss ts : List Stmt} (h : x.LastReturns setting m ss v m')
    (hsub : ss ⊆ ts) : x.LastReturns setting m ts v m' := by
  rcases h with ⟨t, ht, g, m₁, hasks, hends⟩
  exact ⟨t, hsub ht, g, m₁, hasks, hends⟩

theorem lastReturns_execute {s : Stmt}
    (h : (execute frame s).Ends setting m (.ok (.returned v)) m') :
    (execute frame s).LastReturns setting m [s] v m' := by
  have hends := Task.Ends.of_request h
  exact ⟨s, List.mem_singleton_self s, frame, m, .now hends rfl, hends⟩

/-- Of statements that follow each other the one that returns is the last. -/
theorem lastReturns_executeAll {ss : List Stmt} : ∀ {m : Machine},
    (executeAll frame ss).Ends setting m (.ok (.returned v)) m' →
      (executeAll frame ss).LastReturns setting m ss v m' := by
  induction ss with
  | nil =>
      intro m h
      rcases ends_pure h with ⟨heq, -⟩
      cases heq
  | cons s ss ih =>
      intro m h
      rcases h.of_bind with ⟨fault, heq, -⟩ | ⟨flow, m₁, hfirst, hrest⟩
      · cases heq
      cases flow with
      | normal =>
          exact .bind_right hfirst ((ih hrest).mono (List.subset_cons_self _ _))
      | returned value =>
          rcases ends_pure hrest with ⟨heq, rfl⟩
          cases heq
          have hends := Task.Ends.of_request hfirst
          exact ⟨s, List.mem_cons_self, frame, m, .now hends rfl, hends⟩

/-- A round that ends in a flow has ended before in the flow. -/
theorem ends_some {x : Eval α} {a : α} (h : (some <$> x).Ends setting m (.ok (some a)) m') :
    x.Ends setting m (.ok a) m' := by
  rcases h.of_bind with ⟨fault, heq, -⟩ | ⟨b, m₁, hx, hend⟩
  · cases heq
  rcases ends_pure hend with ⟨heq, rfl⟩
  cases heq
  exact hx

/-- A step that goes on to end normally does not return. -/
theorem not_returned {x : Eval α}
    (h : (x >>= fun _ => pure (some Flow.normal)).Ends setting m (.ok (some (.returned v))) m') :
    False := by
  rcases h.of_bind with ⟨fault, heq, -⟩ | ⟨a, m₁, -, hend⟩
  · cases heq
  rcases ends_pure hend with ⟨heq, -⟩
  cases heq

/-- A round that returns is that of a `return`, or it has asked last for a statement that returns. -/
theorem lastReturns_executeRound {s : Stmt}
    (h : (executeRound frame s).Ends setting m (.ok (some (.returned v))) m') :
    (∃ keyword value, s = .return keyword value) ∨
      (executeRound frame s).LastReturns setting m s.branches v m' := by
  cases s with
  | «return» keyword value =>
      exact .inl ⟨keyword, value, rfl⟩
  | block body =>
      rcases h.of_bind with ⟨fault, heq, -⟩ | ⟨inner, m₁, hscope, hbody⟩
      · cases heq
      exact .inr (.bind_right hscope (lastReturns_executeAll (ends_some hbody)).map)
  | ifElse condition consequent alternative =>
      rcases h.of_bind with ⟨fault, heq, -⟩ | ⟨value, m₁, hcondition, hrest⟩
      · cases heq
      refine .inr (.bind_right hcondition ?_)
      split at hrest
      · rename_i htrue
        rw [if_pos htrue]
        refine (lastReturns_execute (ends_some hrest)).map.mono ?_
        exact List.cons_subset.mpr ⟨List.mem_cons_self, List.nil_subset _⟩
      · rename_i hfalse
        rw [if_neg hfalse]
        cases alternative with
        | none =>
            -- Without a branch to execute the statement ends normally.
            rcases ends_pure hrest with ⟨heq, -⟩
            cases heq
        | some s =>
            refine (lastReturns_execute (ends_some hrest)).map.mono ?_
            exact List.cons_subset.mpr ⟨List.mem_cons_of_mem _ List.mem_cons_self, List.nil_subset _⟩
  | «while» condition body =>
      rcases h.of_bind with ⟨fault, heq, -⟩ | ⟨value, m₁, hcondition, hrest⟩
      · cases heq
      refine .inr (.bind_right hcondition ?_)
      split at hrest
      · rename_i htrue
        rw [if_pos htrue]
        rcases hrest.of_bind with ⟨fault, heq, -⟩ | ⟨flow, m₂, hbody, hend⟩
        · cases heq
        cases flow with
        | normal =>
            -- Such a round does not end the loop.
            rcases ends_pure hend with ⟨heq, -⟩
            cases heq
        | returned value =>
            rcases ends_pure hend with ⟨heq, rfl⟩
            cases heq
            have hends := Task.Ends.of_request hbody
            exact ⟨body, List.mem_singleton_self body, frame, m₁, .now hends rfl, hends⟩
      · rcases ends_pure hrest with ⟨heq, -⟩
        cases heq
  | expression e =>
      exact absurd h not_returned
  | print e =>
      rcases h.of_bind with ⟨fault, heq, -⟩ | ⟨value, m₁, -, hrest⟩
      · cases heq
      · exact absurd hrest not_returned
  | var name initial =>
      rcases h.of_bind with ⟨fault, heq, -⟩ | ⟨value, m₁, -, hrest⟩
      · cases heq
      · exact absurd hrest not_returned
  | function decl =>
      rcases h.of_bind with ⟨fault, heq, -⟩ | ⟨value, m₁, -, hrest⟩
      · cases heq
      · exact absurd hrest not_returned
  | «class» name parent methods =>
      exact absurd h not_returned

end Eval

/-- A task that has a result has it at the end of a round: of the first one, or of a later one if the
task is a loop. -/
theorem Task.Ends.of_round_or_again {task : Task} {fuel : Nat} {m m' : Machine} {a : task.Result}
    (h : perform setting (fuel + 1) task m = .ended (.ok a) m') :
    task.round.Ends setting m (.ok (some a)) m' ∨
      ∃ m₁, task.round.Ends setting m (.ok none) m₁ ∧ perform setting fuel task m₁ = .ended (.ok a) m' := by
  rw [perform] at h
  cases hrun : (task.round setting m).run (perform setting fuel) with
  | timeout =>
      rw [hrun] at h
      cases h
  | ended result m₁ =>
      rw [hrun] at h
      rcases result with fault | _ | result
      · cases h
      · exact .inr ⟨m₁, ⟨fuel, hrun⟩, h⟩
      · cases h
        exact .inl ⟨fuel, hrun⟩

/-- A statement that ends in a return holds the `return` that was executed last for it, in the same
call, and ends as this one does. -/
theorem Task.Ends.of_returned {s : Stmt} : ∀ {frame : FrameId} {m m' : Machine} {v : Value},
    (Task.execute frame s).Ends setting m (.ok (.returned v)) m' →
      ∃ g keyword value m₀, .return keyword value ∈ s.here ∧
        s.Last setting frame m g (.return keyword value) m₀ ∧
        (Task.execute g (.return keyword value)).Ends setting m₀ (.ok (.returned v)) m' := by
  -- The statement that is asked for last is smaller, and of a loop there are fewer rounds left.
  induction hsize : sizeOf s using Nat.strongRecOn generalizing s with
  | ind size ih =>
      rintro frame m m' v ⟨fuel, h⟩
      induction fuel generalizing m with
      | zero => cases h
      | succ fuel ihfuel =>
          have hends : (Task.execute frame s).Ends setting m (.ok (.returned v)) m' := ⟨_, h⟩
          rcases Task.Ends.of_round_or_again h with hround | ⟨m₁, hagain, h⟩
          · rcases Eval.lastReturns_executeRound hround with
              ⟨keyword, value, rfl⟩ | ⟨t, ht, g, m₁, hasks, hinner⟩
            · exact ⟨frame, keyword, value, m, List.mem_singleton_self _, .self, hends⟩
            · have hlt : sizeOf t < size :=
                hsize ▸ Stmt.sizeOf_lt_of_mem_inner (s.branches_subset_inner ht)
              rcases ih _ hlt rfl hinner with ⟨g', keyword, value, m₀, hmem, hlast, hreturn⟩
              exact ⟨g', keyword, value, m₀, Stmt.here_subset_of_mem_branches ht hmem,
                .inside hasks hlast, hreturn⟩
          · rcases ihfuel h with ⟨g, keyword, value, m₀, hmem, hlast, hreturn⟩
            exact ⟨g, keyword, value, m₀, hmem, .again hagain hlast, hreturn⟩

end Lox
