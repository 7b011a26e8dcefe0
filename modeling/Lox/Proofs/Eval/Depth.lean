import Lox.Proofs.Eval.Rounds

/-!
# The depth of calls

The depth that a machine counts is the number of calls that a task stands in. Every task restores it,
however it ends, and it never exceeds `maxDepth`: the call that would exceed it is the one at which
the overflow arises.

* `Task.Ends.keeps` says that tasks restore the depth.
* `Course.BeginsIn` counts the calls around a task; `Course.BeginsIn.depth` says that the machine
  counts the same.
* `Task.raises_stackOverflow_iff` says at which calls the overflow arises.
-/

namespace Lox

variable {α β : Type} {setting : Setting}

/-! ## Keeping the depth -/

section Kept

variable {P : Stmt → Prop} (hP : Stmt.Hereditary P) {m m' : Machine}

include hP

theorem kept_asking {B : Task → Machine → Prop} :
    (asking P (Task.Within P)).Kept setting B := by
  intro task m _ hbefore
  rcases hbefore with ⟨hwithin, hcode⟩
  have hround : (task.round setting m).Meets setting (asking P (task.Asked P m.depth)) _ :=
    Task.round_keeps hP hwithin m rfl hcode
  have hweaker := hround.weaken (D := asking P (Task.Within P))
    (fun task' m' h => ⟨h.1.within, h.2⟩) fun _ _ _ _ h => h
  refine hweaker.mono ?_
  intro r m' hpost
  rcases hpost with ⟨hdepth', hcode', hgives⟩
  rcases r with fault | _ | result
  · exact ⟨hdepth', hcode', fun a heq => nomatch heq⟩
  · -- The next round of a loop may begin as this one did.
    refine ⟨⟨hdepth' ▸ hwithin, hcode'⟩, ?_⟩
    intro r m'' hafter
    exact ⟨hafter.1.trans hdepth', hafter.2⟩
  · refine ⟨hdepth', hcode', ?_⟩
    intro a heq
    cases heq
    exact hgives _ rfl

/-- However a task ends, the depth is what it was. -/
theorem Task.Ends.keeps {task : Task} {r : Except Fault task.Result}
    (h : task.Ends setting m r m') (hwithin : task.Within P m.depth) (hcode : m.store.CodeIn P) :
    m'.depth = m.depth ∧ m'.store.CodeIn P ∧ ∀ a, r = .ok a → task.Gives P a :=
  (kept_asking hP).ends ⟨fun _ _ => trivial, fun _ _ => trivial⟩ trivial ⟨hwithin, hcode⟩ h

variable {c : Course α} {A : Task → Nat → Prop} {Q : Except Fault α → Machine → Prop}

/-- A course asks only for the tasks it may ask for. -/
theorem Course.Meets.asks_asking (hmeets : c.Meets setting (asking P A) Q)
    (hA : ∀ {task depth}, A task depth → task.Within P depth) {task : Task}
    (hasks : c.Asks setting task m) : A task m.depth ∧ m.store.CodeIn P := by
  refine hmeets.asks ?_ hasks
  intro task₁ m₁ r m₂ _ hbefore hends
  exact hends.keeps hP (hA hbefore.1) hbefore.2

theorem Course.Meets.ends_asking (hmeets : c.Meets setting (asking P A) Q)
    (hA : ∀ {task depth}, A task depth → task.Within P depth) {r : Except Fault α}
    (hends : c.Ends setting r m) : Q r m := by
  rcases hends with ⟨fuel, hrun⟩
  refine hmeets.run ?_ hrun
  intro task m₁ r₁ m₂ _ hbefore hperform
  exact Task.Ends.keeps hP ⟨fuel, hperform⟩ (hA hbefore.1) hbefore.2

/-- A course comes to an end if all tasks do that it may ask for. -/
theorem Course.Meets.stops_asking (hmeets : c.Meets setting (asking P A) Q)
    (hA : ∀ {task depth}, A task depth → task.Within P depth)
    (hends : ∀ task m, A task m.depth → m.store.CodeIn P → ∃ r m', task.Ends setting m r m') :
    ∃ r m, c.Ends setting r m ∧ Q r m := by
  refine hmeets.stops ?_
  intro task m hbefore
  rcases hends task m hbefore.1 hbefore.2 with ⟨r, m', hended⟩
  exact ⟨r, m', hended, hended.keeps hP (hA hbefore.1) hbefore.2⟩

/-- The operands of a call leave the depth as it was. -/
theorem Eval.depth_operands {frame : FrameId} {callee : Expr} {arguments : List Expr} {v : Value}
    {vs : List Value} {m₁ : Machine} (hdepth : m.depth ≤ maxDepth) (hcode : m.store.CodeIn P)
    (hcallee : (Task.evaluate frame callee).Ends setting m (.ok v) m₁)
    (harguments : (Eval.evaluateAll frame arguments).Ends setting m₁ (.ok vs) m') :
    m'.depth = m.depth := by
  rcases hcallee.keeps hP ⟨trivial, hdepth⟩ hcode with ⟨hdepth₁, hcode₁, -⟩
  have hkeeps : (Eval.evaluateAll frame arguments).Keeps setting P (Task.Within P) m.depth _ :=
    Eval.keeps_evaluateAll fun _ _ => ⟨trivial, hdepth⟩
  exact ((hkeeps m₁ hdepth₁ hcode₁).ends_asking hP (fun h => h) harguments).1

end Kept

/-! ## Counting calls -/

/-- A round of a task is begun in a course, inside `n` calls. -/
inductive Course.BeginsIn (setting : Setting) (c : Course α) : Nat → Task → Machine → Prop
  | asked {task : Task} {m : Machine} : c.Asks setting task m → BeginsIn setting c 0 task m
  | inside {n : Nat} {task task' : Task} {m m' : Machine} :
      BeginsIn setting c n task m → (task.round setting m).Asks setting task' m' →
        BeginsIn setting c (n + task.calls task') task' m'
  | again {n : Nat} {task : Task} {m m' : Machine} :
      BeginsIn setting c n task m → task.round.Ends setting m (.ok none) m' →
        BeginsIn setting c n task m'

theorem Course.begins_iff {c : Course α} {task : Task} {m : Machine} :
    c.Begins setting task m ↔ ∃ n, c.BeginsIn setting n task m := by
  refine ⟨?_, ?_⟩
  · intro h
    induction h with
    | asked hasks =>
        exact ⟨0, .asked hasks⟩
    | inside _ hasks ih =>
        rcases ih with ⟨n, hn⟩
        exact ⟨_, .inside hn hasks⟩
    | again _ hround ih =>
        rcases ih with ⟨n, hn⟩
        exact ⟨n, .again hn hround⟩
  · intro h
    rcases h with ⟨n, h⟩
    induction h with
    | asked hasks => exact .asked hasks
    | inside _ hasks ih => exact .inside ih hasks
    | again _ hround ih => exact .again ih hround

/-- The tasks of a course that is begun outside all calls. -/
def Task.Outermost (P : Stmt → Prop) (task : Task) (depth : Nat) : Prop :=
  task.In P ∧ depth = 0

theorem Task.Outermost.within {P : Stmt → Prop} {task : Task} {depth : Nat}
    (h : task.Outermost P depth) : task.Within P depth :=
  ⟨h.1, h.2 ▸ Nat.zero_le _⟩

/-- In a course that is begun outside all calls the machine counts the calls, of which there are at
most `maxDepth`. -/
theorem Course.BeginsIn.depth {P : Stmt → Prop} (hP : Stmt.Hereditary P) {c : Course α}
    {Q : Except Fault α → Machine → Prop}
    (hmeets : c.Meets setting (asking P (Task.Outermost P)) Q) {n : Nat} {task : Task}
    {m : Machine} (h : c.BeginsIn setting n task m) :
    m.depth = n ∧ task.Within P n ∧ m.store.CodeIn P := by
  induction h with
  | asked hasks =>
      rcases hmeets.asks_asking hP Task.Outermost.within hasks with ⟨⟨hin, hdepth⟩, hcode⟩
      exact ⟨hdepth, ⟨hin, Nat.zero_le _⟩, hcode⟩
  | inside _ hasks ih =>
      rcases ih with ⟨rfl, hwithin, hcode⟩
      have hround : (Task.round _ setting _).Meets setting (asking P _) _ :=
        Task.round_keeps hP hwithin _ rfl hcode
      rcases hround.asks_asking hP Task.Asked.within hasks with ⟨hasked, hcode'⟩
      exact ⟨hasked.depth, hasked.depth ▸ hasked.within, hcode'⟩
  | again _ hends ih =>
      rcases ih with ⟨rfl, hwithin, hcode⟩
      have hround : (Task.round _ setting _).Meets setting (asking P _) _ :=
        Task.round_keeps hP hwithin _ rfl hcode
      rcases hround.ends_asking hP Task.Asked.within hends with ⟨hdepth, hcode', -⟩
      exact ⟨hdepth, hwithin, hcode'⟩

/-! ## Where faults arise -/

/-- A course comes to its end, and all tasks that it asks for end well. -/
inductive Course.Arrives (setting : Setting) : Course α → Except Fault α → Machine → Prop
  | here {r : Except Fault α} {m : Machine} : Arrives setting (.ended r m) r m
  | later {task : Task} {m m' m'' : Machine}
      {next : Except Fault task.Result → Machine → Course α} {a : task.Result}
      {r : Except Fault α} :
      task.Ends setting m (.ok a) m' → Arrives setting (next (.ok a) m') r m'' →
        Arrives setting (.ask task m next) r m''

/-- A fault arises at a task itself, and not at one that it asks for. -/
def Task.Raises (setting : Setting) (task : Task) (m : Machine) (fault : Fault) (m' : Machine) :
    Prop :=
  (task.round setting m).Arrives setting (.error fault) m'

namespace Course.Arrives

theorem ends {c : Course α} {r : Except Fault α} {m : Machine} (h : c.Arrives setting r m) :
    c.Ends setting r m := by
  induction h with
  | here => exact ⟨0, rfl⟩
  | later hended _ ih => exact hended.ask ih

theorem bind {c : Course α} {f : α → Machine → Course β} {a : α} {r : Except Fault β}
    {m m' : Machine} (hc : c.Arrives setting (.ok a) m) (hf : (f a m).Arrives setting r m') :
    (c.bind f).Arrives setting r m' := by
  generalize hr : Except.ok a = result at hc
  induction hc with
  | here =>
      subst hr
      exact hf
  | later hended _ ih =>
      exact .later hended (ih hf hr)

theorem bind_error {c : Course α} {f : α → Machine → Course β} {fault : Fault} {m : Machine}
    (h : c.Arrives setting (.error fault) m) : (c.bind f).Arrives setting (.error fault) m := by
  generalize hr : Except.error fault = result at h
  induction h with
  | here =>
      subst hr
      exact .here
  | later hended _ ih =>
      exact .later hended (ih hr)

/-- With a second step appended a course arrives at a fault of its own or goes on. -/
theorem of_bind {c : Course α} {f : α → Machine → Course β} {r : Except Fault β} {m : Machine}
    (h : (c.bind f).Arrives setting r m) :
    (∃ fault, r = .error fault ∧ c.Arrives setting (.error fault) m) ∨
      ∃ a m', c.Arrives setting (.ok a) m' ∧ (f a m').Arrives setting r m := by
  induction c with
  | ended result m' =>
      cases result with
      | error fault =>
          cases h
          exact .inl ⟨fault, rfl, .here⟩
      | ok a =>
          exact .inr ⟨a, m', .here, h⟩
  | ask task m' next ih =>
      cases h with
      | later hended hrest =>
          rcases ih _ _ hrest with ⟨fault, hr, hfault⟩ | ⟨a, m'', hfirst, hsecond⟩
          · exact .inl ⟨fault, hr, .later hended hfault⟩
          · exact .inr ⟨a, m'', .later hended hfirst, hsecond⟩

theorem of_atEnd {c : Course α} {change : Machine → Machine} {r : Except Fault α} {m : Machine}
    (h : (c.atEnd change).Arrives setting r m) : ∃ m', c.Arrives setting r m' := by
  induction c with
  | ended result m' =>
      cases h
      exact ⟨m', .here⟩
  | ask task m' next ih =>
      cases h with
      | later hended hrest =>
          rcases ih _ _ hrest with ⟨m'', hm⟩
          exact ⟨m'', .later hended hm⟩

end Course.Arrives

theorem Task.Raises.ends {task : Task} {m m' : Machine} {fault : Fault}
    (h : task.Raises setting m fault m') : task.Ends setting m (.error fault) m' :=
  Task.Ends.of_round_error (Course.Arrives.ends h)

namespace Eval

variable {frame : FrameId} {m m' : Machine}

/-- A task that a step asks for has ended well where the step arrives. -/
theorem arrives_request {task : Task} {r : Except Fault task.Result} :
    (request task setting m).Arrives setting r m' ↔
      ∃ a, r = .ok a ∧ task.Ends setting m (.ok a) m' := by
  refine ⟨?_, ?_⟩
  · intro h
    cases h with
    | later hended hrest =>
        cases hrest
        exact ⟨_, rfl, hended⟩
  · rintro ⟨a, rfl, hended⟩
    exact .later hended .here

theorem arrives_evaluateAll {es : List Expr} {r : Except Fault (List Value)} :
    ∀ {m : Machine}, (evaluateAll frame es setting m).Arrives setting r m' ↔
      ∃ vs, r = .ok vs ∧ (evaluateAll frame es).Ends setting m (.ok vs) m' := by
  induction es generalizing r with
  | nil =>
      intro m
      refine ⟨?_, ?_⟩
      · intro h
        cases h
        exact ⟨[], rfl, 0, rfl⟩
      · rintro ⟨vs, rfl, fuel, h⟩
        cases h
        exact .here
  | cons e es ih =>
      intro m
      refine ⟨?_, ?_⟩
      · intro h
        have hends := h.ends
        rcases h.of_bind with ⟨fault, -, hfault⟩ | ⟨v, m₁, -, hrest⟩
        · rcases arrives_request.mp hfault with ⟨a, heq, -⟩
          cases heq
        · rcases hrest.of_bind with ⟨fault, -, hfault⟩ | ⟨vs, m₂, -, hend⟩
          · rcases ih.mp hfault with ⟨vs, heq, -⟩
            cases heq
          · cases hend
            exact ⟨v :: vs, rfl, hends⟩
      · rintro ⟨vs, rfl, hends⟩
        -- All values are there, so each expression has ended well.
        rcases Ends.of_bind hends with ⟨fault, heq, -⟩ | ⟨v, m₁, hv, hrest⟩
        · cases heq
        · rcases Ends.of_bind hrest with ⟨fault, heq, -⟩ | ⟨vs', m₂, hvs, hend⟩
          · cases heq
          · rcases hend with ⟨fuel, hend⟩
            cases hend
            exact (arrives_request.mpr ⟨v, rfl, .of_request hv⟩).bind
              ((ih.mpr ⟨vs', rfl, hvs⟩).bind .here)

/-- A step at which no overflow arises. -/
def Spares (setting : Setting) (x : Eval α) : Prop :=
  ∀ m fault m', (x setting m).Arrives setting (.error fault) m' → fault.cause ≠ .stackOverflow

namespace Spares

variable {x : Eval α}

theorem pure (a : α) : Spares setting (Pure.pure a) := by
  intro m fault m' h
  cases h

theorem bind {f : α → Eval β} (hx : Spares setting x) (hf : ∀ a, Spares setting (f a)) :
    Spares setting (x >>= f) := by
  intro m fault m' h
  rcases h.of_bind with ⟨fault', heq, hfirst⟩ | ⟨a, m₁, -, hsecond⟩
  · cases heq
    exact hx m fault m' hfirst
  · exact hf a m₁ fault m' hsecond

theorem request (task : Task) : Spares setting (Eval.request task) := by
  intro m fault m' h
  rcases arrives_request.mp h with ⟨a, heq, -⟩
  cases heq

theorem change (step : Store → Store) : Spares setting (Eval.change step) := by
  intro m fault m' h
  cases h

theorem create (step : Store → α × Store) : Spares setting (Eval.create step) := by
  intro m fault m' h
  cases h

theorem readClock (place : Span) : Spares setting (Eval.readClock place) := by
  intro m fault m' h
  unfold Eval.readClock at h
  dsimp only at h
  split at h
  · cases h
  · cases h
    exact FaultCause.noConfusion

theorem getAt (place : Span) (frame : FrameId) (d : Nat) (name : String) :
    Spares setting (Eval.read place fun store => store.getAt frame d name) := by
  intro m fault m' h
  unfold Eval.read Store.getAt at h
  cases hfound : (m.store.ancestor? frame d).bind fun g => m.store.value? g name with
  | none =>
      simp only [hfound, Store.orUndefined] at h
      cases h
      exact FaultCause.noConfusion
  | some value =>
      simp only [hfound, Store.orUndefined] at h
      cases h

theorem executeAll (frame : FrameId) (ss : List Stmt) :
    Spares setting (Eval.executeAll frame ss) := by
  induction ss with
  | nil =>
      exact .pure _
  | cons s ss ih =>
      refine (request (.execute frame s)).bind ?_
      intro flow
      cases flow with
      | returned value => exact .pure _
      | normal => exact ih

theorem run (closure : Closure) (arguments : List Value) :
    Spares setting (Eval.run closure arguments) := by
  refine (create _).bind fun frame => ?_
  refine (change _).bind fun _ => ?_
  refine (executeAll _ _).bind fun flow => ?_
  unfold callResult
  split
  · exact getAt _ _ _ _
  · cases flow with
    | returned value => exact .pure _
    | normal => exact .pure _

theorem invoke {place : Span} {callee : Value} {arguments : List Value} {arity : Nat}
    (hcallee : callee.arity? = some arity) :
    Spares setting (Eval.invoke place callee arguments) := by
  cases callee with
  | native id =>
      exact readClock place
  | function id closure =>
      exact run closure arguments
  | «class» cls =>
      refine (create _).bind fun object => ?_
      cases cls.method? initializerName with
      | none =>
          exact .pure _
      | some method =>
          refine ((create _).bind fun frame => (change _).bind fun _ => .pure _).bind ?_
          intro initializer
          exact (run initializer arguments).bind fun _ => .pure _
  | _ =>
      cases hcallee

end Spares

/-- The overflow arises at a call if the value can be called so and the calls are as deep as they may
be. -/
theorem arrives_call_stackOverflow {place : Span} {callee : Value} {arguments : List Value} :
    (call place callee arguments setting m).Arrives setting (.error ⟨.stackOverflow, place⟩) m' ↔
      callee.arity? = some arguments.length ∧ maxDepth ≤ m.depth ∧ m' = m := by
  unfold call
  cases harity : callee.arity? with
  | none =>
      refine ⟨?_, ?_⟩
      · intro h
        cases h
      · intro h
        cases h.1
  | some arity =>
      dsimp only
      split
      · rename_i hlength
        subst hlength
        unfold nested
        split
        · rename_i hfull
          refine ⟨?_, ?_⟩
          · intro h
            cases h
            exact ⟨rfl, hfull, rfl⟩
          · rintro ⟨-, -, rfl⟩
            exact .here
        · rename_i hroom
          -- Inside the call no overflow arises at the call itself.
          refine ⟨?_, fun h => absurd h.2.1 hroom⟩
          intro h
          rcases h.of_atEnd with ⟨m'', h⟩
          exact absurd rfl (Spares.invoke harity _ _ _ h)
      · rename_i hlength
        refine ⟨?_, ?_⟩
        · intro h
          cases h
        · intro h
          exact absurd (Option.some.inj h.1).symm hlength

end Eval

/-- The overflow arises at a call if and only if its operands have values, the first of which can be
called with so many arguments, and the calls are as deep as they may be. -/
theorem Task.raises_stackOverflow_iff {frame : FrameId} {node : Node} {callee : Expr}
    {arguments : List Expr} {m m' : Machine} :
    (Task.evaluate frame (.call node callee arguments)).Raises setting m
        ⟨.stackOverflow, node.span⟩ m' ↔
      ∃ v m₁ vs, (Task.evaluate frame callee).Ends setting m (.ok v) m₁ ∧
        (Eval.evaluateAll frame arguments).Ends setting m₁ (.ok vs) m' ∧
        v.arity? = some vs.length ∧ maxDepth ≤ m'.depth := by
  refine ⟨?_, ?_⟩
  · intro h
    -- A round of an expression adds nothing to its value.
    have hvalue : (Eval.valueOf frame (.call node callee arguments) setting m).Arrives setting
        (.error ⟨.stackOverflow, node.span⟩) m' := by
      rcases h.of_bind with ⟨fault, heq, hvalue⟩ | ⟨value, m₁, -, hend⟩
      · cases heq
        exact hvalue
      · cases hend
    rcases hvalue.of_bind with ⟨fault, -, hfault⟩ | ⟨v, m₁, hcallee, hrest⟩
    · rcases Eval.arrives_request.mp hfault with ⟨v, heq, -⟩
      cases heq
    rcases hrest.of_bind with ⟨fault, -, hfault⟩ | ⟨vs, m₂, harguments, hcall⟩
    · rcases Eval.arrives_evaluateAll.mp hfault with ⟨vs, heq, -⟩
      cases heq
    rcases Eval.arrives_request.mp hcallee with ⟨v', heq, hcallee⟩
    cases heq
    rcases Eval.arrives_call_stackOverflow.mp hcall with ⟨harity, hfull, rfl⟩
    exact ⟨v, m₁, vs, hcallee, harguments.ends, harity, hfull⟩
  · rintro ⟨v, m₁, vs, hcallee, harguments, harity, hfull⟩
    have hcall : (Eval.call node.span v vs setting m').Arrives setting
        (.error ⟨.stackOverflow, node.span⟩) m' :=
      Eval.arrives_call_stackOverflow.mpr ⟨harity, hfull, rfl⟩
    have hvalue : (Eval.valueOf frame (.call node callee arguments) setting m).Arrives setting
        (.error ⟨.stackOverflow, node.span⟩) m' :=
      (Eval.arrives_request.mpr ⟨v, rfl, hcallee⟩).bind
        ((Eval.arrives_evaluateAll.mpr ⟨vs, rfl, harguments⟩).bind hcall)
    exact hvalue.bind_error

end Lox
