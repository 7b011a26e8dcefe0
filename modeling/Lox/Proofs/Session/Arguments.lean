import Lox.Proofs.Eval.Calls
import Lox.Proofs.Scope.Accepted
import Lox.Proofs.Session.Initializer

/-!
# Arguments and parameters

A function is run with as many arguments as it has parameters, and no two of its parameters have one
name, as resolution has seen to. So its frame binds each parameter to its argument and nothing else
when the body begins. A call with any other number of arguments fails before it runs a function.

Main statement: `Session.History.arguments_reach_parameters`.
-/

namespace Lox

namespace Bindings

variable {β : Type} {b pairs : Bindings β} {name : String} {value : β}

/-- Different names that are bound one after another stand in their order. -/
theorem foldl_put_of_nodup (h : (b.names ++ pairs.names).Nodup) :
    pairs.foldl (fun b p => b.put p.1 p.2) b = b ++ pairs := by
  induction pairs generalizing b with
  | nil => exact (List.append_nil b).symm
  | cons p pairs ih =>
      have hnew : p.1 ∉ b.names := by
        intro hmem
        exact (List.nodup_append.mp h).2.2 _ hmem _ List.mem_cons_self rfl
      have hrest : ((b ++ [p]).names ++ names pairs).Nodup := by
        rw [names, List.map_append, List.append_assoc]
        exact h
      rw [List.foldl_cons, put_of_not_mem hnew, ih hrest, List.append_assoc]
      rfl

theorem names_zip {ks : List String} {vs : List β} (h : ks.length = vs.length) :
    names (ks.zip vs) = ks :=
  List.map_fst_zip (Nat.le_of_eq h)

/-- Of pairs with different names each is found. -/
theorem value?_of_mem (h : b.names.Nodup) (hmem : (name, value) ∈ b) : b.value? name = some value := by
  induction b with
  | nil => cases hmem
  | cons entry rest ih =>
      rw [names, List.map_cons, List.nodup_cons] at h
      rw [value?]
      rcases List.mem_cons.mp hmem with rfl | hmem
      · exact if_pos rfl
      · rw [if_neg]
        · exact ih h.2 hmem
        · rintro rfl
          exact h.1 (List.mem_map.mpr ⟨_, hmem, rfl⟩)

end Bindings

namespace Eval

variable {s : Store} {frame : FrameId} {pairs : List (Ident × Value)}

theorem bindings_bindAll (h : frame < s.frames.size) : (bindAll frame s pairs).bindings frame =
    (pairs.map fun p => (p.1.name, p.2)).foldl (fun b p => b.put p.1 p.2) (s.bindings frame) := by
  unfold bindAll
  induction pairs generalizing s with
  | nil => rfl
  | cons p pairs ih =>
      have h' : frame < (s.define frame p.1.name p.2).frames.size := by
        rw [Store.size_define]
        exact h
      rw [List.foldl_cons, ih h', Store.bindings_define, if_pos ⟨rfl, h⟩]
      rfl

theorem outer_bindAll {g : FrameId} : (bindAll frame s pairs).outer g = s.outer g := by
  unfold bindAll
  induction pairs generalizing s with
  | nil => rfl
  | cons p pairs ih => rw [List.foldl_cons, ih, Store.outer_define]

variable {closure : Closure} {values : List Value} {m : Machine}

/-- The frame in which a body begins stands in the frame of the function. -/
theorem chain_entered : (entered closure values m).store.chain m.store.frames.size =
    m.store.frames.size :: m.store.chain closure.frame := by
  rw [Store.chain, entered, outer_bindAll, Store.newScope, Store.outer_addFrame, if_pos rfl]

/-- It binds parameters with different names to the arguments, and nothing else. -/
theorem bindings_entered (hnames : (closure.declaration.parameters.map Ident.name).Nodup)
    (hlength : values.length = closure.declaration.parameters.length) :
    (entered closure values m).store.bindings m.store.frames.size =
      (closure.declaration.parameters.map Ident.name).zip values := by
  have hsize : m.store.frames.size < (m.store.newScope closure.frame).2.frames.size := by
    rw [Store.newScope, Store.size_addFrame]
    exact Nat.lt_succ_self _
  have hpairs : (closure.declaration.parameters.zip values).map (fun p => (p.1.name, p.2)) =
      (closure.declaration.parameters.map Ident.name).zip values := by
    rw [List.zip_map_left]
    rfl
  rw [entered, bindings_bindAll hsize, hpairs, Store.newScope, Store.bindings_addFrame,
    Store.bindings_of_size_le (Nat.le_refl _), Bindings.foldl_put_of_nodup]
  · rfl
  · rw [Bindings.names_zip (by rw [List.length_map, hlength])]
    exact hnames

end Eval

/-- How many arguments a value has to be called with: as many as the function has parameters that a
call of the value runs. -/
theorem Value.eq_of_arity? {v : Value} {arity : Nat} (h : v.arity? = some arity) :
    arity = (v.routine?.map fun decl => decl.parameters.length).getD 0 := by
  cases v with
  | native id =>
      cases h
      rfl
  | function id closure =>
      cases h
      rfl
  | «class» cls =>
      have hlength : cls.arity = arity := Option.some.inj h
      rw [← hlength, Class.arity, routine?, Option.map_map]
      rfl
  | _ => cases h

namespace Session

variable {runs : List Run} {s : Session} {clock : Nat → Except String Float} {text : List Char}
  {r : Run}

/-- A function that is declared in a session declares no name twice in its scope. -/
theorem History.nodup_locals (h : History runs s) (hr : s.running? clock text = some r)
    {decl : FunctionDecl} (hdecl : (World.ofRuns (runs ++ [r]) s.globals).Declares decl) :
    decl.locals.Nodup := by
  rcases h.keeps.accept (accepts_of_running? hr) with ⟨hread, herrors, -⟩
  have hdistinct := Stmt.distinct_of_accepted hread herrors
  rcases hdecl with hfunction | ⟨d, hclass, hmethod⟩
  · exact hdistinct _ hfunction
  · exact hdistinct _ hclass decl hmethod

/-- A function that a run comes to run is declared in the session. -/
theorem History.declares_of_runs (h : History runs s) (hr : s.running? clock text = some r)
    {task : Task} {m m₀ : Machine} {closure : Closure} {values : List Value}
    (hbegun : r.Begins task m) (hruns : task.Runs r.setting m closure values m₀) :
    (World.ofRuns (runs ++ [r]) s.globals).Declares closure.declaration := by
  cases hruns with
  | function hcallee harguments _ _ =>
      exact (h.fits_operands hr hbegun hcallee harguments).2.2.1.declares_routine rfl
  | construction hcallee harguments _ _ hmethod =>
      refine (h.fits_operands hr hbegun hcallee harguments).2.2.1.declares_routine ?_
      exact Option.map_eq_some_iff.mpr ⟨_, hmethod, rfl⟩

/-- Wherever a run comes to run a function, by whichever kind of call and whichever text has declared
it, there is one argument for each parameter, and the body begins in a new frame inside that of the
function, which binds each parameter to its argument and nothing else. An expression asks for
statements where it runs a function, and in no other way. A call with another number of arguments
fails with both numbers where its arguments have left the machine, and runs no function. -/
theorem History.arguments_reach_parameters (h : History runs s)
    (hr : s.running? clock text = some r) :
    (∀ task m closure values m₀, r.Begins task m → task.Runs r.setting m closure values m₀ →
      values.length = closure.declaration.parameters.length ∧
        (Eval.entered closure values m₀).store.chain m₀.store.frames.size =
          m₀.store.frames.size :: m₀.store.chain closure.frame ∧
        (Eval.entered closure values m₀).store.bindings m₀.store.frames.size =
          (closure.declaration.parameters.map Ident.name).zip values ∧
        (∀ (i : Nat) (parameter : Ident) (value : Value),
          closure.declaration.parameters[i]? = some parameter → values[i]? = some value →
            (Eval.entered closure values m₀).store.value? m₀.store.frames.size parameter.name =
              some value) ∧
        ∀ task' m', (Eval.executeAll m₀.store.frames.size closure.declaration.body r.setting
            (Eval.entered closure values m₀)).Asks r.setting task' m' →
          (task.round r.setting m).Asks r.setting task' m') ∧
    (∀ frame e m g stmt m', r.Begins (.evaluate frame e) m →
      ((Task.evaluate frame e).round r.setting m).Asks r.setting (.execute g stmt) m' →
        ∃ closure values m₀, (Task.evaluate frame e).Runs r.setting m closure values m₀ ∧
          g = m₀.store.frames.size ∧ stmt ∈ closure.declaration.body ∧
          (Eval.executeAll g closure.declaration.body r.setting
            (Eval.entered closure values m₀)).Asks r.setting (.execute g stmt) m') ∧
    ∀ frame node callee arguments m (v : Value) m₁ values m₂ arity,
      r.Begins (.evaluate frame (.call node callee arguments)) m →
      (Task.evaluate frame callee).Ends r.setting m (.ok v) m₁ →
      (Eval.evaluateAll frame arguments).Ends r.setting m₁ (.ok values) m₂ →
      v.arity? = some arity → values.length ≠ arity →
        arity = (v.routine?.map fun decl => decl.parameters.length).getD 0 ∧
          (Task.evaluate frame (.call node callee arguments)).Raises r.setting m
            ⟨.wrongArgumentCount values.length arity, node.span⟩ m₂ ∧
          ∀ closure values' m₀, ¬(Task.evaluate frame (.call node callee arguments)).Runs r.setting m
            closure values' m₀ := by
  refine ⟨?_, ?_, ?_⟩
  · intro task m closure values m₀ hbegun hruns
    have hlength := hruns.length
    -- Two parameters of one name would share an entry of the frame.
    have hnames : (closure.declaration.parameters.map Ident.name).Nodup :=
      (List.nodup_append.mp (h.nodup_locals hr (h.declares_of_runs hr hbegun hruns))).1
    have hbindings := Eval.bindings_entered (m := m₀) hnames hlength
    refine ⟨hlength, Eval.chain_entered, hbindings, ?_, fun _ _ => hruns.asks⟩
    intro i parameter value hparameter hvalue
    have hentry : ((closure.declaration.parameters.map Ident.name).zip values)[i]? =
        some (parameter.name, value) := by
      rw [List.getElem?_zip_eq_some, List.getElem?_map, hparameter]
      exact ⟨rfl, hvalue⟩
    rw [Store.value?, hbindings]
    refine Bindings.value?_of_mem ?_ (List.mem_of_getElem? hentry)
    rw [Bindings.names_zip (by rw [List.length_map, hlength])]
    exact hnames
  · intro frame e m g stmt m' _ hasks
    rcases Task.Runs.of_asks hasks with ⟨closure, values, m₀, hruns, rfl, hmem, hbody⟩
    exact ⟨closure, values, m₀, hruns, rfl, hmem, hbody⟩
  · intro frame node callee arguments m v m₁ values m₂ arity _ hcallee harguments harity hlength
    rcases Task.raises_wrongArgumentCount hcallee harguments harity hlength with ⟨hraises, hnone⟩
    exact ⟨Value.eq_of_arity? harity, hraises, hnone⟩

/-! ## A class that inherits its initializer -/

/-- An initializer with a parameter. -/
def namingInit : FunctionDecl :=
  ⟨⟨"init", 8, 4⟩, [⟨"a", 13, 1⟩], []⟩

/-- The class that declares the initializer. -/
def namingClass : Class :=
  .root 1 "A" [("init", ⟨namingInit, 0, true⟩)]

/-- The class that inherits it. -/
def heirClass : Class :=
  .derived 2 "B" [] namingClass

/-- A call with an argument, and one without. -/
def namingCall : Expr :=
  .call ⟨3, 34, 1⟩ (.var ⟨1, "B", 29, 1⟩) [.literal ⟨2, 31, 3⟩ .nil]

def failingCall : Expr :=
  .call ⟨5, 38, 1⟩ (.var ⟨4, "B", 36, 1⟩) []

/-- The run of both classes and both calls. -/
def namingRun : Run :=
  ⟨⟨[], 0, fun _ => .error "no clock"⟩, Session.empty.machine,
    [.class ⟨"A", 6, 1⟩ none [namingInit], .class ⟨"B", 24, 1⟩ (some ⟨0, "A", 26, 1⟩) [],
      .expression namingCall, .expression failingCall]⟩

theorem running?_namingRun :
    Session.empty.running? (fun _ => .error "no clock")
      "class A\x7binit(a)\x7b\x7d\x7dclass B<A\x7b\x7dB(nil);B();".toList = some namingRun := by
  with_unfolding_all rfl

/-- The machine after the classes have been declared, with what is added later. -/
def namingMachine (later : List Frame) (fields : Array (Bindings Value)) : Machine :=
  machineOf (.mk (⟨[], [("clock", .native 0), ("A", .class namingClass), ("B", .class heirClass)]⟩ ::
    ⟨[0], [("super", .class namingClass)]⟩ :: later)) fields 3 0

/-- The frames that the first call adds. -/
def namingFrames : List Frame :=
  [⟨[0], [("this", .instance ⟨0, heirClass⟩)]⟩, ⟨[2, 0], [("a", .nil)]⟩]

theorem begins_namingRun :
    namingRun.Begins (.evaluate 0 namingCall) (namingMachine [] #[]) ∧
      namingRun.Begins (.evaluate 0 failingCall) (namingMachine namingFrames #[[]]) := by
  have hfirst : Task.Ends namingRun.setting (.execute 0 (.class ⟨"A", 6, 1⟩ none [namingInit]))
      Session.empty.machine (.ok .normal)
      (machineOf #[⟨[], [("clock", .native 0), ("A", .class namingClass)]⟩] #[] 2 0) :=
    ⟨2, rfl⟩
  have hsecond : Task.Ends namingRun.setting
      (.execute 0 (.class ⟨"B", 24, 1⟩ (some ⟨0, "A", 26, 1⟩) []))
      (machineOf #[⟨[], [("clock", .native 0), ("A", .class namingClass)]⟩] #[] 2 0) (.ok .normal)
      (namingMachine [] #[]) :=
    ⟨2, rfl⟩
  have hthird : Task.Ends namingRun.setting (.execute 0 (.expression namingCall))
      (namingMachine [] #[]) (.ok .normal) (namingMachine namingFrames #[[]]) :=
    ⟨5, rfl⟩
  exact ⟨.inside (.asked (.later hfirst (.later hsecond .now))) .now,
    .inside (.asked (.later hfirst (.later hsecond (.later hthird .now)))) .now⟩

theorem arguments_reach_parameters_namingRun :
    (Eval.entered ⟨namingInit, 2, true⟩ [.nil]
        (Eval.preparing heirClass ⟨namingInit, 0, true⟩ (namingMachine [] #[]))).store.bindings 3 =
      [("a", .nil)] ∧
    (Task.evaluate 0 failingCall).Raises namingRun.setting (namingMachine namingFrames #[[]])
      ⟨.wrongArgumentCount 0 1, 38, 1⟩ (namingMachine namingFrames #[[]]) := by
  rcases History.empty.arguments_reach_parameters running?_namingRun with ⟨hbinds, -, hraises⟩
  refine ⟨?_, ?_⟩
  · have hcallee : (Task.evaluate 0 (.var ⟨1, "B", 29, 1⟩)).Ends namingRun.setting
        (namingMachine [] #[]) (.ok (.class heirClass)) (namingMachine [] #[]) :=
      ⟨2, rfl⟩
    have harguments : (Eval.evaluateAll 0 [.literal ⟨2, 31, 3⟩ .nil]).Ends namingRun.setting
        (namingMachine [] #[]) (.ok [.nil]) (namingMachine [] #[]) :=
      ⟨2, rfl⟩
    exact (hbinds _ _ _ _ _ begins_namingRun.1
      (.construction hcallee harguments rfl (by decide) rfl)).2.2.1
  · exact (hraises 0 _ _ _ _ (.class heirClass) _ [] _ 1 begins_namingRun.2 ⟨2, rfl⟩ ⟨0, rfl⟩ rfl
      (by decide)).2.1

end Session

end Lox
