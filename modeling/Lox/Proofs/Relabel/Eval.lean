import Lox.Proofs.Relabel.Course

/-!
# Evaluation does not see numbers and places

If the numbers and the places in a program and in the machine are changed, and the recorded distances
are found under the new numbers, then evaluation goes on as before. There is one lemma for each
function of the evaluator.

Main statement: `perform_relabel`.
-/

namespace Lox

namespace Eval

variable {f : Relabel} {setting setting' : Setting}

/-! ## Tasks -/

theorem mirrors_evaluate (frame : FrameId) (e : Expr) :
    (evaluate frame e).Mirrors f setting setting' (Value.relabel f)
      (evaluate frame (e.relabel f)) :=
  mirrors_request (.evaluate frame e)

theorem mirrors_execute (frame : FrameId) (s : Stmt) :
    (execute frame s).Mirrors f setting setting' (Flow.relabel f) (execute frame (s.relabel f)) :=
  mirrors_request (.execute frame s)

theorem mirrors_evaluateAll (frame : FrameId) (es : List Expr) :
    (evaluateAll frame es).Mirrors f setting setting' (List.map (Value.relabel f))
      (evaluateAll frame (Expr.relabelAll f es)) := by
  induction es with
  | nil =>
      exact .pure rfl
  | cons e es ih =>
      refine (mirrors_evaluate frame e).bind ?_
      intro value
      refine ih.bind ?_
      intro values
      exact .pure rfl

theorem mirrors_evaluateOption (frame : FrameId) (e? : Option Expr) :
    (evaluateOption frame e?).Mirrors f setting setting' (Value.relabel f)
      (evaluateOption frame (e?.map (Expr.relabel f))) := by
  cases e? with
  | none =>
      exact .pure rfl
  | some e =>
      exact mirrors_evaluate frame e

theorem mirrors_executeAll (frame : FrameId) (ss : List Stmt) :
    (executeAll frame ss).Mirrors f setting setting' (Flow.relabel f)
      (executeAll frame (Stmt.relabelAll f ss)) := by
  induction ss with
  | nil =>
      exact .pure rfl
  | cons s ss ih =>
      refine (mirrors_execute frame s).bind ?_
      intro flow
      cases flow with
      | normal =>
          exact ih
      | returned value =>
          exact .pure rfl

/-! ## Variables -/

theorem mirrors_lookUp (hsetting : setting.Mirrors f setting') (frame : FrameId) (node : Node)
    (name : String) :
    (lookUp frame node name).Mirrors f setting setting' (Value.relabel f)
      (lookUp frame (node.relabel f) name) := by
  refine (mirrors_distance? hsetting node.id).bind ?_
  intro distance
  cases distance with
  | some distance =>
      exact mirrors_read fun s => s.relabel_getAt frame distance name
  | none =>
      refine (mirrors_globals hsetting).bind ?_
      intro root
      exact mirrors_read fun s => s.relabel_get root name

theorem mirrors_assign (hsetting : setting.Mirrors f setting') (frame : FrameId)
    (target : Reference) (value : Value) :
    (assign frame target value).Mirrors f setting setting' id
      (assign frame (target.relabel f) (value.relabel f)) := by
  refine (mirrors_distance? hsetting target.id).bind ?_
  intro distance
  cases distance with
  | some distance =>
      exact mirrors_tryChange fun s => s.relabel_assignAt frame distance target.name.name value
  | none =>
      refine (mirrors_globals hsetting).bind ?_
      intro root
      exact mirrors_tryChange fun s => s.relabel_assign root target.name.name value

/-! ## Functions, classes and instances -/

theorem mirrors_fresh : (create Store.fresh).Mirrors f setting setting' id (create Store.fresh) :=
  mirrors_create fun _ => rfl

theorem mirrors_newScope (frame : FrameId) :
    (create fun store => store.newScope frame).Mirrors f setting setting' id
      (create fun store => store.newScope frame) := by
  refine mirrors_create ?_
  intro s
  unfold Store.newScope
  rw [Store.relabel_chain, Store.relabel_addFrame]

theorem mirrors_define (frame : FrameId) (name : String) {value value' : Value}
    (hvalue : value' = value.relabel f) :
    (change fun store => store.define frame name value).Mirrors f setting setting' id
      (change fun store => store.define frame name value') := by
  subst hvalue
  exact mirrors_change fun s => s.relabel_define frame name value

theorem mirrors_makeFunction (closure : Closure) :
    (makeFunction closure).Mirrors f setting setting' (Value.relabel f)
      (makeFunction (closure.relabel f)) := by
  refine mirrors_fresh.bind ?_
  intro number
  exact .pure rfl

theorem mirrors_bindMethod (method : Closure) (object : Instance) :
    (bindMethod method object).Mirrors f setting setting' (Closure.relabel f)
      (bindMethod (method.relabel f) (object.relabel f)) := by
  refine (mirrors_newScope method.frame).bind ?_
  intro frame
  refine (mirrors_define frame thisName rfl).bind ?_
  intro _
  exact .pure rfl

theorem mirrors_asInstance {place : Span} {cause : Value → FaultCause}
    (hcause : ∀ value, cause (value.relabel f) = (cause value).relabel f) (value : Value) :
    (asInstance place cause value).Mirrors f setting setting' (Instance.relabel f)
      (asInstance (f.place place) cause (value.relabel f)) := by
  cases value with
  | «instance» object =>
      exact .pure rfl
  | _ =>
      exact mirrors_fail (hcause _) rfl

theorem mirrors_asClass (place : Span) (value : Value) :
    (asClass place value).Mirrors f setting setting' (Class.relabel f)
      (asClass (f.place place) (value.relabel f)) := by
  cases value with
  | «class» cls =>
      exact .pure rfl
  | _ =>
      exact mirrors_fail rfl rfl

theorem mirrors_method (cls : Class) (object : Instance) (name : Ident) :
    (method cls object name).Mirrors f setting setting' (Value.relabel f)
      (method (cls.relabel f) (object.relabel f) (name.relabel f)) := by
  unfold method
  rw [Class.method?_relabel, Ident.relabel_name]
  cases cls.method? name.name with
  | some method =>
      refine (mirrors_bindMethod method object).bind ?_
      intro closure
      exact mirrors_makeFunction closure
  | none =>
      exact mirrors_fail rfl rfl

theorem mirrors_property (object : Instance) (name : Ident) :
    (property object name).Mirrors f setting setting' (Value.relabel f)
      (property (object.relabel f) (name.relabel f)) := by
  intro m
  unfold property
  rw [show (m.relabel f).store = m.store.relabel f from rfl, Ident.relabel_name,
    Store.relabel_field?]
  cases m.store.field? object name.name with
  | some value =>
      exact .ended (.ok value) m
  | none =>
      exact mirrors_method object.cls object name m

theorem mirrors_superMethod (hsetting : setting.Mirrors f setting') (frame : FrameId) (node : Node)
    (name : Ident) :
    (superMethod frame node name).Mirrors f setting setting' (Value.relabel f)
      (superMethod frame (node.relabel f) (name.relabel f)) := by
  refine (mirrors_distance? hsetting node.id).bind ?_
  intro distance
  -- The scope of `super` is looked for first, and `this` is bound one scope nearer.
  cases distance with
  | none =>
      exact mirrors_fail rfl rfl
  | some distance =>
      refine (mirrors_read fun s => s.relabel_getAt frame distance superName).bind ?_
      intro value
      refine (mirrors_asClass name.span value).bind ?_
      intro cls
      cases distance with
      | zero =>
          exact mirrors_fail rfl rfl
      | succ nearer =>
          refine (mirrors_read fun s => s.relabel_getAt frame nearer thisName).bind ?_
          intro receiver
          refine (mirrors_asInstance (fun _ => rfl) receiver).bind ?_
          intro object
          exact mirrors_method cls object name

theorem relabel_bindAll (frame : FrameId) (pairs : List (Ident × Value)) (s : Store) :
    (pairs.map (Prod.map (Ident.relabel f) (Value.relabel f))).foldl
        (fun s p => s.define frame p.1.name p.2) (s.relabel f) =
      (pairs.foldl (fun s p => s.define frame p.1.name p.2) s).relabel f := by
  induction pairs generalizing s with
  | nil =>
      rfl
  | cons p pairs ih =>
      simp only [List.map_cons, List.foldl_cons, Prod.map_fst, Prod.map_snd, Ident.relabel_name,
        Store.relabel_define]
      exact ih (s.define frame p.1.name p.2)

theorem mirrors_bindArguments (frame : FrameId) (parameters : List Ident)
    (arguments : List Value) :
    (bindArguments frame parameters arguments).Mirrors f setting setting' id
      (bindArguments frame (parameters.map (Ident.relabel f))
        (arguments.map (Value.relabel f))) := by
  unfold bindArguments
  rw [List.zip_map]
  exact mirrors_change fun s => relabel_bindAll frame (parameters.zip arguments) s

theorem relabel_closeMethods (frame : FrameId) (methods : List FunctionDecl) :
    closeMethods frame (Stmt.relabelMethods f methods) =
      Closure.relabelTable f (closeMethods frame methods) := by
  -- The table varies: methods of one name replace each other in it.
  have hfold : ∀ table : Bindings Closure,
      (methods.map (Stmt.relabelRoutine f)).foldl (fun table decl =>
          table.put decl.name.name ⟨decl, frame, decl.name.name == initializerName⟩)
        (Closure.relabelTable f table) =
      Closure.relabelTable f (methods.foldl (fun table decl =>
          table.put decl.name.name ⟨decl, frame, decl.name.name == initializerName⟩) table) := by
    induction methods with
    | nil =>
        intro table
        rfl
    | cons decl methods ih =>
        intro table
        rw [List.map_cons, List.foldl_cons, List.foldl_cons, ← ih]
        refine congrArg (fun table => List.foldl _ table _) ?_
        rw [Closure.relabelTable, Bindings.mapValues_put, Stmt.relabelRoutine_name]
        rfl
  rw [Stmt.relabelMethods_eq]
  exact hfold []

theorem mirrors_methodFrame (frame : FrameId) (parent : Option Class) :
    (methodFrame frame parent).Mirrors f setting setting' id
      (methodFrame frame (parent.map (Class.relabel f))) := by
  cases parent with
  | none =>
      exact .pure rfl
  | some parent =>
      refine (mirrors_newScope frame).bind ?_
      intro inner
      refine (mirrors_define inner superName rfl).bind ?_
      intro _
      exact .pure rfl

theorem mirrors_parentClass (frame : FrameId) (parent : Option Reference) :
    (parentClass frame parent).Mirrors f setting setting' (Option.map (Class.relabel f))
      (parentClass frame (parent.map (Reference.relabel f))) := by
  cases parent with
  | none =>
      exact .pure rfl
  | some parent =>
      refine (mirrors_evaluate frame (.var parent)).bind ?_
      intro value
      exact (mirrors_asClass parent.name.span value).map fun _ => rfl

theorem mirrors_makeClass (frame : FrameId) (name : Ident) (parent : Option Reference)
    (methods : List FunctionDecl) :
    (makeClass frame name parent methods).Mirrors f setting setting'
      (Prod.map id (Class.relabel f))
      (makeClass frame (name.relabel f) (parent.map (Reference.relabel f))
        (Stmt.relabelMethods f methods)) := by
  refine (mirrors_define frame name.name rfl).bind ?_
  intro _
  refine (mirrors_parentClass frame parent).bind ?_
  intro superclass
  refine (mirrors_methodFrame frame superclass).bind ?_
  intro inner
  refine mirrors_fresh.bind ?_
  intro number
  refine .pure ?_
  simp [Class.relabel_make, relabel_closeMethods]

theorem mirrors_declareClass (frame : FrameId) (name : Ident) (parent : Option Reference)
    (methods : List FunctionDecl) :
    (declareClass frame name parent methods).Mirrors f setting setting' id
      (declareClass frame (name.relabel f) (parent.map (Reference.relabel f))
        (Stmt.relabelMethods f methods)) := by
  refine (mirrors_makeClass frame name parent methods).bind ?_
  intro made
  exact mirrors_tryChange fun s => s.relabel_assign frame name.name (.class made.2)

/-! ## Calls -/

theorem mirrors_callResult (closure : Closure) (flow : Flow) :
    (callResult closure flow).Mirrors f setting setting' (Value.relabel f)
      (callResult (closure.relabel f) (flow.relabel f)) := by
  unfold callResult
  rw [show (closure.relabel f).isInitializer = closure.isInitializer from rfl]
  split
  · rw [show (closure.relabel f).declaration = Stmt.relabelRoutine f closure.declaration from rfl,
      Stmt.relabelRoutine_name]
    exact mirrors_read fun s => s.relabel_getAt closure.frame 0 thisName
  · cases flow with
    | normal =>
        exact .pure rfl
    | returned value =>
        exact .pure rfl

theorem mirrors_run (closure : Closure) (arguments : List Value) :
    (run closure arguments).Mirrors f setting setting' (Value.relabel f)
      (run (closure.relabel f) (arguments.map (Value.relabel f))) := by
  unfold run
  rw [show (closure.relabel f).declaration = Stmt.relabelRoutine f closure.declaration from rfl,
    Stmt.relabelRoutine_parameters, Stmt.relabelRoutine_body]
  refine (mirrors_newScope closure.frame).bind ?_
  intro frame
  refine (mirrors_bindArguments frame closure.declaration.parameters arguments).bind ?_
  intro _
  refine (mirrors_executeAll frame closure.declaration.body).bind ?_
  intro flow
  exact mirrors_callResult closure flow

theorem mirrors_newInstance (cls : Class) :
    (create fun store => store.newInstance cls).Mirrors f setting setting' (Instance.relabel f)
      (create fun store => store.newInstance (cls.relabel f)) :=
  mirrors_create fun s => s.relabel_newInstance cls

theorem mirrors_invoke (hsetting : setting.Mirrors f setting') (place : Span) (callee : Value)
    (arguments : List Value) :
    (invoke place callee arguments).Mirrors f setting setting' (Value.relabel f)
      (invoke (f.place place) (callee.relabel f) (arguments.map (Value.relabel f))) := by
  cases callee with
  | native number =>
      exact mirrors_readClock hsetting place
  | function number closure =>
      exact mirrors_run closure arguments
  | «class» cls =>
      -- Whether there is an initializer depends on names only, so it is there on both sides or on
      -- neither.
      refine (mirrors_newInstance cls).bind ?_
      intro object
      rw [Class.method?_relabel]
      cases cls.method? initializerName with
      | none =>
          exact .pure rfl
      | some method =>
          refine (mirrors_bindMethod method object).bind ?_
          intro initializer
          refine (mirrors_run initializer arguments).bind ?_
          intro _
          exact .pure rfl
  | _ =>
      exact mirrors_fail rfl rfl

theorem mirrors_call (hsetting : setting.Mirrors f setting') (place : Span) (callee : Value)
    (arguments : List Value) :
    (call place callee arguments).Mirrors f setting setting' (Value.relabel f)
      (call (f.place place) (callee.relabel f) (arguments.map (Value.relabel f))) := by
  unfold call
  rw [Value.relabel_arity?, List.length_map]
  cases callee.arity? with
  | none =>
      exact mirrors_fail rfl rfl
  | some arity =>
      -- The number of arguments does not change, so the same calls fail.
      dsimp only
      split
      · exact (mirrors_invoke hsetting place callee arguments).nested
      · exact mirrors_fail rfl rfl

/-! ## Expressions and statements -/

theorem mirrors_valueOf (hsetting : setting.Mirrors f setting') (frame : FrameId) (e : Expr) :
    (valueOf frame e).Mirrors f setting setting' (Value.relabel f)
      (valueOf frame (e.relabel f)) := by
  cases e with
  | literal node literal =>
      exact .pure literal.relabel_value.symm
  | group node inner =>
      exact mirrors_evaluate frame inner
  | unary node op operand =>
      refine (mirrors_evaluate frame operand).bind ?_
      intro value
      exact mirrors_check (op.apply_relabel value)
  | binary node op left right =>
      refine (mirrors_evaluate frame left).bind ?_
      intro first
      refine (mirrors_evaluate frame right).bind ?_
      intro second
      exact mirrors_check (op.apply_relabel first second)
  | logical node op left right =>
      refine (mirrors_evaluate frame left).bind ?_
      intro first
      rw [LogicalOp.decidedBy_relabel]
      split
      · exact .pure rfl
      · exact mirrors_evaluate frame right
  | var target =>
      exact mirrors_lookUp hsetting frame target.node target.name.name
  | assign target value =>
      refine (mirrors_evaluate frame value).bind ?_
      intro value
      refine (mirrors_assign hsetting frame target value).bind ?_
      intro _
      exact .pure rfl
  | call node callee arguments =>
      refine (mirrors_evaluate frame callee).bind ?_
      intro callee
      refine (mirrors_evaluateAll frame arguments).bind ?_
      intro values
      exact mirrors_call hsetting node.span callee values
  | get id object name =>
      refine (mirrors_evaluate frame object).bind ?_
      intro value
      refine (mirrors_asInstance (fun _ => rfl) value).bind ?_
      intro object
      exact mirrors_property object name
  | set id object name value =>
      refine (mirrors_evaluate frame object).bind ?_
      intro target
      refine (mirrors_asInstance (fun _ => rfl) target).bind ?_
      intro object
      refine (mirrors_evaluate frame value).bind ?_
      intro value
      refine (mirrors_change fun s => s.relabel_setField object name.name value).bind ?_
      intro _
      exact .pure rfl
  | this node =>
      exact mirrors_lookUp hsetting frame node thisName
  | super node name =>
      exact mirrors_superMethod hsetting frame node name

theorem mirrors_loopRound (frame : FrameId) (condition : Expr) (body : Stmt) :
    (loopRound frame condition body).Mirrors f setting setting' (Option.map (Flow.relabel f))
      (loopRound frame (condition.relabel f) (body.relabel f)) := by
  refine (mirrors_evaluate frame condition).bind ?_
  intro value
  rw [Value.relabel_isTruthy]
  split
  · refine (mirrors_execute frame body).bind ?_
    intro flow
    cases flow with
    | normal =>
        exact .pure rfl
    | returned value =>
        exact .pure rfl
  · exact .pure rfl

theorem mirrors_executeRound (frame : FrameId) (s : Stmt) :
    (executeRound frame s).Mirrors f setting setting' (Option.map (Flow.relabel f))
      (executeRound frame (s.relabel f)) := by
  cases s with
  | expression e =>
      refine (mirrors_evaluate frame e).bind ?_
      intro _
      exact .pure rfl
  | print e =>
      refine (mirrors_evaluate frame e).bind ?_
      intro value
      refine (mirrors_print value.relabel_text).bind ?_
      intro _
      exact .pure rfl
  | var name initial =>
      refine (mirrors_evaluateOption frame initial).bind ?_
      intro value
      refine (mirrors_define frame name.name rfl).bind ?_
      intro _
      exact .pure rfl
  | block body =>
      refine (mirrors_newScope frame).bind ?_
      intro inner
      exact (mirrors_executeAll inner body).map fun _ => rfl
  | ifElse condition consequent alternative =>
      refine (mirrors_evaluate frame condition).bind ?_
      intro value
      rw [Value.relabel_isTruthy]
      split
      · exact (mirrors_execute frame consequent).map fun _ => rfl
      · cases alternative with
        | some s =>
            exact (mirrors_execute frame s).map fun _ => rfl
        | none =>
            exact .pure rfl
  | «while» condition body =>
      exact mirrors_loopRound frame condition body
  | function decl =>
      refine (mirrors_makeFunction ⟨decl, frame, false⟩).bind ?_
      intro value
      rw [Stmt.relabelRoutine_name]
      refine (mirrors_define frame decl.name.name rfl).bind ?_
      intro _
      exact .pure rfl
  | «return» keyword value =>
      refine (mirrors_evaluateOption frame value).bind ?_
      intro value
      exact .pure rfl
  | «class» name parent methods =>
      refine (mirrors_declareClass frame name parent methods).bind ?_
      intro _
      exact .pure rfl

end Eval

/-! ## Doing tasks -/

variable {f : Relabel} {setting setting' : Setting}

theorem Task.mirrors_round (hsetting : setting.Mirrors f setting') (task : Task) :
    task.round.Mirrors f setting setting' (Option.map (task.relabelResult f))
      (task.relabel f).round := by
  cases task with
  | evaluate frame e =>
      exact (Eval.mirrors_valueOf hsetting frame e).map fun _ => rfl
  | execute frame s =>
      exact Eval.mirrors_executeRound frame s

/-- Doing a task gives the same after a change of the numbers and places in the task and in the
machine, if the distances are recorded under the new numbers. -/
theorem perform_relabel (hsetting : setting.Mirrors f setting') (fuel : Nat) :
    ∀ (task : Task) (m : Machine), perform setting' fuel (task.relabel f) (m.relabel f) =
      (perform setting fuel task m).relabel f (task.relabelResult f) := by
  induction fuel with
  | zero =>
      intro task m
      rfl
  | succ fuel ih =>
      intro task m
      have hrun := (Task.mirrors_round hsetting task m).run ih
      rw [perform, perform, hrun]
      cases (task.round setting m).run (perform setting fuel) with
      | timeout =>
          rfl
      | ended r m' =>
          rcases r with fault | _ | result
          · rfl
          · -- The round leaves the relabelled machine, from which the task goes round again.
            exact ih task m'
          · rfl

end Lox
