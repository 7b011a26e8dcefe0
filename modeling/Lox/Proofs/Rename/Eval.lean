import Lox.Proofs.Rename.Program

/-!
# Evaluation does not see the name of a variable

If the old name is put back in a program and in the machine, evaluation goes on as before. There is one
lemma for each function of the evaluator. Each also says which names the frames gain that were there
before, so that the old name can still be put back afterwards.

Main statements: `Eval.undoes_valueOf` and `Eval.undoes_declareClass`.
-/

namespace Lox

namespace Eval

variable {W : World} {n : Alias} {setting : Setting} {m : Machine} {frame : FrameId}

/-! ## Tasks -/

/-- What is known when an expression has been evaluated: the values of the store fit and it has grown,
but no name was gained. -/
structure Passed (W : World) (frame : FrameId) (s t : Store) : Prop where
  fits : W.StoreFits t
  grows : s.Grows t
  gains : s.Gains t frame []

theorem undoes_evaluate {e : Expr} (hready : (Task.evaluate frame e).Ready W n m.store) :
    (evaluate frame e).Undoes W n setting m (Value.rename n.back)
      (fun value m' => Passed W frame m.store m'.store ∧ W.Fits m'.store value)
      (evaluate frame (e.rename n.back)) := by
  refine (undoes_request hready).mono ?_
  rintro value m' ⟨hafter, hgains⟩
  have hended : W.Ended m.store (fun value t => W.Fits t value) (.ok value) m' := hafter
  exact ⟨⟨hended.1, hended.2.1, hgains⟩, hended.2.2 value rfl⟩

theorem undoes_execute {s : Stmt} (hready : (Task.execute frame s).Ready W n m.store) :
    (execute frame s).Undoes W n setting m (Flow.rename n.back)
      (fun _ m' => m.store.Gains m'.store frame s.declared) (execute frame (s.rename n.back)) :=
  (undoes_request hready).mono fun _ _ h => h.2

theorem undoes_evaluateAll {es : List Expr} : ∀ {m : Machine}, n.Clear W.root m.store →
    (∀ e ∈ es, (Task.evaluate frame e).Ready W n m.store) →
      (evaluateAll frame es).Undoes W n setting m (List.map (Value.rename n.back))
        (fun _ m' => m.store.Gains m'.store frame [])
        (evaluateAll frame (Expr.renameAll n.back es)) := by
  induction es with
  | nil =>
      intro m hclear _
      exact .pure hclear rfl .refl
  | cons e es ih =>
      intro m _ hready
      refine (undoes_evaluate (hready e List.mem_cons_self)).bind ?_
      rintro value m₁ hclear₁ ⟨hpassed, -⟩
      have hothers : ∀ e' ∈ es, (Task.evaluate frame e').Ready W n m₁.store := fun e' he' =>
        (hready e' (List.mem_cons_of_mem _ he')).part (List.Subset.refl _) hclear₁ hpassed.gains
      refine (ih hclear₁ hothers).bind ?_
      intro values m₂ hclear₂ hgains
      exact .pure hclear₂ rfl (hpassed.gains.after hgains)

theorem undoes_evaluateOption {e? : Option Expr} (hclear : n.Clear W.root m.store)
    (hready : ∀ e ∈ e?, (Task.evaluate frame e).Ready W n m.store) :
    (evaluateOption frame e?).Undoes W n setting m (Value.rename n.back)
      (fun _ m' => m.store.Gains m'.store frame [])
      (evaluateOption frame (e?.map (Expr.rename n.back))) := by
  cases e? with
  | none => exact .pure hclear rfl .refl
  | some e => exact (undoes_evaluate (hready e rfl)).mono fun _ _ h => h.1.gains

/-- The frame may gain all names that the statements declare, and gains no others. -/
theorem undoes_executeAll {ss : List Stmt} : ∀ {m : Machine}, frame < m.store.frames.size →
    n.Clear W.root m.store → n.Admits W.root m.store frame (Stmt.declaredAll ss) →
      (executeAll frame ss).Undoes W n setting m (Flow.rename n.back)
        (fun _ m' => m.store.Gains m'.store frame (Stmt.declaredAll ss))
        (executeAll frame (Stmt.renameAll n.back ss)) := by
  induction ss with
  | nil =>
      intro m _ hclear _
      exact .pure hclear rfl .refl
  | cons s ss ih =>
      intro m hinside hclear hadmits
      have hown : s.declared ⊆ Stmt.declaredAll (s :: ss) := List.subset_append_left _ _
      have hready : (Task.execute frame s).Ready W n m.store :=
        ⟨hinside, hclear, hadmits.mono hown, fun _ hnil => nomatch hnil⟩
      refine (undoes_execute hready).bind ?_
      intro flow m₁ hclear₁ hgains₁
      cases flow with
      | returned value =>
          -- The other statements are not executed, so the frame gains fewer names than it may.
          exact .pure hclear₁ rfl (hgains₁.mono hown)
      | normal =>
          refine (ih (Nat.lt_of_lt_of_le hinside hgains₁.size) hclear₁
            (hadmits.gains hgains₁ hinside)).mono ?_
          intro _ m₂ hgains₂
          exact hgains₁.trans hgains₂

/-! ## Variables -/

theorem undoes_lookUp {node : Node} {name : String} (hglobals : setting.globals = W.root)
    (hfits : W.StoreFits m.store) (hclear : n.Clear W.root m.store)
    (hreaches : n.Reaches W setting.locals m.store frame node.id name) :
    (lookUp frame node name).Undoes W n setting m (Value.rename n.back) (fun _ m' => m' = m)
      (lookUp frame node (n.undo name)) := by
  refine (undoes_distance? hclear).bind ?_
  rintro distance m₁ - ⟨rfl, hdistance⟩
  cases distance with
  | some distance =>
      exact undoes_read hclear (Store.corresponds_getAt fun g hg =>
        hreaches.near distance g hdistance.symm hg)
  | none =>
      -- The globals have no frame around them, so the name is looked up there only.
      refine (undoes_globals hclear).bind ?_
      rintro root m₂ - ⟨rfl, rfl⟩
      have htells := hreaches.far hdistance.symm
      rw [← hglobals] at htells
      have hchain := hfits.chain_root
      rw [← hglobals] at hchain
      exact undoes_read hclear (Store.corresponds_get hchain htells)

/-- `this` is found in the same place. -/
theorem undoes_lookUp_this {node : Node} (hglobals : setting.globals = W.root)
    (hfits : W.StoreFits m.store) (hclear : n.Clear W.root m.store) :
    (lookUp frame node thisName).Undoes W n setting m (Value.rename n.back) (fun _ m' => m' = m)
      (lookUp frame node thisName) := by
  have hreserved : Keyword.ofText? thisName ≠ none := by decide
  have hreaches : n.Reaches W setting.locals m.store frame node.id thisName :=
    Alias.reaches_reserved hreserved
  have hlook := undoes_lookUp hglobals hfits hclear hreaches
  rwa [Alias.undo_reserved hreserved] at hlook

/-- An assignment binds a name where it is bound already. -/
theorem undoes_bind (frame : FrameId) {place : Span} {name : String} {value : Value}
    {step step' : Store → Except FaultCause Store} (hclear : n.Clear W.root m.store)
    (hstep : Corresponds (Store.undo n) (step m.store) (step' (m.store.undo n)))
    (hbinds : ∀ t, step m.store = .ok t →
      ∃ g, name ∈ m.store.names g ∧ t = m.store.define g name value) :
    (tryChange place step).Undoes W n setting m id (fun _ m' => m.store.Gains m'.store frame [])
      (tryChange place step') := by
  refine (undoes_tryChange hclear hstep ?_).mono ?_
  · intro t ht
    rcases hbinds t ht with ⟨g, hname, rfl⟩
    exact hclear.define_of_mem hname
  · rintro _ m' ⟨t, ht, rfl⟩
    rcases hbinds t ht with ⟨g, hname, rfl⟩
    exact .define_of_mem hname

theorem undoes_assign {target : Reference} {value : Value} (hglobals : setting.globals = W.root)
    (hfits : W.StoreFits m.store) (hclear : n.Clear W.root m.store)
    (hreaches : n.Reaches W setting.locals m.store frame target.id target.name.name) :
    (assign frame target value).Undoes W n setting m id
      (fun _ m' => m.store.Gains m'.store frame [])
      (assign frame (target.rename n.back) (value.rename n.back)) := by
  refine (undoes_distance? hclear).bind ?_
  rintro distance m₁ - ⟨rfl, hdistance⟩
  cases distance with
  | some distance =>
      exact undoes_bind frame hclear (Store.corresponds_assignAt fun g hg =>
        hreaches.near distance g hdistance.symm hg) fun _ => Store.exists_of_assignAt
  | none =>
      refine (undoes_globals hclear).bind ?_
      rintro root m₂ - ⟨rfl, rfl⟩
      have htells := hreaches.far hdistance.symm
      rw [← hglobals] at htells
      have hchain := hfits.chain_root
      rw [← hglobals] at hchain
      exact undoes_bind frame hclear (Store.corresponds_assign hchain htells)
        fun _ => Store.exists_of_assign

/-! ## Functions, classes and instances -/

/-- A number is taken, and no frame changes. -/
theorem undoes_fresh (hclear : n.Clear W.root m.store) :
    (create Store.fresh).Undoes W n setting m id
      (fun _ m' => m' = { m with store := m.store.fresh.2 }) (create Store.fresh) :=
  (undoes_create rfl (hclear.of_names (Nat.le_refl _) fun _ => rfl)).mono fun _ _ h => h.2

theorem undoes_newScope {outer : FrameId} (hclear : n.Clear W.root m.store) :
    (create fun store => store.newScope outer).Undoes W n setting m id
      (fun inner m' => inner = m.store.frames.size ∧
        m' = { m with store := (m.store.newScope outer).2 })
      (create fun store => store.newScope outer) := by
  refine (undoes_create ?_ ?_).mono fun _ _ h => h
  · unfold Store.newScope
    rw [Store.chain_undo, Store.undo_addFrame]
  · exact hclear.addFrame

theorem undoes_define {name name' : String} {value value' : Value}
    (hclear : n.Clear W.root m.store) (hadmits : n.Admits W.root m.store frame [name])
    (hname : name' = n.undo name) (hvalue : value' = value.rename n.back) :
    (change fun store => store.define frame name value).Undoes W n setting m id
      (fun _ m' => m' = { m with store := m.store.define frame name value })
      (change fun store => store.define frame name' value') := by
  subst hname hvalue
  refine (undoes_change ?_ ?_).mono fun _ _ h => h
  · exact Store.undo_define hadmits.tells
  · exact hclear.define hadmits

theorem undoes_makeFunction (frame : FrameId) {closure : Closure} (hclear : n.Clear W.root m.store) :
    (makeFunction closure).Undoes W n setting m (Value.rename n.back)
      (fun _ m' => m.store.Gains m'.store frame []) (makeFunction (closure.rename n.back)) := by
  refine (undoes_fresh hclear).bind ?_
  rintro number m₁ hclear₁ rfl
  exact .pure hclear₁ rfl (.of_names (fun _ => rfl) rfl)

theorem undoes_bindMethod (frame : FrameId) {method : Closure} {object : Instance}
    (hclear : n.Clear W.root m.store) :
    (bindMethod method object).Undoes W n setting m (Closure.rename n.back)
      (fun closure m' => closure.declaration = method.declaration ∧ m.store.Gains m'.store frame [])
      (bindMethod (method.rename n.back) (object.rename n.back)) := by
  have hreserved : Keyword.ofText? thisName ≠ none := by decide
  refine (undoes_newScope hclear).bind ?_
  rintro inner m₁ hclear₁ ⟨rfl, rfl⟩
  refine (undoes_define hclear₁ (hclear₁.admits_reserved hreserved)
    (Alias.undo_reserved hreserved).symm rfl).bind ?_
  rintro _ m₂ hclear₂ rfl
  exact .pure hclear₂ rfl ⟨rfl, Store.Gains.outside .addFrame .define (Nat.le_refl _)⟩

theorem undoes_asInstance {place : Span} {cause : Value → FaultCause} {value : Value}
    (hclear : n.Clear W.root m.store) :
    (asInstance place cause value).Undoes W n setting m (Instance.rename n.back)
      (fun _ m' => m' = m) (asInstance place cause (value.rename n.back)) := by
  cases value with
  | «instance» object => exact .pure hclear rfl rfl
  | _ => exact undoes_fail hclear

theorem undoes_asClass {place : Span} {value : Value} (hclear : n.Clear W.root m.store) :
    (asClass place value).Undoes W n setting m (Class.rename n.back) (fun _ m' => m' = m)
      (asClass place (value.rename n.back)) := by
  cases value with
  | «class» cls => exact .pure hclear rfl rfl
  | _ => exact undoes_fail hclear

theorem undoes_method {cls : Class} {object : Instance} {name : Ident}
    (hclear : n.Clear W.root m.store) :
    (method cls object name).Undoes W n setting m (Value.rename n.back)
      (fun _ m' => m.store.Gains m'.store frame [])
      (method (cls.rename n.back) (object.rename n.back) name) := by
  unfold method
  rw [Class.method?_rename]
  cases cls.method? name.name with
  | some method =>
      refine (undoes_bindMethod frame hclear).bind ?_
      rintro closure m₁ hclear₁ ⟨-, hgains₁⟩
      exact (undoes_makeFunction frame hclear₁).mono fun _ _ hgains₂ => hgains₁.after hgains₂
  | none =>
      exact undoes_fail hclear

theorem undoes_property {object : Instance} {name : Ident} (hclear : n.Clear W.root m.store) :
    (property object name).Undoes W n setting m (Value.rename n.back)
      (fun _ m' => m.store.Gains m'.store frame []) (property (object.rename n.back) name) := by
  have hmethod : (method object.cls object name).Undoes W n setting m (Value.rename n.back)
      (fun _ m' => m.store.Gains m'.store frame [])
      (method (object.cls.rename n.back) (object.rename n.back) name) := undoes_method hclear
  unfold Eval.Undoes property
  rw [show (m.undo n).store = m.store.undo n from rfl, Store.field?_undo]
  cases m.store.field? object name.name with
  | some value => exact .ok hclear .refl
  | none => exact hmethod

theorem undoes_superMethod {node : Node} {name : Ident} (hclear : n.Clear W.root m.store) :
    (superMethod frame node name).Undoes W n setting m (Value.rename n.back)
      (fun _ m' => m.store.Gains m'.store frame []) (superMethod frame node name) := by
  -- The superclass and the instance are bound to reserved words.
  have hread : ∀ {word : String} {distance : Nat}, Keyword.ofText? word ≠ none →
      (read name.span fun store => store.getAt frame distance word).Undoes W n setting m
        (Value.rename n.back) (fun _ m' => m' = m)
        (read name.span fun store => store.getAt frame distance word) := by
    intro word distance hreserved
    have hlook := Store.corresponds_getAt (s := m.store) (f := frame) (d := distance)
      fun _ _ => Alias.tells_reserved (n := n) hreserved
    rw [Alias.undo_reserved hreserved] at hlook
    exact undoes_read hclear hlook
  refine (undoes_distance? hclear).bind ?_
  rintro distance m₁ - ⟨rfl, -⟩
  cases distance with
  | none =>
      exact undoes_fail hclear
  | some distance =>
      refine (hread (by decide)).bind ?_
      rintro value m₂ - rfl
      refine (undoes_asClass hclear).bind ?_
      rintro cls m₃ - rfl
      cases distance with
      | zero =>
          exact undoes_fail hclear
      | succ nearer =>
          refine (hread (by decide)).bind ?_
          rintro receiver m₄ - rfl
          refine (undoes_asInstance hclear).bind ?_
          rintro object m₅ - rfl
          exact undoes_method hclear

/-! ## Calls -/

/-- The names of pairs of parameters and arguments. -/
def boundNames (pairs : List (Ident × Value)) : List String :=
  pairs.map fun p => p.1.name

theorem undo_bindAll {pairs : List (Ident × Value)} : ∀ {s : Store}, frame < s.frames.size →
    n.Clear W.root s → n.Admits W.root s frame (boundNames pairs) →
      n.Clear W.root (bindAll frame s pairs) ∧
        s.Gains (bindAll frame s pairs) frame (boundNames pairs) ∧
        bindAll frame (s.undo n) (pairs.map (Prod.map (Ident.rename n.back) (Value.rename n.back))) =
          (bindAll frame s pairs).undo n := by
  induction pairs with
  | nil =>
      intro s _ hclear _
      exact ⟨hclear, .refl, rfl⟩
  | cons p pairs ih =>
      intro s hinside hclear hadmits
      have hgains : s.Gains (s.define frame p.1.name p.2) frame [p.1.name] := .define
      have hfirst : n.Admits W.root s frame [p.1.name] := by
        refine hadmits.mono ?_
        intro k hk
        rw [List.mem_singleton.mp hk]
        exact List.mem_cons_self
      rcases ih (Nat.lt_of_lt_of_le hinside hgains.size) (hclear.define hfirst)
        (Alias.Admits.gains hadmits hgains hinside) with ⟨hclear', hgains', hundo⟩
      refine ⟨hclear', hgains.trans hgains', ?_⟩
      rw [← Store.undo_define hfirst.tells] at hundo
      exact hundo

theorem boundNames_zip_subset (parameters : List Ident) (arguments : List Value) :
    boundNames (parameters.zip arguments) ⊆ parameters.map Ident.name := by
  intro name hname
  rcases List.mem_map.mp hname with ⟨p, hp, rfl⟩
  exact List.mem_map_of_mem (List.of_mem_zip hp).1

theorem undoes_bindArguments {parameters : List Ident} {arguments : List Value}
    (hinside : frame < m.store.frames.size) (hclear : n.Clear W.root m.store)
    (hadmits : n.Admits W.root m.store frame (parameters.map Ident.name)) :
    (bindArguments frame parameters arguments).Undoes W n setting m id
      (fun _ m' => m.store.Gains m'.store frame (parameters.map Ident.name))
      (bindArguments frame (parameters.map (Ident.rename n.back))
        (arguments.map (Value.rename n.back))) := by
  have hsub := boundNames_zip_subset parameters arguments
  rcases undo_bindAll hinside hclear (hadmits.mono hsub) with ⟨hclear', hgains, hundo⟩
  unfold bindArguments
  rw [List.zip_map]
  refine (undoes_change hundo hclear').mono ?_
  rintro _ m' rfl
  exact hgains.mono hsub

theorem undoes_callResult {closure : Closure} {flow : Flow} (hclear : n.Clear W.root m.store) :
    (callResult closure flow).Undoes W n setting m (Value.rename n.back) (fun _ m' => m' = m)
      (callResult (closure.rename n.back) (flow.rename n.back)) := by
  have hreserved : Keyword.ofText? thisName ≠ none := by decide
  unfold callResult
  rw [show (closure.rename n.back).isInitializer = closure.isInitializer from rfl,
    show (closure.rename n.back).declaration = Stmt.renameRoutine n.back closure.declaration
      from rfl, Stmt.renameRoutine_name]
  split
  · have hlook := Store.corresponds_getAt (s := m.store) (f := closure.frame) (d := 0)
      fun _ _ => Alias.tells_reserved (n := n) hreserved
    rw [Alias.undo_reserved hreserved] at hlook
    exact undoes_read hclear hlook
  · cases flow with
    | normal => exact .pure hclear rfl rfl
    | returned value => exact .pure hclear rfl rfl

/-- The frame of a call binds parameters and then what the body declares. No other frame gains a
name. -/
theorem undoes_run (frame : FrameId) {closure : Closure} {arguments : List Value}
    (hclear : n.Clear W.root m.store) (hlocals : n.Apart closure.declaration.locals) :
    (run closure arguments).Undoes W n setting m (Value.rename n.back)
      (fun _ m' => m.store.Gains m'.store frame [])
      (run (closure.rename n.back) (arguments.map (Value.rename n.back))) := by
  have hadmits : n.Admits W.root (m.store.newScope closure.frame).2 m.store.frames.size
      closure.declaration.locals := hclear.admits_addFrame hlocals
  have hgains : m.store.Gains (m.store.newScope closure.frame).2 frame [] := .addFrame
  have hinside : m.store.frames.size < (m.store.newScope closure.frame).2.frames.size := by
    rw [Store.newScope, Store.size_addFrame]
    exact Nat.lt_succ_self _
  unfold run
  rw [show (closure.rename n.back).declaration = Stmt.renameRoutine n.back closure.declaration
    from rfl, Stmt.renameRoutine_parameters, Stmt.renameRoutine_body]
  refine (undoes_newScope hclear).bind ?_
  rintro inner m₁ hclear₁ ⟨rfl, rfl⟩
  refine (undoes_bindArguments hinside hclear₁
    (hadmits.mono (List.subset_append_left _ _))).bind ?_
  intro _ m₂ hclear₂ hgains₂
  refine (undoes_executeAll (Nat.lt_of_lt_of_le hinside hgains₂.size) hclear₂
    (hadmits.gains hgains₂ hinside)).bind ?_
  intro flow m₃ hclear₃ hgains₃
  refine (undoes_callResult hclear₃).mono ?_
  rintro value m₄ rfl
  exact hgains.outside (hgains₂.trans hgains₃) (Nat.le_refl _)

theorem undoes_invoke (frame : FrameId) {place : Span} {callee : Value} {arguments : List Value}
    (hclear : n.Clear W.root m.store)
    (hlocals : ∀ r, callee.routine? = some r → n.Apart r.locals) :
    (invoke place callee arguments).Undoes W n setting m (Value.rename n.back)
      (fun _ m' => m.store.Gains m'.store frame [])
      (invoke place (callee.rename n.back) (arguments.map (Value.rename n.back))) := by
  cases callee with
  | native number =>
      refine (undoes_readClock hclear).mono ?_
      intro _ m' hstore
      rw [hstore]
      exact .refl
  | function number closure =>
      exact undoes_run frame hclear (hlocals _ rfl)
  | «class» cls =>
      have hnew : (create fun store => store.newInstance cls).Undoes W n setting m
          (Instance.rename n.back) (fun _ m' => m.store.Gains m'.store frame [])
          (create fun store => store.newInstance (cls.rename n.back)) := by
        refine (undoes_create ?_ ?_).mono ?_
        · exact Store.undo_newInstance cls
        · exact hclear.of_names (Nat.le_refl _) fun _ => rfl
        · rintro object m' ⟨-, rfl⟩
          exact .of_names (fun _ => rfl) rfl
      refine hnew.bind ?_
      intro object m₁ hclear₁ hgains₁
      rw [Class.method?_rename]
      cases hmethod : cls.method? initializerName with
      | none =>
          exact .pure hclear₁ rfl hgains₁
      | some method =>
          -- The initializer is bound to the new instance, and declares what it declared before.
          refine (undoes_bindMethod frame hclear₁).bind ?_
          rintro initializer m₂ hclear₂ ⟨hdeclaration, hgains₂⟩
          have hinitializer : n.Apart initializer.declaration.locals := by
            rw [hdeclaration]
            exact hlocals _ (Option.map_eq_some_iff.mpr ⟨method, hmethod, rfl⟩)
          refine (undoes_run frame hclear₂ hinitializer).bind ?_
          intro _ m₃ hclear₃ hgains₃
          exact .pure hclear₃ rfl ((hgains₁.after hgains₂).after hgains₃)
  | _ =>
      exact undoes_fail hclear

theorem undoes_call (frame : FrameId) {place : Span} {callee : Value} {arguments : List Value}
    (hclear : n.Clear W.root m.store)
    (hlocals : ∀ r, callee.routine? = some r → n.Apart r.locals) :
    (call place callee arguments).Undoes W n setting m (Value.rename n.back)
      (fun _ m' => m.store.Gains m'.store frame [])
      (call place (callee.rename n.back) (arguments.map (Value.rename n.back))) := by
  unfold call
  rw [Value.arity?_rename, List.length_map]
  cases callee.arity? with
  | none =>
      exact undoes_fail hclear
  | some arity =>
      dsimp only
      split
      · refine undoes_nested hclear ?_ ?_
        · intro _ m₁ m₂ hstore hgains
          rw [← hstore]
          exact hgains
        · exact undoes_invoke frame hclear hlocals
      · exact undoes_fail hclear

/-! ## Classes -/

theorem rename_closeMethods (methods : List FunctionDecl) :
    closeMethods frame (Stmt.renameMethods n.back methods) =
      Closure.renameTable n.back (closeMethods frame methods) := by
  have hfold : ∀ table : Bindings Closure,
      (methods.map (Stmt.renameRoutine n.back)).foldl (fun table decl =>
          table.put decl.name.name ⟨decl, frame, decl.name.name == initializerName⟩)
        (Closure.renameTable n.back table) =
      Closure.renameTable n.back (methods.foldl (fun table decl =>
          table.put decl.name.name ⟨decl, frame, decl.name.name == initializerName⟩) table) := by
    induction methods with
    | nil =>
        intro table
        rfl
    | cons decl methods ih =>
        intro table
        rw [List.map_cons, List.foldl_cons, List.foldl_cons, ← ih]
        refine congrArg (fun table => List.foldl _ table _) ?_
        rw [Closure.renameTable, Bindings.mapValues_put, Stmt.renameRoutine_name]
        rfl
  rw [Stmt.renameMethods_eq]
  exact hfold []

theorem undoes_parentClass {parent : Option Reference} (hclear : n.Clear W.root m.store)
    (hready : ∀ r ∈ parent, (Task.evaluate frame (.var r)).Ready W n m.store) :
    (parentClass frame parent).Undoes W n setting m (Option.map (Class.rename n.back))
      (fun _ m' => m.store.Grows m'.store ∧ m.store.Gains m'.store frame [])
      (parentClass frame (parent.map (Reference.rename n.back))) := by
  cases parent with
  | none =>
      exact .pure hclear rfl ⟨.refl _, .refl⟩
  | some parent =>
      refine (undoes_evaluate (hready parent rfl)).bind ?_
      rintro value m₁ hclear₁ ⟨hpassed, -⟩
      refine (undoes_asClass hclear₁).map (fun _ => rfl) ?_
      rintro cls m₂ rfl
      exact ⟨hpassed.grows, hpassed.gains⟩

theorem undoes_methodFrame {parent : Option Class} (hclear : n.Clear W.root m.store) :
    (methodFrame frame parent).Undoes W n setting m id
      (fun _ m' => m.store.Grows m'.store ∧ m.store.Gains m'.store frame [])
      (methodFrame frame (parent.map (Class.rename n.back))) := by
  have hreserved : Keyword.ofText? superName ≠ none := by decide
  cases parent with
  | none =>
      exact .pure hclear rfl ⟨.refl _, .refl⟩
  | some parent =>
      refine (undoes_newScope hclear).bind ?_
      rintro inner m₁ hclear₁ ⟨rfl, rfl⟩
      refine (undoes_define hclear₁ (hclear₁.admits_reserved hreserved)
        (Alias.undo_reserved hreserved).symm rfl).bind ?_
      rintro _ m₂ hclear₂ rfl
      exact .pure hclear₂ rfl
        ⟨.newBound, Store.Gains.outside .addFrame .define (Nat.le_refl _)⟩

/-- The name of the class is bound from the beginning. -/
theorem undoes_makeClass (h : n.Suits W setting) {d : ClassDecl} (hd : d.statement ∈ W.statements)
    (hready : (Task.execute frame d.statement).Ready W n m.store) :
    (makeClass frame d.name d.parent d.methods).Undoes W n setting m
      (Prod.map id (Class.rename n.back))
      (fun _ m' => d.name.name ∈ m'.store.names frame ∧
        m.store.Gains m'.store frame [d.name.name])
      (makeClass frame d.name (d.parent.map (Reference.rename n.back))
        (Stmt.renameMethods n.back d.methods)) := by
  have hgains : m.store.Gains (m.store.define frame d.name.name .nil) frame [d.name.name] := .define
  have hinside : frame < m.store.frames.size := hready.inside
  have hsome : ((m.store.define frame d.name.name .nil).value? frame d.name.name).isSome = true := by
    rw [Store.value?_define_self hinside]
    rfl
  refine (undoes_define hready.clear hready.admits (Alias.undo_of_ne (h.classes d hd)).symm
    rfl).bind ?_
  rintro _ m₁ hclear₁ rfl
  have hparent : ∀ r ∈ d.parent,
      (Task.evaluate frame (.var r)).Ready W n (m.store.define frame d.name.name .nil) := by
    intro r hr
    refine h.ready hd ?_ (Nat.lt_of_lt_of_le hinside hgains.size) hclear₁
      (hready.admits.again hgains hinside)
    exact Option.mem_toList.mpr (Option.map_eq_some_iff.mpr ⟨r, hr, rfl⟩)
  refine (undoes_parentClass hclear₁ hparent).bind ?_
  rintro superclass m₂ hclear₂ ⟨hgrows₂, hgains₂⟩
  refine (undoes_methodFrame hclear₂).bind ?_
  rintro inner m₃ hclear₃ ⟨hgrows₃, hgains₃⟩
  refine (undoes_fresh hclear₃).bind ?_
  rintro number m₄ hclear₄ rfl
  refine .pure hclear₄ ?_ ⟨?_, ?_⟩
  · simp [Class.rename_make, rename_closeMethods]
  · -- What was bound at first stays bound while the superclass is evaluated.
    exact Store.mem_names_iff.mpr ((hgrows₂.trans hgrows₃).bound frame _ hsome)
  · have hgains₄ : m₃.store.Gains m₃.store.fresh.2 frame [] := .of_names (fun _ => rfl) rfl
    exact ((hgains.trans hgains₂).trans hgains₃).trans hgains₄

theorem undoes_declareClass (h : n.Suits W setting) {d : ClassDecl}
    (hd : d.statement ∈ W.statements)
    (hready : (Task.execute frame d.statement).Ready W n m.store) :
    (declareClass frame d.name d.parent d.methods).Undoes W n setting m id
      (fun _ m' => m.store.Gains m'.store frame [d.name.name])
      (declareClass frame d.name (d.parent.map (Reference.rename n.back))
        (Stmt.renameMethods n.back d.methods)) := by
  refine (undoes_makeClass h hd hready).bind ?_
  rintro made m₁ hclear₁ ⟨hbound, hgains₁⟩
  have htells : n.Tells d.name.name (m₁.store.names frame) := (hclear₁.apart frame).tells_of_mem hbound
  have hassign := Store.corresponds_assign_of_mem hbound htells (.class made.2)
  rw [Alias.undo_of_ne (h.classes d hd)] at hassign
  refine (undoes_bind frame hclear₁ hassign fun _ => Store.exists_of_assign).mono ?_
  intro _ m₂ hgains₂
  exact hgains₁.trans hgains₂

/-! ## Expressions and statements -/

theorem undoes_valueOf (h : n.Suits W setting) {e : Expr}
    (hbefore : W.contract.before (.evaluate frame e) m)
    (hready : (Task.evaluate frame e).Ready W n m.store) :
    (valueOf frame e).Undoes W n setting m (Value.rename n.back)
      (fun _ m' => m.store.Gains m'.store frame []) (valueOf frame (e.rename n.back)) := by
  rcases hbefore with ⟨hfits, owner, scopes, hvisits, hstands⟩
  have hclear := hready.clear
  cases e with
  | literal node literal =>
      exact .pure hclear literal.rename_value.symm .refl
  | group node inner =>
      exact (undoes_evaluate (hready.operand List.mem_cons_self hclear .refl)).mono fun _ _ h =>
        h.1.gains
  | unary node op operand =>
      refine (undoes_evaluate (hready.operand List.mem_cons_self hclear .refl)).bind ?_
      rintro value m₁ hclear₁ ⟨hpassed, -⟩
      exact undoes_check hclear₁ (op.corresponds_apply value) fun _ => hpassed.gains
  | binary node op left right =>
      have hsecond : right ∈ (Expr.binary node op left right).operands :=
        List.mem_cons_of_mem _ List.mem_cons_self
      refine (undoes_evaluate (hready.operand List.mem_cons_self hclear .refl)).bind ?_
      rintro first m₁ hclear₁ ⟨hpassed₁, -⟩
      refine (undoes_evaluate (hready.operand hsecond hclear₁ hpassed₁.gains)).bind ?_
      rintro second m₂ hclear₂ ⟨hpassed₂, -⟩
      exact undoes_check hclear₂ (op.corresponds_apply first second) fun _ =>
        hpassed₁.gains.after hpassed₂.gains
  | logical node op left right =>
      have hsecond : right ∈ (Expr.logical node op left right).operands :=
        List.mem_cons_of_mem _ List.mem_cons_self
      refine (undoes_evaluate (hready.operand List.mem_cons_self hclear .refl)).bind ?_
      rintro first m₁ hclear₁ ⟨hpassed₁, -⟩
      rw [LogicalOp.decidedBy_rename]
      split
      · exact .pure hclear₁ rfl hpassed₁.gains
      · exact (undoes_evaluate (hready.operand hsecond hclear₁ hpassed₁.gains)).mono fun _ _ h =>
          hpassed₁.gains.after h.1.gains
  | var target =>
      have hreaches := h.reaches (hvisits _ (Expr.mem_parts_self _)) hready .refl hstands.frames
        hclear rfl
      refine (undoes_lookUp h.globals hfits hclear hreaches).mono ?_
      rintro _ m' rfl
      exact .refl
  | assign target value =>
      refine (undoes_evaluate (hready.operand List.mem_cons_self hclear .refl)).bind ?_
      rintro value m₁ hclear₁ ⟨hpassed, -⟩
      -- The value has been evaluated before the variable is looked for, in frames that may have grown.
      have hreaches := h.reaches (hvisits _ (Expr.mem_parts_self _)) hready hpassed.gains
        (hstands.frames.grows hpassed.grows) hclear₁ rfl
      refine (undoes_assign h.globals hpassed.fits hclear₁ hreaches).bind ?_
      intro _ m₂ hclear₂ hgains₂
      exact .pure hclear₂ rfl (hpassed.gains.after hgains₂)
  | call node callee arguments =>
      refine (undoes_evaluate (hready.operand List.mem_cons_self hclear .refl)).bind ?_
      rintro callee m₁ hclear₁ ⟨hpassed₁, hcallee⟩
      refine (undoes_evaluateAll hclear₁ ?_).bind ?_
      · intro e he
        exact hready.operand (List.mem_cons_of_mem _ he) hclear₁ hpassed₁.gains
      · intro values m₂ hclear₂ hgains₂
        -- The callee fits the world, so what it runs is declared in the program.
        refine (undoes_call frame hclear₂ fun r hr => h.routines r (hcallee.declares_routine hr)).mono ?_
        exact fun _ _ hgains₃ => (hpassed₁.gains.after hgains₂).after hgains₃
  | get number object name =>
      refine (undoes_evaluate (hready.operand List.mem_cons_self hclear .refl)).bind ?_
      rintro value m₁ hclear₁ ⟨hpassed, -⟩
      refine (undoes_asInstance hclear₁).bind ?_
      rintro object m₂ - rfl
      exact (undoes_property hclear₁).mono fun _ _ hgains => hpassed.gains.after hgains
  | set number object name value =>
      have hsecond : value ∈ (Expr.set number object name value).operands :=
        List.mem_cons_of_mem _ List.mem_cons_self
      refine (undoes_evaluate (hready.operand List.mem_cons_self hclear .refl)).bind ?_
      rintro target m₁ hclear₁ ⟨hpassed₁, -⟩
      refine (undoes_asInstance hclear₁).bind ?_
      rintro object m₂ - rfl
      refine (undoes_evaluate (hready.operand hsecond hclear₁ hpassed₁.gains)).bind ?_
      rintro value m₃ hclear₃ ⟨hpassed₂, -⟩
      have hset : (change fun store => store.setField object name.name value).Undoes W n setting m₃
          id (fun _ m' => m₃.store.Gains m'.store frame [])
          (change fun store =>
            store.setField (object.rename n.back) name.name (value.rename n.back)) := by
        refine (undoes_change (Store.undo_setField object name.name value) ?_).mono ?_
        · exact hclear₃.of_names (Nat.le_refl _) fun _ => rfl
        · rintro _ m' rfl
          exact .of_names (fun _ => rfl) rfl
      refine hset.bind ?_
      intro _ m₄ hclear₄ hgains₄
      exact .pure hclear₄ rfl ((hpassed₁.gains.after hpassed₂.gains).after hgains₄)
  | this node =>
      refine (undoes_lookUp_this h.globals hfits hclear).mono ?_
      rintro _ m' rfl
      exact .refl
  | super node name =>
      exact undoes_superMethod hclear

end Eval

end Lox
