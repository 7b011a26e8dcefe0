import Lox.Proofs.Parallel.Course

/-!
# Evaluation of parallel code

Parallel code in frames that stand for each other is evaluated in parallel. There is one lemma for each
function of the evaluator. A declaration binds its name in the frame at hand, so that frame is not
hollow; every other frame that is made stands for a frame of the second run as well.

Main statements: `Eval.parallels_valueOf`, `Eval.parallels_root` and `Eval.parallels_derived`.
-/

namespace Lox

namespace Eval

open FaultCause (ParallelsOr TellsType)

variable {T : Tracks} {P : Pairing} {k : Hollow} {f f' : FrameId}

/-! ## Tasks -/

theorem parallels_evaluate {e e' : Expr} (hp : P k f f') (he : e.Parallels T k e') :
    (evaluate f e).Parallels T P (Value.Parallels T) (evaluate f' e') :=
  parallels_request fun _ hle => .evaluate (hle k f f' hp) he

theorem parallels_execute {s s' : Stmt} (hp : P k f f') (hs : s.Parallels T k s') :
    (execute f s).Parallels T P (Flow.Parallels T) (execute f' s') :=
  parallels_request fun _ hle => .execute (hle k f f' hp) hs

theorem parallels_evaluateAll {es es' : List Expr} (hp : P k f f')
    (hes : List.Forall₂ (Expr.Parallels T k) es es') :
    (evaluateAll f es).Parallels T P (fun Q => List.Forall₂ (Value.Parallels T Q))
      (evaluateAll f' es') := by
  induction hes with
  | nil => exact .pure fun _ _ => .nil
  | cons he _ ih =>
      refine (parallels_evaluate hp he).bind ?_
      intro Q v v' hle hv
      refine (ih.mono hle).bind ?_
      intro Q' vs vs' hle' hvs
      refine .pure fun Q'' hle'' => ?_
      exact .cons (hv.mono (hle'.trans hle'')) (hvs.imp fun _ _ h => h.mono hle'')

theorem parallels_evaluateOption {e? e?' : Option Expr} (hp : P k f f')
    (he : Option.Rel (Expr.Parallels T k) e? e?') :
    (evaluateOption f e?).Parallels T P (Value.Parallels T) (evaluateOption f' e?') := by
  cases he with
  | none => exact .pure fun _ _ => .nil
  | some he => exact parallels_evaluate hp he

theorem parallels_executeAll {ss : List Stmt} : ∀ {ss' : List Stmt}, P k f f' →
    Stmt.ParallelsAll T k ss ss' →
      (executeAll f ss).Parallels T P (Flow.Parallels T) (executeAll f' ss') := by
  induction ss with
  | nil =>
      intro ss' _ h
      cases h
      exact .pure fun _ _ => .normal
  | cons s ss ih =>
      intro ss' hp h
      cases h with
      | cons hs hss =>
          refine (parallels_execute hp hs).bind ?_
          intro Q w w' hle hw
          cases hw with
          | normal => exact (ih hp hss).mono hle
          | returned hv => exact .pure fun _ hle' => .returned (hv.mono hle')

/-! ## Variables -/

theorem parallels_lookUp {id id' : Nat} {span : Span} {name : String} (hp : P k f f')
    (h : T.Leads k id id') :
    (lookUp f ⟨id, span⟩ name).Parallels T P (Value.Parallels T)
      (lookUp f' ⟨id', span⟩ name) := by
  refine (parallels_distance? id id').bind ?_
  rintro Q d? d?' hle ⟨rfl, rfl⟩
  rw [h.distance]
  cases hd : T.first.locals.distance? id with
  | some d =>
      refine parallels_read ?_
      intro Q' s s' hle' hs
      exact hs.getAt (hle' k f f' (hle k f f' hp)) (h.apart d hd) name
  | none =>
      refine parallels_globals.bind ?_
      intro Q' root root' _ hroot
      refine parallels_read ?_
      intro Q'' s s' hle' hs
      exact hs.get (hle' none root root' hroot) name

theorem parallels_assign {id id' : Nat} {name : Ident} {v v' : Value} (hp : P k f f')
    (h : T.Leads k id id') (hv : v.Parallels T P v') :
    (assign f ⟨id, name⟩ v).Parallels T P Nothing (assign f' ⟨id', name⟩ v') := by
  refine (parallels_distance? id id').bind ?_
  rintro Q d? d?' hle ⟨rfl, rfl⟩
  rw [h.distance]
  cases hd : T.first.locals.distance? id with
  | some d =>
      refine parallels_tryChange ?_
      intro Q' s s' hle' hs
      have hle₂ := hle.trans hle'
      exact hs.assignAt (hle₂ k f f' hp) (h.apart d hd) name.name (hv.mono hle₂)
  | none =>
      refine parallels_globals.bind ?_
      intro Q' root root' hle' hroot
      refine parallels_tryChange ?_
      intro Q'' s s' hle'' hs
      exact hs.assign (hle'' none root root' hroot) name.name
        (hv.mono ((hle.trans hle').trans hle''))

/-! ## Frames -/

/-- Both runs make a frame in frames that stand for each other. -/
theorem parallels_newScope (hp : P k f f') :
    (create fun s => s.newScope f).Parallels T P (fun Q g g' => Q k.inside g g')
      (create fun s => s.newScope f') := by
  refine parallels_create ?_
  intro Q s s' hle hs
  exact ⟨_, Q.le_add _ _ _, Q.add_self _ _ _, hs.newScope (hle k f f' hp)⟩

theorem parallels_define {name : String} {v v' : Value} (hmates : P.Mates f f')
    (hv : v.Parallels T P v') :
    (change fun s => s.define f name v).Parallels T P Nothing
      (change fun s => s.define f' name v') := by
  refine parallels_change ?_
  intro Q s s' hle hs
  exact hs.define (hmates.mono hle) (hv.mono hle)

/-! ## Functions, classes and instances -/

theorem parallels_fresh :
    (create Store.fresh).Parallels T P (fun _ id id' => id' = id) (create Store.fresh) := by
  refine parallels_create ?_
  intro Q s s' _ hs
  exact ⟨Q, le_refl Q, hs.nextId, hs.fresh⟩

theorem parallels_makeFunction {c c' : Closure} (hc : c.Parallels T P c') :
    (makeFunction c).Parallels T P (Value.Parallels T) (makeFunction c') := by
  refine parallels_fresh.bind ?_
  rintro Q id _ hle rfl
  exact .pure fun Q' hle' => .function (hc.mono (hle.trans hle'))

/-- The frame that binds `this` is not hollow, so the method can be called. -/
theorem parallels_bindMethod {c c' : Closure} {o o' : Instance} (hc : c.Unbound T P c')
    (ho : o.Parallels T P o') :
    (bindMethod c o).Parallels T P (Closure.Parallels T) (bindMethod c' o') := by
  rcases hc.code with ⟨k, hp, hcode⟩
  refine (parallels_newScope hp).bind ?_
  intro Q g g' hle hg
  refine (parallels_define ⟨k.inside, k.inside_ne_zero, hg⟩ (.instance (ho.mono hle))).bind ?_
  rintro Q' - - hle' -
  refine .pure fun Q'' hle'' => ?_
  exact ⟨hc.isInitializer, k.inside, k.inside_ne_zero, hle'' _ _ _ (hle' _ _ _ hg), hcode⟩

theorem parallels_asInstance {place : Span} {cause : Value → FaultCause} {v v' : Value}
    (hcause : TellsType cause) (hv : v.Parallels T P v') :
    (asInstance place cause v).Parallels T P (Instance.Parallels T)
      (asInstance place cause v') := by
  have hfault := hcause.parallels hv
  cases hv with
  | «instance» ho => exact .pure fun _ hle => ho.mono hle
  | _ => exact parallels_fail hfault

theorem parallels_asClass {place : Span} {v v' : Value} (hv : v.Parallels T P v') :
    (asClass place v).Parallels T P (Class.Parallels T) (asClass place v') := by
  have hfault := TellsType.superclassNotAClass.parallels hv
  cases hv with
  | «class» hc => exact .pure fun _ hle => hc.mono hle
  | _ => exact parallels_fail hfault

theorem parallels_method {cls cls' : Class} {o o' : Instance} {name : Ident}
    (hcls : cls.Parallels T P cls') (ho : o.Parallels T P o') :
    (method cls o name).Parallels T P (Value.Parallels T) (method cls' o' name) := by
  unfold method
  rcases (hcls.method? name.name).inv with ⟨hm, hm'⟩ | ⟨c, c', hm, hm', hc⟩
  · rw [hm, hm']
    refine parallels_fail ⟨rfl, rfl, ?_⟩
    exact congrArg (· ++ " has no field or method " ++ name.name)
      (Value.Parallels.instance ho).text
  · rw [hm, hm']
    refine (parallels_bindMethod hc ho).bind ?_
    exact fun _ _ _ _ hbound => parallels_makeFunction hbound

theorem parallels_property {o o' : Instance} {name : Ident} (ho : o.Parallels T P o') :
    (property o name).Parallels T P (Value.Parallels T) (property o' name) := by
  intro Q m m' hle hm
  unfold property
  -- The same fields are set on both sides, so methods are looked for on both sides or on neither.
  rcases (hm.store.fields ho.id name.name).inv with ⟨hv, hv'⟩ | ⟨v, v', hv, hv', hvalue⟩
  · rw [hv, hv']
    exact parallels_method ho.cls ho Q m m' hle hm
  · rw [hv, hv']
    exact .ended (le_refl Q) (.ok hvalue) hm

/-- The superclass is found at the recorded distance and the instance one step nearer. Neither stands
in the hollow frame. -/
theorem parallels_superMethod {id id' : Nat} {span : Span} {name : Ident} (hp : P k f f')
    (h : T.Leads k id id')
    (hnear : ∀ near, T.first.locals.distance? id = some (near + 1) → k ≠ some near) :
    (superMethod f ⟨id, span⟩ name).Parallels T P (Value.Parallels T)
      (superMethod f' ⟨id', span⟩ name) := by
  refine (parallels_distance? id id').bind ?_
  rintro Q d? d?' hle ⟨rfl, rfl⟩
  have hq := hle k f f' hp
  rw [h.distance]
  cases hd : T.first.locals.distance? id with
  | none =>
      exact parallels_fail (.refl _)
  | some d =>
      -- Both values are read in the same way, at distances whose frames the other program has too.
      have hread : ∀ {Q' d'} (word : String), Q ≤ Q' → k ≠ some d' →
          (read name.span fun s => s.getAt f d' word).Parallels T Q' (Value.Parallels T)
            (read name.span fun s => s.getAt f' (k.skip d') word) := by
        intro Q' d' word hle' hd'
        refine parallels_read ?_
        intro Q'' s s' hle'' hs
        exact hs.getAt (hle'' k f f' (hle' k f f' hq)) hd' word
      refine (hread superName (le_refl Q) (h.apart d hd)).bind ?_
      intro Q₁ v v' hle₁ hv
      refine (parallels_asClass hv).bind ?_
      intro Q₂ cls cls' hle₂ hcls
      cases d with
      | zero =>
          rw [Hollow.skip_zero (h.apart 0 hd)]
          exact parallels_fail (.refl _)
      | succ near =>
          -- The hollow frame is not between the two, so one step nearer here is one step nearer
          -- there.
          rw [Hollow.skip_succ (hnear near hd) (h.apart (near + 1) hd)]
          refine (hread thisName (hle₁.trans hle₂) (hnear near hd)).bind ?_
          intro Q₃ receiver receiver' hle₃ hreceiver
          refine (parallels_asInstance .propertyOfNoInstance hreceiver).bind ?_
          intro Q₄ o o' hle₄ ho
          exact parallels_method (hcls.mono (hle₃.trans hle₄)) ho

/-! ## Calls -/

theorem parallels_bindAll {parameters : List Ident} : ∀ {vs vs' : List Value} {s s' : Store},
    List.Forall₂ (Value.Parallels T P) vs vs' → P.Mates f f' → s.Parallels T P s' →
      ((parameters.zip vs).foldl (fun s p => s.define f p.1.name p.2) s).Parallels T P
        ((parameters.zip vs').foldl (fun s p => s.define f' p.1.name p.2) s') := by
  induction parameters with
  | nil => exact fun _ _ hs => hs
  | cons i parameters ih =>
      intro vs vs' s s' hvs hmates hs
      cases hvs with
      | nil => exact hs
      | cons hv hvs => exact ih hvs hmates (hs.define hmates hv)

theorem parallels_bindArguments {parameters : List Ident} {vs vs' : List Value}
    (hmates : P.Mates f f') (hvs : List.Forall₂ (Value.Parallels T P) vs vs') :
    (bindArguments f parameters vs).Parallels T P Nothing (bindArguments f' parameters vs') := by
  refine parallels_change ?_
  intro Q s s' hle hs
  exact parallels_bindAll (hvs.imp fun _ _ hv => hv.mono hle) (hmates.mono hle) hs

theorem parallels_callResult {c c' : Closure} {w w' : Flow} (hc : c.Parallels T P c')
    (hw : w.Parallels T P w') :
    (callResult c w).Parallels T P (Value.Parallels T) (callResult c' w') := by
  rcases hc.code with ⟨k, hk, hp, hcode⟩
  unfold callResult
  rw [hc.isInitializer, hcode.name]
  split
  · refine parallels_read ?_
    intro Q s s' hle hs
    have hthis := hs.getAt (hle _ _ _ hp) hk thisName
    -- The frame that binds `this` is not the hollow one, so nothing is skipped.
    rwa [Hollow.skip_zero hk] at hthis
  · cases hw with
    | normal => exact .pure fun _ _ => .nil
    | returned hv => exact .pure fun _ hle => hv.mono hle

theorem parallels_run {c c' : Closure} {vs vs' : List Value} (hc : c.Parallels T P c')
    (hvs : List.Forall₂ (Value.Parallels T P) vs vs') :
    (run c vs).Parallels T P (Value.Parallels T) (run c' vs') := by
  rcases hc.code with ⟨k, -, hp, hcode⟩
  unfold run
  rw [hcode.parameters]
  refine (parallels_newScope hp).bind ?_
  intro Q g g' hle hg
  refine (parallels_bindArguments ⟨k.inside, k.inside_ne_zero, hg⟩
    (hvs.imp fun _ _ hv => hv.mono hle)).bind ?_
  rintro Q₁ - - hle₁ -
  refine (parallels_executeAll (hle₁ _ _ _ hg) hcode.body).bind ?_
  intro Q₂ w w' hle₂ hw
  exact parallels_callResult (hc.mono ((hle.trans hle₁).trans hle₂)) hw

theorem parallels_invoke {place : Span} {v v' : Value} {vs vs' : List Value}
    (hv : v.Parallels T P v') (hvs : List.Forall₂ (Value.Parallels T P) vs vs') :
    (invoke place v vs).Parallels T P (Value.Parallels T) (invoke place v' vs') := by
  have hfault := TellsType.notCallable.parallels hv
  cases hv with
  | native id => exact parallels_readClock
  | function hc => exact parallels_run hc hvs
  | @«class» cls cls' hcls =>
      have hmake : (create fun s => s.newInstance cls).Parallels T P (Instance.Parallels T)
          (create fun s => s.newInstance cls') := by
        refine parallels_create ?_
        intro Q s s' hle hs
        exact ⟨Q, le_refl Q, ⟨hs.instances, hcls.mono hle⟩, hs.newInstance⟩
      refine hmake.bind ?_
      intro Q o o' hle ho
      rcases (hcls.method? initializerName).inv with ⟨hm, hm'⟩ | ⟨c, c', hm, hm', hc⟩
      · rw [hm, hm']
        exact .pure fun _ hle' => .instance (ho.mono hle')
      · rw [hm, hm']
        refine (parallels_bindMethod (hc.mono hle) ho).bind ?_
        intro Q₁ b b' hle₁ hb
        refine (parallels_run hb (hvs.imp fun _ _ hv => hv.mono (hle.trans hle₁))).bind ?_
        intro Q₂ _ _ hle₂ _
        exact .pure fun _ hle₃ => .instance (ho.mono ((hle₁.trans hle₂).trans hle₃))
  | _ => exact parallels_fail hfault

theorem parallels_call {place : Span} {v v' : Value} {vs vs' : List Value}
    (hv : v.Parallels T P v') (hvs : List.Forall₂ (Value.Parallels T P) vs vs') :
    (call place v vs).Parallels T P (Value.Parallels T) (call place v' vs') := by
  unfold call
  rw [hv.arity?, hvs.length_eq]
  cases v.arity? with
  | none => exact parallels_fail (TellsType.notCallable.parallels hv)
  | some arity =>
      dsimp only
      split
      · exact parallels_nested (parallels_invoke hv hvs)
      · exact parallels_fail (.refl _)

/-! ## Expressions -/

theorem parallels_valueOf {e e' : Expr} (hp : P k f f') (he : e.Parallels T k e') :
    (valueOf f e).Parallels T P (Value.Parallels T) (valueOf f' e') := by
  cases he with
  | literal => exact .pure fun _ _ => Literal.parallels_value _
  | group hinner => exact parallels_evaluate hp hinner
  | unary hoperand =>
      refine (parallels_evaluate hp hoperand).bind ?_
      intro Q v v' _ hv
      exact parallels_check fun Q' hle' => UnaryOp.parallels_apply _ (hv.mono hle')
  | binary hleft hright =>
      refine (parallels_evaluate hp hleft).bind ?_
      intro Q v v' hle hv
      refine (parallels_evaluate (hle _ _ _ hp) hright).bind ?_
      intro Q₁ w w' hle₁ hw
      exact parallels_check fun Q₂ hle₂ =>
        BinaryOp.parallels_apply _ (hv.mono (hle₁.trans hle₂)) (hw.mono hle₂)
  | logical hleft hright =>
      refine (parallels_evaluate hp hleft).bind ?_
      intro Q v v' hle hv
      rw [LogicalOp.parallels_decidedBy _ hv]
      split
      · exact .pure fun _ hle' => hv.mono hle'
      · exact parallels_evaluate (hle _ _ _ hp) hright
  | var h => exact parallels_lookUp hp h
  | assign h hvalue =>
      refine (parallels_evaluate hp hvalue).bind ?_
      intro Q v v' hle hv
      refine (parallels_assign (hle _ _ _ hp) h hv).bind ?_
      rintro Q₁ - - hle₁ -
      exact .pure fun _ hle₂ => hv.mono (hle₁.trans hle₂)
  | call hcallee harguments =>
      refine (parallels_evaluate hp hcallee).bind ?_
      intro Q v v' hle hv
      refine (parallels_evaluateAll (hle _ _ _ hp) harguments).bind ?_
      intro Q₁ vs vs' hle₁ hvs
      exact parallels_call (hv.mono hle₁) hvs
  | get hobject =>
      refine (parallels_evaluate hp hobject).bind ?_
      intro Q v v' _ hv
      refine (parallels_asInstance .propertyOfNoInstance hv).bind ?_
      exact fun _ _ _ _ ho => parallels_property ho
  | set hobject hvalue =>
      refine (parallels_evaluate hp hobject).bind ?_
      intro Q target target' hle htarget
      refine (parallels_asInstance .fieldOfNoInstance htarget).bind ?_
      intro Q₁ o o' hle₁ ho
      refine (parallels_evaluate (hle₁ _ _ _ (hle _ _ _ hp)) hvalue).bind ?_
      intro Q₂ v v' hle₂ hv
      refine (parallels_change fun Q₃ s s' hle₃ hs => hs.setField ho.id (hv.mono hle₃)).bind ?_
      rintro Q₃ - - hle₃ -
      exact .pure fun _ hle₄ => hv.mono (hle₃.trans hle₄)
  | this h => exact parallels_lookUp hp h
  | super h hnear => exact parallels_superMethod hp h hnear

/-! ## Classes -/

/-- Methods that are declared in frames that stand for each other make parallel tables. -/
theorem parallels_closeMethods {methods : List FunctionDecl} :
    ∀ {methods' : List FunctionDecl}, P k f f' → Stmt.ParallelsMethods T k.inside methods methods' →
      ∀ name, Option.Rel (Closure.Unbound T P) ((closeMethods f methods).value? name)
        ((closeMethods f' methods').value? name) := by
  unfold closeMethods
  -- The tables vary, since later methods replace earlier ones of the same name in both.
  suffices hfold : ∀ {methods' : List FunctionDecl} {table table' : Bindings Closure}, P k f f' →
      Stmt.ParallelsMethods T k.inside methods methods' →
      (∀ name, Option.Rel (Closure.Unbound T P) (table.value? name) (table'.value? name)) →
      ∀ name, Option.Rel (Closure.Unbound T P)
        ((methods.foldl (fun table decl => table.put decl.name.name
          ⟨decl, f, decl.name.name == initializerName⟩) table).value? name)
        ((methods'.foldl (fun table decl => table.put decl.name.name
          ⟨decl, f', decl.name.name == initializerName⟩) table').value? name) by
    intro methods' hp h
    exact hfold hp h fun _ => .none
  induction methods with
  | nil =>
      intro methods' table table' _ h htable
      cases h
      exact htable
  | cons decl methods ih =>
      intro methods' table table' hp h htable
      cases h with
      | @cons _ _ decl' _ methods' hdecl hmethods =>
          rw [List.foldl_cons, List.foldl_cons]
          refine ih hp hmethods ?_
          intro name
          rw [hdecl.name, Bindings.value?_put, Bindings.value?_put]
          split
          · exact .some ⟨rfl, k, hp, hdecl⟩
          · exact htable name

/-- The declaration of a class, when it is known which class it inherits from and in what frame its
methods are declared. -/
theorem parallels_declareClass {name : Ident} {parent parent' : Option Reference}
    {methods methods' : List FunctionDecl} {j : Hollow}
    {R : Pairing → Option Class → Option Class → Prop} (hk : k ≠ some 0) (hp : P k f f')
    (hparent : (parentClass f parent).Parallels T P R (parentClass f' parent'))
    (hclass : ∀ Q c c', R Q c c' → Option.Rel (Class.Parallels T Q) c c')
    (hframe : ∀ Q c c', P ≤ Q → R Q c c' →
      (methodFrame f c).Parallels T Q (fun Q' g g' => Q' j g g') (methodFrame f' c'))
    (hmethods : Stmt.ParallelsMethods T j.inside methods methods') :
    (declareClass f name parent methods).Parallels T P Nothing
      (declareClass f' name parent' methods') := by
  -- The pairing grows in each step, and what was known of the earlier ones is carried along.
  have hmake : (makeClass f name parent methods).Parallels T P
      (fun Q made made' => made.2.Parallels T Q made'.2) (makeClass f' name parent' methods') := by
    refine (parallels_define ⟨k, hk, hp⟩ .nil).bind ?_
    rintro Q - - hle -
    refine (hparent.mono hle).bind ?_
    intro Q₁ c c' hle₁ hc
    refine (hframe Q₁ c c' (hle.trans hle₁) hc).bind ?_
    intro Q₂ g g' hle₂ hg
    refine parallels_fresh.bind ?_
    rintro Q₃ id _ hle₃ rfl
    refine .pure fun Q₄ hle₄ => .make ?_ ?_
    · exact parallels_closeMethods (hle₄ _ _ _ (hle₃ _ _ _ hg)) hmethods
    · exact (hclass Q₁ c c' hc).mono fun _ _ h => h.mono ((hle₂.trans hle₃).trans hle₄)
  refine hmake.bind ?_
  intro Q made made' hle hmade
  refine parallels_tryChange ?_
  intro Q₁ s s' hle₁ hs
  exact hs.assign (hle₁ _ _ _ (hle _ _ _ hp)) name.name (.class (hmade.mono hle₁))

theorem parallels_root {name : Ident} {methods methods' : List FunctionDecl} (hk : k ≠ some 0)
    (hp : P k f f') (hmethods : Stmt.ParallelsMethods T k.inside methods methods') :
    (declareClass f name none methods).Parallels T P Nothing
      (declareClass f' name none methods') := by
  -- Without a superclass no frame is opened, so the methods stand in the frame of the class.
  have hparent : (parentClass f none).Parallels T P (fun _ c c' => c = none ∧ c' = none)
      (parentClass f' none) := .pure fun _ _ => ⟨rfl, rfl⟩
  refine parallels_declareClass hk hp hparent ?_ ?_ hmethods
  · rintro Q c c' ⟨rfl, rfl⟩
    exact .none
  · rintro Q c c' hle ⟨rfl, rfl⟩
    exact .pure fun Q' hle' => hle' _ _ _ (hle _ _ _ hp)

/-- The methods stand in a frame of their own that binds `super`. -/
theorem parallels_derived {name parent : Ident} {id id' : Nat}
    {methods methods' : List FunctionDecl} (hk : k ≠ some 0) (hp : P k f f')
    (h : T.Leads k id id') (hmethods : Stmt.ParallelsMethods T k.inside.inside methods methods') :
    (declareClass f name (some ⟨id, parent⟩) methods).Parallels T P Nothing
      (declareClass f' name (some ⟨id', parent⟩) methods') := by
  have hparent : (parentClass f (some ⟨id, parent⟩)).Parallels T P
      (fun Q c c' => ∃ a b, c = some a ∧ c' = some b ∧ a.Parallels T Q b)
      (parentClass f' (some ⟨id', parent⟩)) := by
    refine (parallels_evaluate hp (.var h)).bind ?_
    intro Q v v' _ hv
    exact (parallels_asClass hv).map fun _ a b hab => ⟨a, b, rfl, rfl, hab⟩
  refine parallels_declareClass hk hp hparent ?_ ?_ hmethods
  · rintro Q c c' ⟨a, b, rfl, rfl, hab⟩
    exact .some hab
  · rintro Q c c' hle ⟨a, b, rfl, rfl, hab⟩
    refine (parallels_newScope (hle _ _ _ hp)).bind ?_
    intro Q₁ g g' hle₁ hg
    refine (parallels_define ⟨k.inside, k.inside_ne_zero, hg⟩ (.class (hab.mono hle₁))).bind ?_
    rintro Q₂ - - hle₂ -
    exact .pure fun Q₃ hle₃ => hle₃ _ _ _ (hle₂ _ _ _ hg)

end Eval

end Lox
