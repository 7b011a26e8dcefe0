import Lox.Proofs.Scope.Rules
import Lox.Proofs.Syntax.Places
import Lox.Report.Scope

/-!
# Where violations are found

A violation of a scope rule cites places that the steps of the walk mention, and the walk mentions
places that the program keeps.

Main statement: `resolveProgram_places`.
-/

namespace Lox

namespace Walk

variable {P : Span → Prop} {before steps others : List Step} {step : Step} {e : ScopeError}

/-! ## Steps -/

/-- The places that a step mentions. -/
def Step.places : Step → List Span
  | .enter region => region.bound?.toList.map Ident.span
  | .leave => []
  | .declare name => [name.span]
  | .use u initialized => u.node.span :: initialized.toList.map Ident.span
  | .return keyword _ => [keyword]
  | .inherit name parent => [name.span, parent.span]

theorem Step.span_mem_places {name : Ident} (h : step.declares? = some name) :
    name.span ∈ step.places := by
  cases step with
  | enter region =>
      rw [declares?] at h
      simp [places, h]
  | declare name' =>
      cases h
      exact List.mem_singleton.mpr rfl
  | _ =>
      cases h

/-- All places that steps mention have a property. -/
def PlacedIn (P : Span → Prop) (steps : List Step) : Prop :=
  ∀ step ∈ steps, ∀ place ∈ step.places, P place

namespace PlacedIn

theorem nil : PlacedIn P [] :=
  nofun

theorem cons (hstep : ∀ place ∈ step.places, P place) (h : PlacedIn P steps) :
    PlacedIn P (step :: steps) :=
  List.forall_mem_cons.mpr ⟨hstep, h⟩

theorem append (h : PlacedIn P steps) (h' : PlacedIn P others) : PlacedIn P (steps ++ others) :=
  List.forall_mem_append.mpr ⟨h, h'⟩

theorem around {region : Region} (hregion : ∀ name ∈ region.bound?, P name.span)
    (h : PlacedIn P steps) : PlacedIn P (region.around steps) := by
  have hleave : PlacedIn P [.leave] := List.forall_mem_singleton.mpr fun _ hplace => nomatch hplace
  refine .cons ?_ (h.append hleave)
  intro place hplace
  rcases List.mem_map.mp hplace with ⟨name, hname, rfl⟩
  exact hregion name (Option.mem_toList.mp hname)

/-- A region that binds no name of the language. -/
theorem around_bare {region : Region} (hregion : region.bound? = none) (h : PlacedIn P steps) :
    PlacedIn P (region.around steps) :=
  h.around (by rw [hregion]; nofun)

theorem declare {name : Ident} (hname : P name.span) (h : PlacedIn P steps) :
    PlacedIn P (.declare name :: steps) :=
  h.cons (List.forall_mem_singleton.mpr hname)

end PlacedIn

/-! ## Violations -/

/-- A violation cites places of the step, or of a declaration before it. -/
theorem Violates.places (h : Violates before step e) (hplaced : PlacedIn P (before ++ [step])) :
    ∀ place ∈ e.notice.places, P place := by
  have hstep : ∀ place ∈ step.places, P place :=
    hplaced step (List.mem_append_right _ List.mem_cons_self)
  cases h with
  | returnOutside | returnValue | thisOutside | superOutside | superWithout =>
      have hplace := hstep _ List.mem_cons_self
      exact List.forall_mem_cons.mpr ⟨hplace, List.forall_mem_singleton.mpr hplace⟩
  | inheritsItself =>
      have hplace := hstep _ (List.mem_cons_of_mem _ List.mem_cons_self)
      exact List.forall_mem_cons.mpr ⟨hplace, List.forall_mem_singleton.mpr hplace⟩
  | @redeclared old new inside last same =>
      rcases last with ⟨earlier, declaring, between, rfl, hdeclares, -⟩
      have hnew := hstep _ List.mem_cons_self
      have hold : P old.span := hplaced declaring (by simp) _ (Step.span_mem_places hdeclares)
      exact List.forall_mem_cons.mpr ⟨hnew, List.forall_mem_cons.mpr
        ⟨hold, List.forall_mem_singleton.mpr hnew⟩⟩
  | ownInitializer =>
      have huse := hstep _ List.mem_cons_self
      have hdeclared := hstep _ (List.mem_cons_of_mem _ List.mem_cons_self)
      exact List.forall_mem_cons.mpr ⟨huse, List.forall_mem_cons.mpr
        ⟨hdeclared, List.forall_mem_singleton.mpr huse⟩⟩

/-- Every violation that is reported cites places of the walk. -/
theorem Reports.places {errors : List ScopeError} (h : Reports before steps errors)
    (hplaced : PlacedIn P (before ++ steps)) :
    ∀ e ∈ errors, ∀ place ∈ e.notice.places, P place := by
  induction h with
  | nil =>
      exact fun _ he => nomatch he
  | @silent before steps step errors kept rest ih =>
      refine ih ?_
      rw [List.append_assoc]
      exact hplaced
  | @report before steps step error errors broken only rest ih =>
      have hsplit : before ++ step :: steps = before ++ [step] ++ steps := by
        rw [List.append_assoc, List.singleton_append]
      rw [hsplit] at hplaced
      have hbefore : PlacedIn P (before ++ [step]) :=
        fun other hother => hplaced other (List.mem_append_left _ hother)
      exact List.forall_mem_cons.mpr ⟨broken.places hbefore, ih hplaced⟩

end Walk

/-! ## The walk -/

open Walk

variable {P : Span → Prop}

theorem Expr.node_of_use? {e : Expr} {u : Use} (h : e.use? = some u) : u.node = e.node := by
  cases e <;> cases h <;> rfl

theorem Expr.placed_walk {e : Expr} {initialized : Option Ident}
    (hparts : ∀ part ∈ e.parts, ∀ place ∈ part.places, P place)
    (hinitialized : ∀ name ∈ initialized, P name.span) : Walk.PlacedIn P (e.walk initialized) := by
  intro step hstep
  rcases e.use_of_mem_walk hstep with ⟨u, rfl⟩
  have hused : u ∈ used (e.walk initialized) := List.mem_filterMap.mpr ⟨_, hstep, rfl⟩
  rw [Expr.used_walk] at hused
  rcases List.mem_filterMap.mp hused with ⟨part, hpart, huse⟩
  refine List.forall_mem_cons.mpr ⟨?_, ?_⟩
  · rw [node_of_use? huse]
    exact hparts part hpart _ List.mem_cons_self
  · intro place hplace
    rcases List.mem_map.mp hplace with ⟨name, hname, rfl⟩
    exact hinitialized name (Option.mem_toList.mp hname)

namespace Stmt

theorem placed_walk_operand {s : Stmt} {ss : List Stmt} (h : PlacedIn P (s :: ss)) {e : Expr}
    (he : e ∈ s.operands) : Walk.PlacedIn P (e.walk none) :=
  Expr.placed_walk (h.operand List.mem_cons_self he) nofun

theorem placed_walk_initial {s : Stmt} {ss : List Stmt} (h : PlacedIn P (s :: ss))
    {initialized : Option Ident} (hinitialized : ∀ name ∈ initialized, P name.span)
    {e? : Option Expr} (he : e?.toList ⊆ s.operands) :
    Walk.PlacedIn P (Expr.walkOption initialized e?) := by
  cases e? with
  | none =>
      exact .nil
  | some e =>
      exact Expr.placed_walk (h.operand List.mem_cons_self (he List.mem_cons_self)) hinitialized

theorem bound?_ofMethod (name : String) : (Region.ofMethod name).bound? = none := by
  unfold Region.ofMethod
  split <;> rfl

mutual

theorem placed_walk : (s : Stmt) → PlacedIn P s.parts → Walk.PlacedIn P s.walk
  | .expression _, h => placed_walk_operand h List.mem_cons_self
  | .print _, h => placed_walk_operand h List.mem_cons_self
  | .var name initial, h => by
      have hname : P name.span := h.names _ List.mem_cons_self name List.mem_cons_self
      refine (placed_walk_initial h ?_ (List.Subset.refl initial.toList)).declare hname
      rintro _ ⟨⟩
      exact hname
  | .block body, h => (placed_walkAll body h.tail).around_bare rfl
  | .ifElse _ consequent alternative, h =>
      ((placed_walk_operand h List.mem_cons_self).append
        (placed_walk consequent h.tail.left)).append (placed_walkOption alternative h.tail.right)
  | .while _ body, h => (placed_walk_operand h List.mem_cons_self).append (placed_walk body h.tail)
  | .function decl, h => by
      rcases List.forall_mem_cons.mp (h.names _ List.mem_cons_self) with ⟨hname, hparameters⟩
      exact (placed_walkRoutine rfl decl hparameters h.tail).declare hname
  | .return keyword value, h => by
      have hnone : ∀ name ∈ (none : Option Ident), P name.span := nofun
      have hvalue := placed_walk_initial h hnone (List.Subset.refl value.toList)
      have hkeyword : P keyword := h.keywords _ List.mem_cons_self keyword rfl
      exact hvalue.cons (List.forall_mem_singleton.mpr hkeyword)
  | .class name none methods, h => by
      rcases List.forall_mem_cons.mp (h.names _ List.mem_cons_self) with ⟨hname, hmethods⟩
      refine ((placed_walkMethods methods hmethods h.tail).around ?_).declare hname
      rintro _ ⟨⟩
      exact hname
  | .class name (some parent) methods, h => by
      rcases List.forall_mem_cons.mp (h.names _ List.mem_cons_self) with ⟨hname, hmethods⟩
      have hparent : P parent.name.span := h.operand List.mem_cons_self List.mem_cons_self
        (.var parent) List.mem_cons_self _ List.mem_cons_self
      have hbody := placed_walkMethods methods hmethods h.tail
      have hinner : Walk.PlacedIn P ((Region.derived name).around (walkMethods methods)) := by
        refine hbody.around ?_
        rintro _ ⟨⟩
        exact hname
      -- From outside in: the declaration, the two steps for the parent, and the region that binds it.
      refine ((((hinner.around ?_).cons ?_).cons ?_).declare hname)
      · rintro _ ⟨⟩
        exact hparent
      · exact List.forall_mem_singleton.mpr hparent
      · exact List.forall_mem_cons.mpr ⟨hname, List.forall_mem_singleton.mpr hparent⟩

theorem placed_walkAll : (ss : List Stmt) → PlacedIn P (partsAll ss) → Walk.PlacedIn P (walkAll ss)
  | [], _ => .nil
  | s :: ss, h => (placed_walk s h.left).append (placed_walkAll ss h.right)

theorem placed_walkOption : (s? : Option Stmt) → PlacedIn P (partsOption s?) →
    Walk.PlacedIn P (walkOption s?)
  | none, _ => .nil
  | some s, h => placed_walk s h

theorem placed_walkRoutine {region : Region} (hregion : region.bound? = none) :
    (r : Routine Stmt) → (∀ name ∈ r.parameters, P name.span) → PlacedIn P (partsRoutine r) →
      Walk.PlacedIn P (walkRoutine region r)
  | ⟨_, parameters, body⟩, hparameters, h => by
      refine Walk.PlacedIn.around_bare hregion (.append ?_ (placed_walkAll body h))
      intro step hstep
      rcases List.mem_map.mp hstep with ⟨parameter, hparameter, rfl⟩
      exact List.forall_mem_singleton.mpr (hparameters parameter hparameter)

theorem placed_walkMethods : (methods : List (Routine Stmt)) →
    (∀ name ∈ methods.flatMap routineIdents, P name.span) → PlacedIn P (partsMethods methods) →
      Walk.PlacedIn P (walkMethods methods)
  | [], _, _ => .nil
  | method :: methods, hnames, h => by
      rw [List.flatMap_cons] at hnames
      rcases List.forall_mem_append.mp hnames with ⟨hmethod, hmethods⟩
      have hparameters : ∀ name ∈ method.parameters, P name.span :=
        fun name hname => hmethod name (List.mem_cons_of_mem _ hname)
      exact (placed_walkRoutine (bound?_ofMethod _) method hparameters h.left).append
        (placed_walkMethods methods hmethods h.right)

end

end Stmt

/-- Where resolution rejects a program, it cites places that the program keeps. -/
theorem resolveProgram_places {ss : List Stmt} {errors : List ScopeError}
    (h : resolveProgram ss = .error errors) (hplaced : Stmt.PlacedIn P (Stmt.partsAll ss)) :
    ∀ e ∈ errors, ∀ place ∈ e.notice.places, P place := by
  rw [(resolveProgram_error h).1]
  exact (Stmt.reports_programFindings ss).places (Stmt.placed_walkAll ss hplaced)

end Lox
