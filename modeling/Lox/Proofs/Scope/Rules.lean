import Lox.Proofs.Scope.Around

/-!
# The scope rules

Each rule forbids a step at some places, and a place is given by the steps before it. Resolution
rejects a program exactly when a rule is broken somewhere along its walk, and then it gives one
violation for each time a rule is broken, in the order of the walk.

Main statement: `resolveProgram_keeps_rules`.
-/

namespace Lox

open Walk

namespace Walk

/-! ## The rules -/

/-- A step breaks a rule at a place, and the violation is known as the error. -/
inductive Violates (before : List Step) : Step → ScopeError → Prop
  /-- A `return` stands in a function. -/
  | returnOutside {keyword : Span} {hasValue : Bool}
      (outside : ∀ region d, Encloses before region d → region.routine? = none) :
      Violates before (.return keyword hasValue) ⟨.returnOutsideFunction, keyword⟩
  /-- An initializer returns no value. -/
  | returnValue {keyword : Span} (inside : Innermost Region.routine? before .initializer) :
      Violates before (.return keyword true) ⟨.returnFromInitializer, keyword⟩
  /-- `this` stands in a class. -/
  | thisOutside {node : Node} {initialized : Option Ident}
      (outside : ∀ region d, Encloses before region d → region.class? = none) :
      Violates before (.use ⟨node, .this⟩ initialized) ⟨.thisOutsideClass, node.span⟩
  /-- `super` stands in a class. -/
  | superOutside {node : Node} {method : String} {initialized : Option Ident}
      (outside : ∀ region d, Encloses before region d → region.class? = none) :
      Violates before (.use ⟨node, .super method⟩ initialized) ⟨.superOutsideClass, node.span⟩
  /-- The innermost class around `super` has a superclass. -/
  | superWithout {node : Node} {method : String} {initialized : Option Ident}
      (inside : Innermost Region.class? before .root) :
      Violates before (.use ⟨node, .super method⟩ initialized) ⟨.superWithoutSuperclass, node.span⟩
  /-- A class inherits from another class. -/
  | inheritsItself {name parent : Ident} (same : parent.name = name.name) :
      Violates before (.inherit name parent) ⟨.inheritsItself parent, parent.span⟩
  /-- A scope declares a name once. -/
  | redeclared {old new : Ident} (inside : Local before) (last : Latest before old 0)
      (same : old.name = new.name) :
      Violates before (.declare new) ⟨.redeclared old new, new.span⟩
  /-- The initializer of a local variable does not read the variable. -/
  | ownInitializer {node : Node} {name : String} {declared : Ident} (inside : Local before)
      (same : declared.name = name) :
      Violates before (.use ⟨node, .read name⟩ (some declared))
        ⟨.ownInitializer declared ⟨name, node.span⟩, node.span⟩

/-- The errors are those of the steps after a place: one for each violation, in the order of the
steps, and no others. -/
inductive Reports : (before steps : List Step) → (errors : List ScopeError) → Prop
  | nil {before : List Step} : Reports before [] []
  | silent {before steps : List Step} {step : Step} {errors : List ScopeError}
      (kept : ∀ e, ¬Violates before step e) (rest : Reports (before ++ [step]) steps errors) :
      Reports before (step :: steps) errors
  | report {before steps : List Step} {step : Step} {error : ScopeError} {errors : List ScopeError}
      (broken : Violates before step error) (only : ∀ e, Violates before step e → e = error)
      (rest : Reports (before ++ [step]) steps errors) :
      Reports before (step :: steps) (error :: errors)

end Walk

/-! ## What is found is what is broken -/

theorem Trail.errors_locate (scopes : Scopes) (id : Nat) (name : String) :
    (scopes.locate id name).errors = [] := by
  unfold Scopes.locate
  split <;> rfl

namespace Trail.Records

variable {t : Trail} {before : List Step}

/-- A declaration in the innermost scope is the last one of its name there exactly when the scope
binds the name to it. -/
theorem latest_iff (h : t.Records before) {inner : Scope} {outer : Scopes}
    (hscopes : t.scopes = inner :: outer) {name : Ident} :
    Latest before name 0 ↔ inner.value? name.name = some ⟨name.span, true⟩ := by
  have hinner : t.scopes[0]? = some inner := congrArg (·[0]?) hscopes
  have hvalue := h.scopes inner 0 hinner name.name ⟨name.span, true⟩
  exact ⟨fun hlast => hvalue.mpr ⟨rfl, hlast⟩, fun hfound => (hvalue.mp hfound).2⟩

theorem not_local (h : t.Records before) (hscopes : t.scopes = []) : ¬Local before :=
  fun hlocal => h.local_iff.mp hlocal hscopes

theorem local_of_cons (h : t.Records before) {inner : Scope} {outer : Scopes}
    (hscopes : t.scopes = inner :: outer) : Local before := by
  rw [h.local_iff, hscopes]
  exact List.cons_ne_nil inner outer

theorem mem_errors_redeclaration (h : t.Records before) {new : Ident} {e : ScopeError} :
    e ∈ (t.scopes.redeclaration new).errors ↔ Violates before (.declare new) e := by
  cases hscopes : t.scopes with
  | nil =>
      -- Among the globals a name may be declared again.
      have hglobal : ¬Local before := h.not_local hscopes
      constructor
      · nofun
      · intro hviolates
        cases hviolates with
        | redeclared inside last same => exact absurd inside hglobal
  | cons inner outer =>
      have hlocal : Local before := h.local_of_cons hscopes
      cases hvalue : inner.value? new.name with
      | none =>
          simp only [Scopes.redeclaration, hvalue]
          constructor
          · nofun
          · intro hviolates
            cases hviolates with
            | redeclared inside last same =>
                rw [h.latest_iff hscopes, same, hvalue] at last
                cases last
      | some value =>
          have hinner : t.scopes[0]? = some inner := congrArg (·[0]?) hscopes
          have hlast : Latest before ⟨new.name, value.span⟩ 0 :=
            ((h.scopes inner 0 hinner new.name value).mp hvalue).2
          simp only [Scopes.redeclaration, hvalue]
          constructor
          · intro he
            rw [List.mem_singleton.mp he]
            exact .redeclared hlocal hlast rfl
          · intro hviolates
            cases hviolates with
            | @redeclared old _ inside last same =>
                rw [h.latest_iff hscopes, same, hvalue] at last
                cases last
                rw [← same]
                exact List.mem_singleton.mpr rfl

theorem mem_errors_premature (h : t.Records before) {node : Node} {name : String}
    {initialized : Option Ident} {e : ScopeError} :
    e ∈ (t.scopes.premature initialized ⟨name, node.span⟩).errors ↔
      Violates before (.use ⟨node, .read name⟩ initialized) e := by
  cases hscopes : t.scopes with
  | nil =>
      have hglobal : ¬Local before := h.not_local hscopes
      constructor
      · nofun
      · intro hviolates
        cases hviolates with
        | ownInitializer inside same => exact absurd inside hglobal
  | cons inner outer =>
      have hlocal : Local before := h.local_of_cons hscopes
      cases initialized with
      | none =>
          constructor
          · nofun
          · intro hviolates
            cases hviolates
      | some declared =>
          simp only [Scopes.premature]
          constructor
          · intro he
            split at he
            · rename_i same
              rw [List.mem_singleton.mp he]
              exact .ownInitializer hlocal same
            · cases he
          · intro hviolates
            cases hviolates with
            | ownInitializer inside same =>
                rw [if_pos same]
                exact List.mem_singleton.mpr rfl

theorem routine_none (h : t.Records before) : (Context.within t.regions).routine = .none ↔
    ∀ region d, Encloses before region d → region.routine? = none := by
  rw [← h.findSome?_eq_none_iff, Context.within]
  cases hroutine : t.regions.findSome? Region.routine? with
  | none =>
      simp
  | some routine =>
      rcases List.exists_of_findSome?_eq_some hroutine with ⟨region, -, hregion⟩
      cases region <;> cases hregion <;> simp

theorem routine_initializer (h : t.Records before) :
    (Context.within t.regions).routine = .initializer ↔
      Innermost Region.routine? before .initializer := by
  rw [← h.findSome?_eq_some_iff, Context.within]
  cases t.regions.findSome? Region.routine? <;> simp

theorem class_none (h : t.Records before) : (Context.within t.regions).cls = .none ↔
    ∀ region d, Encloses before region d → region.class? = none := by
  rw [← h.findSome?_eq_none_iff, Context.within]
  cases hclass : t.regions.findSome? Region.class? with
  | none =>
      simp
  | some cls =>
      rcases List.exists_of_findSome?_eq_some hclass with ⟨region, -, hregion⟩
      cases region <;> cases hregion <;> simp

theorem class_root (h : t.Records before) : (Context.within t.regions).cls = .root ↔
    Innermost Region.class? before .root := by
  rw [← h.findSome?_eq_some_iff, Context.within]
  cases t.regions.findSome? Region.class? <;> simp

theorem mem_errors_return (h : t.Records before) {keyword : Span} {hasValue : Bool}
    {e : ScopeError} : e ∈ (t.found (.return keyword hasValue)).errors ↔
      Violates before (.return keyword hasValue) e := by
  simp only [found]
  constructor
  · intro he
    split at he
    · rename_i houtside
      rw [List.mem_singleton.mp he]
      exact .returnOutside (h.routine_none.mp houtside)
    · rename_i hinside
      rw [List.mem_singleton.mp he]
      exact .returnValue (h.routine_initializer.mp hinside)
    · cases he
  · intro hviolates
    cases hviolates with
    | returnOutside outside =>
        rw [h.routine_none.mpr outside]
        exact List.mem_singleton.mpr rfl
    | returnValue inside =>
        rw [h.routine_initializer.mpr inside]
        exact List.mem_singleton.mpr rfl

theorem mem_errors_inherit (t : Trail) {name parent : Ident} {e : ScopeError} :
    e ∈ (t.found (.inherit name parent)).errors ↔ Violates before (.inherit name parent) e := by
  simp only [found]
  constructor
  · intro he
    split at he
    · rename_i same
      rw [List.mem_singleton.mp he]
      exact .inheritsItself same
    · cases he
  · intro hviolates
    cases hviolates with
    | inheritsItself same =>
        rw [if_pos same]
        exact List.mem_singleton.mpr rfl

theorem mem_errors_this (h : t.Records before) {node : Node} {initialized : Option Ident}
    {e : ScopeError} : e ∈ (t.found (.use ⟨node, .this⟩ initialized)).errors ↔
      Violates before (.use ⟨node, .this⟩ initialized) e := by
  simp only [found]
  constructor
  · intro he
    split at he
    · rename_i houtside
      rw [List.mem_singleton.mp he]
      exact .thisOutside (h.class_none.mp houtside)
    · rw [errors_locate] at he
      cases he
  · intro hviolates
    cases hviolates with
    | thisOutside outside =>
        rw [h.class_none.mpr outside]
        exact List.mem_singleton.mpr rfl

theorem mem_errors_super (h : t.Records before) {node : Node} {method : String}
    {initialized : Option Ident} {e : ScopeError} :
    e ∈ (t.found (.use ⟨node, .super method⟩ initialized)).errors ↔
      Violates before (.use ⟨node, .super method⟩ initialized) e := by
  simp only [found, Findings.errors_append, errors_locate, List.append_nil]
  constructor
  · intro he
    split at he
    · rename_i houtside
      rw [List.mem_singleton.mp he]
      exact .superOutside (h.class_none.mp houtside)
    · rename_i hinside
      rw [List.mem_singleton.mp he]
      exact .superWithout (h.class_root.mp hinside)
    · cases he
  · intro hviolates
    cases hviolates with
    | superOutside outside =>
        rw [h.class_none.mpr outside]
        exact List.mem_singleton.mpr rfl
    | superWithout inside =>
        rw [h.class_root.mpr inside]
        exact List.mem_singleton.mpr rfl

theorem not_violates_enter {region : Region} {e : ScopeError} :
    ¬Violates before (.enter region) e := by
  intro hviolates
  cases hviolates

theorem not_violates_leave {e : ScopeError} : ¬Violates before .leave e := by
  intro hviolates
  cases hviolates

theorem not_violates_assign {node : Node} {name : String} {initialized : Option Ident}
    {e : ScopeError} : ¬Violates before (.use ⟨node, .assign name⟩ initialized) e := by
  intro hviolates
  cases hviolates

/-- What is found at a step is what the step breaks. -/
theorem mem_errors_found (h : t.Records before) {step : Step} {e : ScopeError} :
    e ∈ (t.found step).errors ↔ Violates before step e := by
  cases step with
  | enter region =>
      exact iff_of_false List.not_mem_nil not_violates_enter
  | leave =>
      exact iff_of_false List.not_mem_nil not_violates_leave
  | declare new =>
      exact h.mem_errors_redeclaration
  | inherit name parent =>
      exact mem_errors_inherit t
  | «return» keyword hasValue =>
      exact h.mem_errors_return
  | use u initialized =>
      rcases u with ⟨node, kind⟩
      cases kind with
      | read name =>
          rw [found, Findings.errors_append, errors_locate, List.append_nil]
          exact h.mem_errors_premature
      | assign name =>
          rw [found, errors_locate]
          exact iff_of_false List.not_mem_nil not_violates_assign
      | this =>
          exact h.mem_errors_this
      | super method =>
          exact h.mem_errors_super

end Trail.Records

/-- There is at most one violation among findings. -/
def Findings.AtMostOne (f : Findings) : Prop :=
  f.errors = [] ∨ ∃ e, f.errors = [e]

namespace Findings.AtMostOne

theorem none : AtMostOne .none :=
  .inl rfl

theorem error (cause : ScopeCause) (span : Span) : AtMostOne (.error cause span) :=
  .inr ⟨_, rfl⟩

/-- The distance of a reference is no violation. -/
theorem locate_after {f : Findings} (h : f.AtMostOne) {scopes : Scopes} (id : Nat)
    (name : String) : (f ++ scopes.locate id name).AtMostOne := by
  unfold AtMostOne
  rw [errors_append, Trail.errors_locate, List.append_nil]
  exact h

end Findings.AtMostOne

namespace Trail

/-- At most one violation is found at a step. -/
theorem atMostOne_found (t : Trail) (step : Step) : (t.found step).AtMostOne := by
  cases step with
  | enter region =>
      exact .none
  | leave =>
      exact .none
  | declare new =>
      simp only [found, Scopes.redeclaration]
      split
      · exact .none
      · split
        · exact .error _ _
        · exact .none
  | inherit name parent =>
      simp only [found]
      split
      · exact .error _ _
      · exact .none
  | «return» keyword hasValue =>
      simp only [found]
      split
      · exact .error _ _
      · exact .error _ _
      · exact .none
  | use u initialized =>
      rcases u with ⟨node, kind⟩
      cases kind with
      | read name =>
          refine .locate_after ?_ node.id name
          unfold Scopes.premature
          split
          · split
            · exact .error _ _
            · exact .none
          · exact .none
      | assign name =>
          exact .locate_after .none node.id name
      | this =>
          simp only [found]
          split
          · exact .error _ _
          · exact .locate_after .none node.id thisName
      | super method =>
          refine .locate_after ?_ node.id superName
          split
          · exact .error _ _
          · exact .error _ _
          · exact .none

/-- Along the steps after a place the violations of their rules are found. -/
theorem reports_findings (before steps : List Step) :
    Reports before steps ((run ⟨[], []⟩ before).findings steps).errors := by
  induction steps generalizing before with
  | nil =>
      exact .nil
  | cons step steps ih =>
      have hrecords : (run ⟨[], []⟩ before).Records before := records_run before
      -- The place moves with the walk: what comes after the step is reported from behind it.
      have hrest : Reports (before ++ [step]) steps
          (((run ⟨[], []⟩ before).advance step).findings steps).errors := by
        have hafter := ih (before ++ [step])
        rw [run_append] at hafter
        exact hafter
      rw [findings, Findings.errors_append]
      rcases atMostOne_found (run ⟨[], []⟩ before) step with hnone | ⟨error, hone⟩
      · rw [hnone]
        refine .silent ?_ hrest
        intro e hviolates
        rw [← hrecords.mem_errors_found, hnone] at hviolates
        cases hviolates
      · rw [hone]
        refine .report ?_ ?_ hrest
        · rw [← hrecords.mem_errors_found, hone]
          exact List.mem_singleton.mpr rfl
        · intro e hviolates
          rw [← hrecords.mem_errors_found, hone] at hviolates
          exact List.mem_singleton.mp hviolates

end Trail

/-! ## Programs -/

namespace Walk

/-- No rule is broken at any of the steps after a place. -/
def Keeps (before steps : List Step) : Prop :=
  ∀ earlier step later, steps = earlier ++ step :: later →
    ∀ e, ¬Violates (before ++ earlier) step e

theorem keeps_nil {before : List Step} : Keeps before [] := by
  intro earlier step later heq
  exact absurd heq.symm (by simp)

theorem keeps_cons {before steps : List Step} {step : Step} :
    Keeps before (step :: steps) ↔
      (∀ e, ¬Violates before step e) ∧ Keeps (before ++ [step]) steps := by
  constructor
  · intro h
    refine ⟨?_, ?_⟩
    · have hfirst := h [] step steps rfl
      rw [List.append_nil] at hfirst
      exact hfirst
    · intro earlier other later heq
      rw [List.append_assoc]
      exact h (step :: earlier) other later (congrArg (step :: ·) heq)
  · rintro ⟨hfirst, hrest⟩ earlier other later heq
    cases earlier with
    | nil =>
        cases heq
        rw [List.append_nil]
        exact hfirst
    | cons first earlier =>
        cases heq
        have hother := hrest earlier other later rfl
        rw [List.append_assoc] at hother
        exact hother

/-- There is nothing to report exactly when no rule is broken. -/
theorem Reports.eq_nil_iff {before steps : List Step} {errors : List ScopeError}
    (h : Reports before steps errors) : errors = [] ↔ Keeps before steps := by
  induction h with
  | nil =>
      exact iff_of_true rfl keeps_nil
  | silent kept rest ih =>
      rw [keeps_cons, ih]
      exact (and_iff_right kept).symm
  | report broken only rest ih =>
      rw [keeps_cons]
      refine iff_of_false (List.cons_ne_nil _ _) ?_
      rintro ⟨hfirst, -⟩
      exact hfirst _ broken

end Walk

namespace Stmt

/-- What resolution finds in a program reports the rules that are broken along its walk. -/
theorem reports_programFindings (ss : List Stmt) :
    Reports [] (walkAll ss) (programFindings ss).errors := by
  rw [programFindings_eq]
  exact Trail.reports_findings [] (walkAll ss)

theorem errors_eq_nil_iff (ss : List Stmt) :
    (programFindings ss).errors = [] ↔ Keeps [] (walkAll ss) :=
  (reports_programFindings ss).eq_nil_iff

end Stmt

/-- Resolution accepts exactly the programs that keep the scope rules. For any other program it gives
one error for each violation, in the order of the walk, and no others. -/
theorem resolveProgram_keeps_rules (ss : List Stmt) :
    ((∃ locals, resolveProgram ss = .ok locals) ↔ Keeps [] (Stmt.walkAll ss)) ∧
      ∀ errors, resolveProgram ss = .error errors → Reports [] (Stmt.walkAll ss) errors := by
  refine ⟨?_, ?_⟩
  · rw [← Stmt.errors_eq_nil_iff]
    constructor
    · rintro ⟨locals, hok⟩
      exact (resolveProgram_ok hok).1
    · intro hnone
      cases hresolve : resolveProgram ss with
      | ok locals =>
          exact ⟨locals, rfl⟩
      | error errors =>
          rcases resolveProgram_error hresolve with ⟨rfl, hsome⟩
          exact absurd hnone hsome
  · intro errors herror
    rw [(resolveProgram_error herror).1]
    exact Stmt.reports_programFindings ss

/-- A variable that is read in its own initializer, and a `return` outside every function. -/
def twoViolations : List Stmt :=
  [.block [.var ⟨"a", ⟨6, 1⟩⟩ (some (.var ⟨0, ⟨"a", ⟨10, 1⟩⟩⟩))], .return ⟨15, 6⟩ none]

theorem resolveProgram_keeps_rules_twoViolations :
    resolveProgram twoViolations =
        .error [⟨.ownInitializer ⟨"a", ⟨6, 1⟩⟩ ⟨"a", ⟨10, 1⟩⟩, ⟨10, 1⟩⟩,
          ⟨.returnOutsideFunction, ⟨15, 6⟩⟩] ∧
      Reports [] (Stmt.walkAll twoViolations)
        [⟨.ownInitializer ⟨"a", ⟨6, 1⟩⟩ ⟨"a", ⟨10, 1⟩⟩, ⟨10, 1⟩⟩,
          ⟨.returnOutsideFunction, ⟨15, 6⟩⟩] := by
  have hresolve : resolveProgram twoViolations =
      .error [⟨.ownInitializer ⟨"a", ⟨6, 1⟩⟩ ⟨"a", ⟨10, 1⟩⟩, ⟨10, 1⟩⟩,
        ⟨.returnOutsideFunction, ⟨15, 6⟩⟩] := rfl
  exact ⟨hresolve, (resolveProgram_keeps_rules twoViolations).2 _ hresolve⟩

end Lox
