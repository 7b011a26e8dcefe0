import Lox.Proofs.Scope.Program
import Lox.Proofs.Syntax.Nesting

/-!
# What acceptance says

In a program that violates no scope rule no statement outside all functions holds a `return` outside
them, and no block, no function and no method declares a name twice.

Main statements: `Stmt.no_return_of_accepted` and `Stmt.distinct_of_accepted`.
-/

namespace Lox

namespace Stmt

/-- The name that a statement declares in the scope it stands in. -/
def declared (s : Stmt) : List String :=
  (s.declares?.map Ident.name).toList

/-- The names that statements declare in the scope they stand in. -/
def declaredAll (ss : List Stmt) : List String :=
  ss.flatMap declared

end Stmt

/-- The names that the scope of a function declares: its parameters, and what its body declares. -/
def Routine.locals (r : FunctionDecl) : List String :=
  r.parameters.map Ident.name ++ Stmt.declaredAll r.body

/-- The scopes that a statement opens itself declare no name twice. -/
def Stmt.Distinct : Stmt → Prop
  | .block body => (declaredAll body).Nodup
  | .function decl => decl.locals.Nodup
  | .class _ _ methods => ∀ r ∈ methods, (Routine.locals r).Nodup
  | _ => True

/-! ## Names that follow each other in a scope -/

namespace Scopes

variable {scope : Scope} {outer : Scopes} {name : Ident} {names : List String}

/-- A scope may declare names: they are different and new to it. -/
def Takes (scope : Scope) (names : List String) : Prop :=
  names.Nodup ∧ ∀ name ∈ names, scope.value? name = none

theorem Takes.nil : Takes scope [] :=
  ⟨List.nodup_nil, fun _ hname => nomatch hname⟩

/-- A name is declared that is new, and then others. -/
theorem Takes.cons {declared : Declared} (hnew : scope.value? name.name = none)
    (h : Takes (scope.put name.name declared) names) : Takes scope (name.name :: names) := by
  have hother : ∀ other ∈ names, name.name ≠ other ∧ scope.value? other = none := by
    intro other hmem
    have hnone := h.2 other hmem
    rw [Bindings.value?_put] at hnone
    split at hnone
    · cases hnone
    · rename_i hne
      exact ⟨hne, hnone⟩
  refine ⟨List.nodup_cons.mpr ⟨fun hmem => (hother _ hmem).1 rfl, h.1⟩, ?_⟩
  intro other hmem
  rcases List.mem_cons.mp hmem with rfl | hmem
  · exact hnew
  · exact (hother other hmem).2

theorem new_of_redeclaration (h : (redeclaration (scope :: outer) name).errors = []) :
    scope.value? name.name = none := by
  unfold redeclaration at h
  dsimp only at h
  split at h
  · cases h
  · assumption

end Scopes

theorem Findings.errors_append_eq_nil {f g : Findings} :
    (f ++ g).errors = [] ↔ f.errors = [] ∧ g.errors = [] := by
  rw [errors_append, List.append_eq_nil_iff]

namespace Stmt

open Scopes

variable {context : Context} {scopes : Scopes} {scope : Scope} {outer : Scopes}

/-- A declaration that violates no rule is no redeclaration. -/
theorem redeclaration_of_accepted {s : Stmt} (h : (s.resolve context scopes).errors = [])
    {name : Ident} (hname : s.declares? = some name) : (scopes.redeclaration name).errors = [] := by
  cases s with
  | var | function =>
      cases hname
      exact (Findings.errors_append_eq_nil.mp h).1
  | «class» name parent methods =>
      cases hname
      exact (Findings.errors_append_eq_nil.mp (Findings.errors_append_eq_nil.mp h).1).1
  | _ => cases hname

/-- The names that statements declare in a scope are different, and new to it. -/
theorem takes_declaredAll {ss : List Stmt} : ∀ {scope : Scope},
    (resolveAll context (scope :: outer) ss).errors = [] →
      (∀ t ∈ partsAll ss, t.BranchesPlain) → Takes scope (declaredAll ss) := by
  induction ss with
  | nil =>
      intro scope _ _
      exact .nil
  | cons s ss ih =>
      intro scope h hplain
      rcases Findings.errors_append_eq_nil.mp h with ⟨hfirst, hrest⟩
      rw [extend_of_plain _ s fun t ht => hplain t (List.mem_append_left _ ht)] at hrest
      have hplain' : ∀ t ∈ partsAll ss, t.BranchesPlain :=
        fun t ht => hplain t (List.mem_append_right _ ht)
      change Takes scope (s.declared ++ declaredAll ss)
      cases hname : s.declares? with
      | none =>
          rw [hname] at hrest
          rw [declared, hname]
          exact ih hrest hplain'
      | some name =>
          rw [hname] at hrest
          rw [declared, hname]
          exact .cons (new_of_redeclaration (redeclaration_of_accepted hfirst hname))
            (ih hrest hplain')

/-- The names that a function declares in its scope are different, and new to it. -/
theorem takes_locals {parameters : List Ident} {body : List Stmt} : ∀ {scope : Scope},
    (redeclarations (scope :: outer) parameters).errors = [] →
      (resolveAll context (defineAll (scope :: outer) parameters) body).errors = [] →
        (∀ t ∈ partsAll body, t.BranchesPlain) →
          Takes scope (parameters.map Ident.name ++ declaredAll body) := by
  induction parameters with
  | nil =>
      intro scope _ hbody hplain
      exact takes_declaredAll hbody hplain
  | cons parameter parameters ih =>
      intro scope hnames hbody hplain
      rcases Findings.errors_append_eq_nil.mp hnames with ⟨hfirst, hrest⟩
      exact .cons (new_of_redeclaration hfirst) (ih hrest hbody hplain)

theorem nodup_locals {scopes : Scopes} : {r : FunctionDecl} →
    (resolveRoutine context scopes r).errors = [] → (∀ t ∈ partsRoutine r, t.BranchesPlain) →
      r.locals.Nodup
  | ⟨_, _, _⟩, h, hplain => by
      rcases Findings.errors_append_eq_nil.mp h with ⟨hparameters, hbody⟩
      exact (takes_locals hparameters hbody hplain).1

theorem nodup_locals_of_mem {scopes : Scopes} {methods : List FunctionDecl}
    (h : (resolveMethods context scopes methods).errors = [])
    (hplain : ∀ t ∈ partsMethods methods, t.BranchesPlain) : ∀ r ∈ methods, r.locals.Nodup := by
  induction methods with
  | nil =>
      intro r hr
      cases hr
  | cons method methods ih =>
      intro r hr
      rcases Findings.errors_append_eq_nil.mp h with ⟨hfirst, hrest⟩
      rcases List.mem_cons.mp hr with rfl | hr
      · exact nodup_locals hfirst fun t ht => hplain t (List.mem_append_left _ ht)
      · exact ih hrest (fun t ht => hplain t (List.mem_append_right _ ht)) r hr

/-! ## All scopes of a program -/

mutual

theorem distinct_resolve {context : Context} {scopes : Scopes} : (s : Stmt) →
    (s.resolve context scopes).errors = [] → (∀ t ∈ s.parts, t.BranchesPlain) →
      ∀ t ∈ s.parts, t.Distinct
  | .expression _, _, _, t, ht | .print _, _, _, t, ht | .var _ _, _, _, t, ht
  | .return _ _, _, _, t, ht => by
      cases List.mem_singleton.mp ht
      trivial
  | .block body, h, hplain, t, ht => by
      have hplain' : ∀ t ∈ partsAll body, t.BranchesPlain :=
        fun t ht => hplain t (List.mem_cons_of_mem _ ht)
      rcases List.mem_cons.mp ht with rfl | ht
      · exact (takes_declaredAll h hplain').1
      · exact distinct_resolveAll body h hplain' t ht
  | .ifElse condition consequent alternative, h, hplain, t, ht => by
      rcases Findings.errors_append_eq_nil.mp h with ⟨hbefore, halternative⟩
      have hconsequent := (Findings.errors_append_eq_nil.mp hbefore).2
      rcases List.mem_cons.mp ht with rfl | ht
      · trivial
      rcases List.mem_append.mp ht with ht | ht
      · exact distinct_resolve consequent hconsequent
          (fun t ht => hplain t (List.mem_cons_of_mem _ (List.mem_append_left _ ht))) t ht
      · exact distinct_resolveOption alternative halternative
          (fun t ht => hplain t (List.mem_cons_of_mem _ (List.mem_append_right _ ht))) t ht
  | .while condition body, h, hplain, t, ht => by
      rcases List.mem_cons.mp ht with rfl | ht
      · trivial
      · exact distinct_resolve body (Findings.errors_append_eq_nil.mp h).2
          (fun t ht => hplain t (List.mem_cons_of_mem _ ht)) t ht
  | .function decl, h, hplain, t, ht => by
      have hroutine := (Findings.errors_append_eq_nil.mp h).2
      have hplain' : ∀ t ∈ partsRoutine decl, t.BranchesPlain :=
        fun t ht => hplain t (List.mem_cons_of_mem _ ht)
      rcases List.mem_cons.mp ht with rfl | ht
      · exact nodup_locals hroutine hplain'
      · exact distinct_resolveRoutine decl hroutine hplain' t ht
  | .class name parent methods, h, hplain, t, ht => by
      have hmethods := (Findings.errors_append_eq_nil.mp h).2
      have hplain' : ∀ t ∈ partsMethods methods, t.BranchesPlain :=
        fun t ht => hplain t (List.mem_cons_of_mem _ ht)
      rcases List.mem_cons.mp ht with rfl | ht
      · exact nodup_locals_of_mem hmethods hplain'
      · exact distinct_resolveMethods methods hmethods hplain' t ht

theorem distinct_resolveAll {context : Context} {scopes : Scopes} : (ss : List Stmt) →
    (resolveAll context scopes ss).errors = [] → (∀ t ∈ partsAll ss, t.BranchesPlain) →
      ∀ t ∈ partsAll ss, t.Distinct
  | [], _, _, _, ht => nomatch ht
  | s :: ss, h, hplain, t, ht => by
      rcases Findings.errors_append_eq_nil.mp h with ⟨hfirst, hrest⟩
      rcases List.mem_append.mp ht with ht | ht
      · exact distinct_resolve s hfirst (fun t ht => hplain t (List.mem_append_left _ ht)) t ht
      · exact distinct_resolveAll ss hrest (fun t ht => hplain t (List.mem_append_right _ ht)) t ht

theorem distinct_resolveOption {context : Context} {scopes : Scopes} : (s? : Option Stmt) →
    (resolveOption context scopes s?).errors = [] → (∀ t ∈ partsOption s?, t.BranchesPlain) →
      ∀ t ∈ partsOption s?, t.Distinct
  | none, _, _, _, ht => nomatch ht
  | some s, h, hplain, t, ht => distinct_resolve s h hplain t ht

theorem distinct_resolveRoutine {context : Context} {scopes : Scopes} : (r : Routine Stmt) →
    (resolveRoutine context scopes r).errors = [] → (∀ t ∈ partsRoutine r, t.BranchesPlain) →
      ∀ t ∈ partsRoutine r, t.Distinct
  | ⟨_, _, body⟩, h, hplain, t, ht =>
      distinct_resolveAll body (Findings.errors_append_eq_nil.mp h).2 hplain t ht

theorem distinct_resolveMethods {context : Context} {scopes : Scopes} :
    (methods : List (Routine Stmt)) → (resolveMethods context scopes methods).errors = [] →
      (∀ t ∈ partsMethods methods, t.BranchesPlain) → ∀ t ∈ partsMethods methods, t.Distinct
  | [], _, _, _, ht => nomatch ht
  | method :: methods, h, hplain, t, ht => by
      rcases Findings.errors_append_eq_nil.mp h with ⟨hfirst, hrest⟩
      rcases List.mem_append.mp ht with ht | ht
      · exact distinct_resolveRoutine method hfirst
          (fun t ht => hplain t (List.mem_append_left _ ht)) t ht
      · exact distinct_resolveMethods methods hrest
          (fun t ht => hplain t (List.mem_append_right _ ht)) t ht

end

/-- No scope of a program that violates no rule declares a name twice. -/
theorem distinct_of_accepted {ss : List Stmt} {low high : Nat}
    (hread : ReadAll low high (partsAll ss)) (herrors : (programFindings ss).errors = []) :
    ∀ s ∈ partsAll ss, s.Distinct :=
  distinct_resolveAll ss herrors hread.plain

/-! ## Statements outside functions -/

mutual

theorem no_return_resolve {cls : ClassContext} {scopes : Scopes} : (s : Stmt) →
    (s.resolve ⟨.none, cls⟩ scopes).errors = [] → ∀ keyword value, .return keyword value ∉ s.here
  | .expression _, _, _, _, hmem | .print _, _, _, _, hmem | .var _ _, _, _, _, hmem
  | .function _, _, _, _, hmem | .class _ _ _, _, _, _, hmem => by
      cases List.mem_singleton.mp hmem
  | .return _ _, h, _, _, _ => by
      cases (Findings.errors_append_eq_nil.mp h).1
  | .block body, h, keyword, value, hmem => by
      rcases List.mem_cons.mp hmem with heq | hmem
      · cases heq
      · exact no_return_resolveAll body h keyword value hmem
  | .ifElse condition consequent alternative, h, keyword, value, hmem => by
      rcases Findings.errors_append_eq_nil.mp h with ⟨hbefore, halternative⟩
      rcases List.mem_cons.mp hmem with heq | hmem
      · cases heq
      rcases List.mem_append.mp hmem with hmem | hmem
      · exact no_return_resolve consequent (Findings.errors_append_eq_nil.mp hbefore).2 keyword
          value hmem
      · exact no_return_resolveOption alternative halternative keyword value hmem
  | .while condition body, h, keyword, value, hmem => by
      rcases List.mem_cons.mp hmem with heq | hmem
      · cases heq
      · exact no_return_resolve body (Findings.errors_append_eq_nil.mp h).2 keyword value hmem

theorem no_return_resolveAll {cls : ClassContext} {scopes : Scopes} : (ss : List Stmt) →
    (resolveAll ⟨.none, cls⟩ scopes ss).errors = [] →
      ∀ keyword value, .return keyword value ∉ hereAll ss
  | [], _, _, _, hmem => nomatch hmem
  | s :: ss, h, keyword, value, hmem => by
      rcases Findings.errors_append_eq_nil.mp h with ⟨hfirst, hrest⟩
      rcases List.mem_append.mp hmem with hmem | hmem
      · exact no_return_resolve s hfirst keyword value hmem
      · exact no_return_resolveAll ss hrest keyword value hmem

theorem no_return_resolveOption {cls : ClassContext} {scopes : Scopes} : (s? : Option Stmt) →
    (resolveOption ⟨.none, cls⟩ scopes s?).errors = [] →
      ∀ keyword value, .return keyword value ∉ hereOption s?
  | none, _, _, _, hmem => nomatch hmem
  | some s, h, keyword, value, hmem => no_return_resolve s h keyword value hmem

end

/-- No statement of a program that violates no rule holds a `return` outside all functions. -/
theorem no_return_of_accepted {ss : List Stmt} (h : (programFindings ss).errors = []) {s : Stmt}
    (hs : s ∈ ss) (keyword : Span) (value : Option Expr) : .return keyword value ∉ s.here :=
  fun hmem => no_return_resolveAll ss h keyword value (here_subset_hereAll hs hmem)

end Stmt

end Lox
