import Lox.Proofs.Scope.Program

/-!
# What stands in a method itself

The statements of a routine without those in the methods of classes that are declared in it. Where
resolution visits their expressions, the scope that binds `this` for the routine is the nearest one
that binds `this`.

Main statement: `Stmt.within_visitsRoutine`.
-/

namespace Lox

namespace Stmt

mutual

/-- The statements that a statement is made of, those in functions included, but not those in methods
of classes. -/
def own : Stmt → List Stmt
  | .expression value => [.expression value]
  | .print value => [.print value]
  | .var name initial => [.var name initial]
  | .block body => .block body :: ownAll body
  | .ifElse condition consequent alternative =>
      .ifElse condition consequent alternative :: (own consequent ++ ownOption alternative)
  | .while condition body => .while condition body :: own body
  | .function decl => .function decl :: ownRoutine decl
  | .return keyword value => [.return keyword value]
  | .class name parent methods => [.class name parent methods]

/-- The statements that statements are made of, without those in methods. -/
def ownAll : List Stmt → List Stmt
  | [] => []
  | s :: ss => own s ++ ownAll ss

/-- The statements that a statement which may be missing is made of, without those in methods. -/
def ownOption : Option Stmt → List Stmt
  | none => []
  | some s => own s

/-- The statements that the body of a function is made of, without those in methods of classes that
it declares. -/
def ownRoutine : Routine Stmt → List Stmt
  | ⟨_, _, body⟩ => ownAll body

end

end Stmt

/-- An expression stands in a routine, and in no class that is declared in it. -/
def FunctionDecl.Owns (r : FunctionDecl) (e : Expr) : Prop :=
  e ∈ Stmt.expressions (Stmt.ownRoutine r)

namespace Scopes

/-- Scopes inside others, at least one, and none of them binds `this`. -/
def Within (base scopes : Scopes) : Prop :=
  ∃ scope inner, scopes = scope :: inner ++ base ∧ ∀ other ∈ scope :: inner, other.value? thisName = none

variable {base scopes : Scopes} {name : Ident}

theorem within_enter_self (base : Scopes) : Within base ([] :: base) := by
  refine ⟨[], [], rfl, ?_⟩
  intro other hother
  rw [List.mem_singleton] at hother
  rw [hother]
  rfl

namespace Within

theorem enter (h : Within base scopes) : Within base ([] :: scopes) := by
  rcases h with ⟨scope, inner, rfl, hthis⟩
  refine ⟨[], scope :: inner, rfl, ?_⟩
  intro other hother
  rcases List.mem_cons.mp hother with rfl | hother
  · rfl
  · exact hthis other hother

/-- Only the innermost scope changes, and the name that is put there is not `this`. -/
theorem put {scopes' : Scopes} {declared : Declared} (h : Within base scopes) (hname : name.IsWord)
    (hput : ∀ scope outer, scopes = scope :: outer →
      scopes' = scope.put name.name declared :: outer) : Within base scopes' := by
  rcases h with ⟨scope, inner, heq, hthis⟩
  refine ⟨_, inner, hput scope (inner ++ base) heq, ?_⟩
  intro other hother
  rcases List.mem_cons.mp hother with rfl | hother
  · rw [Bindings.value?_put_of_ne _ _ hname.ne_this]
    exact hthis scope List.mem_cons_self
  · exact hthis other (List.mem_cons_of_mem _ hother)

theorem define (h : Within base scopes) (hname : name.IsWord) :
    Within base (scopes.define name) := by
  refine @put _ _ _ _ ⟨name.span, true⟩ h hname ?_
  rintro scope outer rfl
  rfl

theorem declare (h : Within base scopes) (hname : name.IsWord) :
    Within base (scopes.declare name) := by
  refine @put _ _ _ _ ⟨name.span, false⟩ h hname ?_
  rintro scope outer rfl
  rfl

theorem defineAll {names : List Ident} (hnames : ∀ i ∈ names, i.IsWord) :
    ∀ {scopes : Scopes}, Within base scopes → Within base (scopes.defineAll names) := by
  induction names with
  | nil =>
      intro scopes h
      exact h
  | cons name names ih =>
      intro scopes h
      exact ih (fun i hi => hnames i (List.mem_cons_of_mem _ hi))
        (h.define (hnames name List.mem_cons_self))

theorem extend {s : Stmt} (h : Within base scopes) (hsound : Stmt.Sound s.parts) :
    Within base (s.extend scopes) := by
  rw [Stmt.extend_of_plain scopes s hsound.plain]
  cases hdeclares : s.declares? with
  | none => exact h
  | some name =>
      exact h.define (hsound.words s (Stmt.mem_parts_self s) name
        (Stmt.mem_idents_of_declares? hdeclares))

/-- `this` is bound in the first of the scopes around. -/
theorem distance?_this {span : Span} (h : Within (single thisName span :: base) scopes) :
    ∃ near, scopes.distance? thisName = some near ∧
      scopes.length = near + (single thisName span :: base).length := by
  rcases h with ⟨scope, inner, rfl, hthis⟩
  refine ⟨(scope :: inner).length, ?_, List.length_append⟩
  generalize scope :: inner = around at hthis
  induction around with
  | nil => rfl
  | cons scope around ih =>
      have hnone := hthis scope List.mem_cons_self
      have hothers := ih fun other hother => hthis other (List.mem_cons_of_mem _ hother)
      rw [List.cons_append, distance?, hnone, hothers]
      rfl

end Within

end Scopes

namespace Stmt

variable {owner : Option ClassDecl} {base scopes : Scopes}

/-- An expression is visited in scopes inside others. -/
def VisitedWithin (base : Scopes) (owner : Option ClassDecl) (visits : List Visit) (e : Expr) :
    Prop :=
  ∃ scopes, Scopes.Within base scopes ∧ (⟨e, owner, scopes⟩ : Visit) ∈ visits

theorem VisitedWithin.mono {visits visits' : List Visit} {e : Expr}
    (h : VisitedWithin base owner visits e) (hsub : visits ⊆ visits') :
    VisitedWithin base owner visits' e := by
  rcases h with ⟨scopes, hwithin, hmem⟩
  exact ⟨scopes, hwithin, hsub hmem⟩

theorem within_visits_expr (h : Scopes.Within base scopes) {e part : Expr} (hpart : part ∈ e.parts) :
    VisitedWithin base owner (e.visits owner scopes) part :=
  ⟨scopes, h, List.mem_map_of_mem hpart⟩

theorem within_visitsOption_expr (h : Scopes.Within base scopes) {e? : Option Expr} {part : Expr}
    (hpart : part ∈ e?.toList.flatMap Expr.parts) :
    VisitedWithin base owner (Expr.visitsOption owner scopes e?) part := by
  cases e? with
  | none => cases hpart
  | some e =>
      rw [Option.toList_some, List.flatMap_singleton] at hpart
      exact within_visits_expr h hpart

mutual

theorem within_visits {scopes : Scopes} (h : Scopes.Within base scopes) :
    (s : Stmt) → Sound s.parts → ∀ e ∈ expressions s.own,
      VisitedWithin base owner (s.visits owner scopes) e
  | .expression value, _, e, he =>
      within_visits_expr h (by simpa [own, operands] using he)
  | .print value, _, e, he =>
      within_visits_expr h (by simpa [own, operands] using he)
  | .var name initial, hsound, e, he => by
      have hname : name.IsWord := hsound.words _ (mem_parts_self _) name (by simp [idents])
      exact within_visitsOption_expr (h.declare hname) (by simpa [own, operands] using he)
  | .block body, hsound, e, he =>
      within_visitsAll h.enter body hsound.tail e (by simpa [own, operands] using he)
  | .ifElse condition consequent alternative, hsound, e, he => by
      rw [own, expressions_cons, expressions_append, List.mem_append, List.mem_append] at he
      rw [visits]
      rcases he with he | he | he
      · refine (within_visits_expr h (by simpa [operands] using he)).mono ?_
        exact List.subset_append_of_subset_left _ (List.subset_append_left _ _)
      · refine (within_visits h consequent hsound.tail.left e he).mono ?_
        exact List.subset_append_of_subset_left _ (List.subset_append_right _ _)
      · refine (within_visitsOption (h.extend hsound.tail.left) alternative hsound.tail.right e
          he).mono ?_
        exact List.subset_append_right _ _
  | .while condition body, hsound, e, he => by
      rw [own, expressions_cons, List.mem_append] at he
      rw [visits]
      rcases he with he | he
      · refine (within_visits_expr h (by simpa [operands] using he)).mono ?_
        exact List.subset_append_left _ _
      · refine (within_visits h body hsound.tail e he).mono ?_
        exact List.subset_append_right _ _
  | .function decl, hsound, e, he => by
      have hidents := hsound.words _ (mem_parts_self _)
      have hname : decl.name.IsWord := hidents decl.name (by simp [idents, routineIdents])
      have hparameters : ∀ i ∈ decl.parameters, i.IsWord :=
        fun i hi => hidents i (List.mem_cons_of_mem _ hi)
      exact within_visitsRoutine (h.define hname).enter decl hparameters hsound.tail e
        (by simpa [own, operands] using he)
  | .return _ value, _, e, he =>
      within_visitsOption_expr h (by simpa [own, operands] using he)
  | .class name parent methods, hsound, e, he => by
      have hname : name.IsWord := hsound.words _ (mem_parts_self _) name (by simp [idents])
      have he' : e ∈ (parent.map Expr.var).toList.flatMap Expr.parts := by
        simpa [own, operands] using he
      exact (within_visitsOption_expr (h.define hname) he').mono (List.subset_append_left _ _)

theorem within_visitsAll {scopes : Scopes} (h : Scopes.Within base scopes) :
    (ss : List Stmt) → Sound (partsAll ss) → ∀ e ∈ expressions (ownAll ss),
      VisitedWithin base owner (visitsAll owner scopes ss) e
  | [], _, _, he => nomatch he
  | s :: ss, hsound, e, he => by
      rw [ownAll, expressions_append, List.mem_append] at he
      rw [visitsAll]
      rcases he with he | he
      · exact (within_visits h s hsound.left e he).mono (List.subset_append_left _ _)
      · exact (within_visitsAll (h.extend hsound.left) ss hsound.right e he).mono
          (List.subset_append_right _ _)

theorem within_visitsOption {scopes : Scopes} (h : Scopes.Within base scopes) :
    (s? : Option Stmt) → Sound (partsOption s?) → ∀ e ∈ expressions (ownOption s?),
      VisitedWithin base owner (visitsOption owner scopes s?) e
  | none, _, _, he => nomatch he
  | some s, hsound, e, he => within_visits h s hsound e he

theorem within_visitsRoutine {scopes : Scopes} (h : Scopes.Within base ([] :: scopes)) :
    (r : Routine Stmt) → (∀ i ∈ r.parameters, i.IsWord) → Sound (partsRoutine r) →
      ∀ e ∈ expressions (ownRoutine r), VisitedWithin base owner (visitsRoutine owner scopes r) e
  | ⟨_, _, body⟩, hparameters, hsound, e, he =>
      within_visitsAll (h.defineAll hparameters) body hsound e he

end

end Stmt

end Lox
