import Lox.Proofs.Syntax.Parts

/-!
# What stands directly in a tree

The operands of an expression and the statements directly inside a statement. Both are smaller than
what they stand in, which is what an induction along evaluation needs.

`Stmt.Hereditary` says that a property passes from a statement to those inside it;
`Stmt.hereditary_loopFree` is the instance for statements without loops. `Stmt.here` leaves out the
statements of functions and methods, which are executed in other calls.
-/

namespace Lox

namespace Expr

/-- The expressions directly inside an expression, in the order of evaluation. -/
def operands : Expr → List Expr
  | .literal _ _ => []
  | .group _ inner => [inner]
  | .unary _ _ operand => [operand]
  | .binary _ _ left right => [left, right]
  | .logical _ _ left right => [left, right]
  | .var _ => []
  | .assign _ value => [value]
  | .call _ callee arguments => callee :: arguments
  | .get _ object _ => [object]
  | .set _ object _ value => [object, value]
  | .this _ => []
  | .super _ _ => []

theorem sizeOf_lt_of_mem_operands {e part : Expr} (h : part ∈ e.operands) :
    sizeOf part < sizeOf e := by
  cases e with
  | call node callee arguments =>
      rcases List.mem_cons.mp h with rfl | h
      · simp only [call.sizeOf_spec]
        omega
      · have hlt := List.sizeOf_lt_of_mem h
        simp only [call.sizeOf_spec]
        omega
  | group | unary | assign | get =>
      rw [operands, List.mem_singleton] at h
      subst h
      decreasing_tactic
  | binary | logical | set =>
      simp only [operands, List.mem_cons, List.not_mem_nil, or_false] at h
      rcases h with rfl | rfl
      · decreasing_tactic
      · decreasing_tactic
  | literal | var | this | super =>
      cases h

theorem parts_subset_of_mem_operands {e part : Expr} (h : part ∈ e.operands) :
    part.parts ⊆ e.parts := by
  cases e with
  | call node callee arguments =>
      refine List.subset_append_of_subset_left _ ?_
      rcases List.mem_cons.mp h with rfl | h
      · exact List.subset_append_left _ _
      · exact List.subset_append_of_subset_right _ (parts_subset_partsAll h)
  | group | unary | assign | get =>
      cases List.mem_singleton.mp h
      exact List.subset_append_left _ _
  | binary | logical =>
      refine List.subset_append_of_subset_left _ ?_
      simp only [operands, List.mem_cons, List.not_mem_nil, or_false] at h
      rcases h with rfl | rfl
      · exact List.subset_append_left _ _
      · exact List.subset_append_right _ _
  | set =>
      refine List.subset_append_of_subset_left _ ?_
      simp only [operands, List.mem_cons, List.not_mem_nil, or_false] at h
      rcases h with rfl | rfl
      · exact List.subset_append_right _ _
      · exact List.subset_append_left _ _
  | literal | var | this | super =>
      cases h

end Expr

namespace Stmt

/-- The statements directly inside a statement, those of functions and methods included. -/
def inner : Stmt → List Stmt
  | .expression _ => []
  | .print _ => []
  | .var _ _ => []
  | .block body => body
  | .ifElse _ consequent alternative => consequent :: alternative.toList
  | .while _ body => [body]
  | .function decl => decl.body
  | .return _ _ => []
  | .class _ _ methods => methods.flatMap Routine.body

theorem sizeOf_lt_of_mem_body {decl : FunctionDecl} {t : Stmt} (h : t ∈ decl.body) :
    sizeOf t < sizeOf decl := by
  rcases decl with ⟨name, parameters, body⟩
  have hlt : sizeOf t < sizeOf body := List.sizeOf_lt_of_mem h
  simp only [Routine.mk.sizeOf_spec]
  omega

theorem sizeOf_lt_of_mem_inner {s t : Stmt} (h : t ∈ s.inner) : sizeOf t < sizeOf s := by
  cases s with
  | block body =>
      have hlt : sizeOf t < sizeOf body := List.sizeOf_lt_of_mem h
      simp only [block.sizeOf_spec]
      omega
  | ifElse condition consequent alternative =>
      rcases List.mem_cons.mp h with rfl | h
      · simp only [ifElse.sizeOf_spec]
        omega
      · rw [Option.mem_toList] at h
        subst h
        simp only [ifElse.sizeOf_spec, Option.some.sizeOf_spec]
        omega
  | «while» condition body =>
      rw [inner, List.mem_singleton] at h
      subst h
      simp only [while.sizeOf_spec]
      omega
  | function decl =>
      have hlt := sizeOf_lt_of_mem_body h
      simp only [function.sizeOf_spec]
      omega
  | «class» name parent methods =>
      rcases List.mem_flatMap.mp h with ⟨method, hmethod, ht⟩
      have hmethod' := List.sizeOf_lt_of_mem hmethod
      have hlt := sizeOf_lt_of_mem_body ht
      simp only [class.sizeOf_spec]
      omega
  | _ =>
      cases h

/-! ## Inherited properties -/

theorem parts_subset_partsAll {ss : List Stmt} {t : Stmt} (h : t ∈ ss) :
    t.parts ⊆ partsAll ss := by
  induction ss with
  | nil =>
      cases h
  | cons s ss ih =>
      rw [partsAll]
      rcases List.mem_cons.mp h with rfl | h
      · exact List.subset_append_left _ _
      · exact List.subset_append_of_subset_right _ (ih h)

theorem parts_subset_partsMethods {methods : List FunctionDecl} {method : FunctionDecl} {t : Stmt}
    (hmethod : method ∈ methods) (h : t ∈ method.body) : t.parts ⊆ partsMethods methods := by
  induction methods with
  | nil =>
      cases hmethod
  | cons first methods ih =>
      rw [partsMethods]
      rcases List.mem_cons.mp hmethod with rfl | hmethod
      · rw [partsRoutine_eq]
        exact List.subset_append_of_subset_left _ (parts_subset_partsAll h)
      · exact List.subset_append_of_subset_right _ (ih hmethod)

theorem parts_subset_of_mem_inner {s t : Stmt} (h : t ∈ s.inner) : t.parts ⊆ s.parts := by
  cases s with
  | block body =>
      exact List.subset_cons_of_subset _ (parts_subset_partsAll h)
  | ifElse condition consequent alternative =>
      refine List.subset_cons_of_subset _ ?_
      rcases List.mem_cons.mp h with rfl | h
      · exact List.subset_append_left _ _
      · rw [Option.mem_toList] at h
        subst h
        exact List.subset_append_right _ _
  | «while» condition body =>
      rw [inner, List.mem_singleton] at h
      subst h
      exact List.subset_cons_self _ _
  | function decl =>
      rw [parts, partsRoutine_eq]
      exact List.subset_cons_of_subset _ (parts_subset_partsAll h)
  | «class» name parent methods =>
      rcases List.mem_flatMap.mp h with ⟨method, hmethod, ht⟩
      exact List.subset_cons_of_subset _ (parts_subset_partsMethods hmethod ht)
  | _ =>
      cases h

theorem exists_of_mem_partsAll {ss : List Stmt} {t : Stmt} (h : t ∈ partsAll ss) :
    ∃ s ∈ ss, t ∈ s.parts := by
  induction ss with
  | nil => cases h
  | cons s ss ih =>
      rcases List.mem_append.mp h with h | h
      · exact ⟨s, List.mem_cons_self, h⟩
      · rcases ih h with ⟨other, hother, ht⟩
        exact ⟨other, List.mem_cons_of_mem _ hother, ht⟩

theorem exists_of_mem_partsMethods {methods : List FunctionDecl} {t : Stmt}
    (h : t ∈ partsMethods methods) : ∃ s ∈ methods.flatMap Routine.body, t ∈ s.parts := by
  induction methods with
  | nil => cases h
  | cons method methods ih =>
      rw [List.flatMap_cons]
      rcases List.mem_append.mp h with h | h
      · rw [partsRoutine_eq] at h
        rcases exists_of_mem_partsAll h with ⟨s, hs, ht⟩
        exact ⟨s, List.mem_append_left _ hs, ht⟩
      · rcases ih h with ⟨s, hs, ht⟩
        exact ⟨s, List.mem_append_right _ hs, ht⟩

/-- What a statement is made of is the statement itself, or stands in one directly inside it. -/
theorem eq_or_exists_of_mem_parts {s t : Stmt} (h : t ∈ s.parts) :
    t = s ∨ ∃ u ∈ s.inner, t ∈ u.parts := by
  cases s with
  | block body =>
      exact (List.mem_cons.mp h).imp_right exists_of_mem_partsAll
  | ifElse condition consequent alternative =>
      refine (List.mem_cons.mp h).imp_right fun h => ?_
      rcases List.mem_append.mp h with h | h
      · exact ⟨consequent, List.mem_cons_self, h⟩
      · cases alternative with
        | none => cases h
        | some other => exact ⟨other, List.mem_cons_of_mem _ List.mem_cons_self, h⟩
  | «while» condition body =>
      exact (List.mem_cons.mp h).imp_right fun h => ⟨body, List.mem_cons_self, h⟩
  | function decl =>
      refine (List.mem_cons.mp h).imp_right fun h => ?_
      rw [partsRoutine_eq] at h
      exact exists_of_mem_partsAll h
  | «class» name parent methods =>
      exact (List.mem_cons.mp h).imp_right exists_of_mem_partsMethods
  | _ =>
      exact .inl (List.mem_singleton.mp h)

theorem parts_subset_of_mem_parts {s t : Stmt} (h : t ∈ s.parts) : t.parts ⊆ s.parts := by
  rcases eq_or_exists_of_mem_parts h with rfl | ⟨u, hu, ht⟩
  · exact List.Subset.refl _
  · have hlt : sizeOf u < sizeOf s := sizeOf_lt_of_mem_inner hu
    exact List.Subset.trans (parts_subset_of_mem_parts ht) (parts_subset_of_mem_inner hu)
termination_by sizeOf s

/-- What stands in a statement of a program stands in the program. -/
theorem mem_partsAll_of_mem_inner {ss : List Stmt} {s t : Stmt} (hs : s ∈ partsAll ss)
    (ht : t ∈ s.inner) : t ∈ partsAll ss := by
  rcases exists_of_mem_partsAll hs with ⟨first, hfirst, hs⟩
  have ht' : t ∈ s.parts := parts_subset_of_mem_inner ht t.mem_parts_self
  exact parts_subset_partsAll hfirst (parts_subset_of_mem_parts hs ht')

/-- A property that passes from a statement to those inside it. -/
def Hereditary (P : Stmt → Prop) : Prop :=
  ∀ s t, P s → t ∈ s.inner → P t

/-- There is no loop in a statement. -/
def LoopFree (s : Stmt) : Prop :=
  ∀ condition body, .while condition body ∉ s.parts

theorem hereditary_loopFree : Hereditary LoopFree :=
  fun _ _ hs ht condition body hmem => hs condition body (parts_subset_of_mem_inner ht hmem)

/-! ## Statements of one call -/

mutual

/-- The statements that a statement is made of, without those in functions and methods. It comes first
itself. -/
def here : Stmt → List Stmt
  | .expression value => [.expression value]
  | .print value => [.print value]
  | .var name initial => [.var name initial]
  | .block body => .block body :: hereAll body
  | .ifElse condition consequent alternative =>
      .ifElse condition consequent alternative :: (here consequent ++ hereOption alternative)
  | .while condition body => .while condition body :: here body
  | .function decl => [.function decl]
  | .return keyword value => [.return keyword value]
  | .class name parent methods => [.class name parent methods]

/-- The statements that statements are made of, without those in functions and methods. -/
def hereAll : List Stmt → List Stmt
  | [] => []
  | s :: ss => here s ++ hereAll ss

/-- The statements that a statement which may be missing is made of, without those in functions and
methods. -/
def hereOption : Option Stmt → List Stmt
  | none => []
  | some s => here s

end

/-- The statements directly inside a statement that are executed in the same call. -/
def branches : Stmt → List Stmt
  | .block body => body
  | .ifElse _ consequent alternative => consequent :: alternative.toList
  | .while _ body => [body]
  | _ => []

theorem branches_subset_inner (s : Stmt) : s.branches ⊆ s.inner := by
  cases s with
  | block | ifElse | «while» => exact List.Subset.refl _
  | _ => exact List.nil_subset _

theorem here_subset_hereAll {s : Stmt} {ss : List Stmt} (h : s ∈ ss) : s.here ⊆ hereAll ss := by
  induction ss with
  | nil => cases h
  | cons other ss ih =>
      rw [hereAll]
      rcases List.mem_cons.mp h with rfl | h
      · exact List.subset_append_left _ _
      · exact List.subset_append_of_subset_right _ (ih h)

theorem here_subset_of_mem_branches {s t : Stmt} (h : t ∈ s.branches) : t.here ⊆ s.here := by
  cases s with
  | block body =>
      exact List.subset_cons_of_subset _ (here_subset_hereAll h)
  | ifElse condition consequent alternative =>
      refine List.subset_cons_of_subset _ ?_
      rcases List.mem_cons.mp h with rfl | h
      · exact List.subset_append_left _ _
      · rw [Option.mem_toList] at h
        subst h
        exact List.subset_append_right _ _
  | «while» condition body =>
      rw [branches, List.mem_singleton] at h
      subst h
      exact List.subset_cons_self _ _
  | _ => cases h

end Stmt

end Lox
