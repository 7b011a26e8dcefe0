import Lox.Proofs.Syntax.Parts
import Mathlib.Logic.Basic

/-!
# Trees with other names for variables

A renaming gives other names to variables and parameters where they are declared, and to references.
The names of functions, classes and properties stay, and so do all numbers and places.

Main statements: `Stmt.renameAll_renameAll` says that one renaming after another is a renaming, and
`Stmt.renameAll_eq_self` that nothing changes where every name is kept.
-/

namespace Lox

/-- Other names for variables: one for each declaration of a variable or a parameter, and one for each
reference. -/
structure Renaming where
  declared : Ident → String
  used : Reference → String

variable {ρ σ : Renaming}

def Ident.rename (ρ : Renaming) (i : Ident) : Ident :=
  ⟨ρ.declared i, i.span⟩

def Reference.rename (ρ : Renaming) (r : Reference) : Reference :=
  ⟨r.id, ρ.used r, r.name.span⟩

/-- One renaming and then another. -/
def Renaming.andThen (ρ σ : Renaming) : Renaming :=
  ⟨fun i => σ.declared (i.rename ρ), fun r => σ.used (r.rename ρ)⟩

/-- The reference that an expression is itself. -/
def Expr.reference? : Expr → Option Reference
  | .var target => some target
  | .assign target _ => some target
  | _ => none

/-- The variables that a statement declares itself, and the parameters of the functions it
declares. -/
def Stmt.variables : Stmt → List Ident
  | .var name _ => [name]
  | .function decl => decl.parameters
  | .class _ _ methods => methods.flatMap Routine.parameters
  | _ => []

/-- The names of variables are kept in expressions. -/
def Renaming.Keeps (ρ : Renaming) (es : List Expr) : Prop :=
  ∀ e ∈ es, ∀ r, e.reference? = some r → ρ.used r = r.name.name

/-- The names of variables are kept in statements. -/
structure Renaming.KeepsAll (ρ : Renaming) (ss : List Stmt) : Prop where
  declared : ∀ s ∈ ss, ∀ i ∈ s.variables, ρ.declared i = i.name
  used : ρ.Keeps (Stmt.expressions ss)

namespace Renaming

variable {es fs : List Expr} {s : Stmt} {ss ts : List Stmt}

theorem Keeps.left (h : ρ.Keeps (es ++ fs)) : ρ.Keeps es :=
  fun e he => h e (List.mem_append_left _ he)

theorem Keeps.right (h : ρ.Keeps (es ++ fs)) : ρ.Keeps fs :=
  fun e he => h e (List.mem_append_right _ he)

theorem KeepsAll.left (h : ρ.KeepsAll (ss ++ ts)) : ρ.KeepsAll ss := by
  refine ⟨fun s hs => h.declared s (List.mem_append_left _ hs), ?_⟩
  have hused := h.used
  rw [Stmt.expressions_append] at hused
  exact hused.left

theorem KeepsAll.right (h : ρ.KeepsAll (ss ++ ts)) : ρ.KeepsAll ts := by
  refine ⟨fun s hs => h.declared s (List.mem_append_right _ hs), ?_⟩
  have hused := h.used
  rw [Stmt.expressions_append] at hused
  exact hused.right

theorem KeepsAll.tail (h : ρ.KeepsAll (s :: ss)) : ρ.KeepsAll ss := by
  have happend : ρ.KeepsAll ([s] ++ ss) := h
  exact happend.right

theorem KeepsAll.operand (h : ρ.KeepsAll (s :: ss)) {e : Expr} (he : e ∈ s.operands) :
    ρ.Keeps e.parts := by
  intro part hpart
  refine h.used part ?_
  rw [Stmt.expressions_cons]
  exact List.mem_append_left _ (List.mem_flatMap.mpr ⟨e, he, hpart⟩)

theorem KeepsAll.variable {i : Ident} (h : ρ.KeepsAll (s :: ss)) (hi : i ∈ s.variables) :
    i.rename ρ = i := by
  rw [Ident.rename, h.declared s List.mem_cons_self i hi]

end Renaming

theorem Reference.rename_eq_self {r : Reference} (h : ρ.used r = r.name.name) : r.rename ρ = r := by
  rw [Reference.rename, h]

/-! ## Expressions -/

namespace Expr

mutual

/-- An expression with other names for variables. -/
def rename (ρ : Renaming) : Expr → Expr
  | .literal node value => .literal node value
  | .group node inner => .group node (rename ρ inner)
  | .unary node op operand => .unary node op (rename ρ operand)
  | .binary node op left right => .binary node op (rename ρ left) (rename ρ right)
  | .logical node op left right => .logical node op (rename ρ left) (rename ρ right)
  | .var target => .var (target.rename ρ)
  | .assign target value => .assign (target.rename ρ) (rename ρ value)
  | .call node callee arguments => .call node (rename ρ callee) (renameAll ρ arguments)
  | .get id object name => .get id (rename ρ object) name
  | .set id object name value => .set id (rename ρ object) name (rename ρ value)
  | .this node => .this node
  | .super node method => .super node method

/-- Expressions with other names for variables. -/
def renameAll (ρ : Renaming) : List Expr → List Expr
  | [] => []
  | e :: es => rename ρ e :: renameAll ρ es

end

@[simp] theorem number_rename (e : Expr) : (e.rename ρ).number = e.number := by
  cases e <;> rfl

theorem number_of_reference? {e : Expr} {r : Reference} (h : e.reference? = some r) :
    e.number = r.id := by
  cases e <;> cases h <;> rfl

theorem name_mem_idents {e : Expr} {r : Reference} (h : e.reference? = some r) :
    r.name ∈ e.idents := by
  cases e <;> cases h <;> exact List.mem_cons_self

theorem reference?_rename (e : Expr) :
    (e.rename ρ).reference? = e.reference?.map (Reference.rename ρ) := by
  cases e <;> rfl

mutual

theorem parts_rename : (e : Expr) → (e.rename ρ).parts = e.parts.map (rename ρ)
  | .literal _ _ | .var _ | .this _ | .super _ _ => rfl
  | .group _ inner => by simp [rename, parts, parts_rename inner]
  | .unary _ _ operand => by simp [rename, parts, parts_rename operand]
  | .binary _ _ left right => by simp [rename, parts, parts_rename left, parts_rename right]
  | .logical _ _ left right => by simp [rename, parts, parts_rename left, parts_rename right]
  | .assign _ value => by simp [rename, parts, parts_rename value]
  | .call _ callee arguments => by
      simp [rename, parts, parts_rename callee, partsAll_renameAll arguments]
  | .get _ object _ => by simp [rename, parts, parts_rename object]
  | .set _ object _ value => by simp [rename, parts, parts_rename object, parts_rename value]

theorem partsAll_renameAll :
    (es : List Expr) → partsAll (renameAll ρ es) = (partsAll es).map (rename ρ)
  | [] => rfl
  | e :: es => by simp [renameAll, partsAll, parts_rename e, partsAll_renameAll es]

end

mutual

theorem rename_rename : (e : Expr) → (e.rename ρ).rename σ = e.rename (ρ.andThen σ)
  | .literal _ _ | .var _ | .this _ | .super _ _ => rfl
  | .group node inner => congrArg (Expr.group node) (rename_rename inner)
  | .unary node op operand => congrArg (Expr.unary node op) (rename_rename operand)
  | .binary node op left right =>
      congrArg₂ (Expr.binary node op) (rename_rename left) (rename_rename right)
  | .logical node op left right =>
      congrArg₂ (Expr.logical node op) (rename_rename left) (rename_rename right)
  | .assign _ value => congrArg (Expr.assign _) (rename_rename value)
  | .call node callee arguments =>
      congrArg₂ (Expr.call node) (rename_rename callee) (renameAll_renameAll arguments)
  | .get id object name => congrArg (Expr.get id · name) (rename_rename object)
  | .set id object name value =>
      congrArg₂ (Expr.set id · name ·) (rename_rename object) (rename_rename value)

theorem renameAll_renameAll :
    (es : List Expr) → renameAll σ (renameAll ρ es) = renameAll (ρ.andThen σ) es
  | [] => rfl
  | e :: es => congrArg₂ List.cons (rename_rename e) (renameAll_renameAll es)

end

mutual

theorem rename_eq_self : (e : Expr) → ρ.Keeps e.parts → e.rename ρ = e
  | .literal _ _, _ | .this _, _ | .super _ _, _ => rfl
  | .var target, h => congrArg Expr.var (target.rename_eq_self (h _ List.mem_cons_self _ rfl))
  | .group node inner, h => congrArg (Expr.group node) (rename_eq_self inner h.left)
  | .unary node op operand, h => congrArg (Expr.unary node op) (rename_eq_self operand h.left)
  | .binary node op left right, h =>
      congrArg₂ (Expr.binary node op) (rename_eq_self left h.left.left)
        (rename_eq_self right h.left.right)
  | .logical node op left right, h =>
      congrArg₂ (Expr.logical node op) (rename_eq_self left h.left.left)
        (rename_eq_self right h.left.right)
  | .assign target value, h =>
      congrArg₂ Expr.assign (target.rename_eq_self (h.right _ List.mem_cons_self _ rfl))
        (rename_eq_self value h.left)
  | .call node callee arguments, h =>
      congrArg₂ (Expr.call node) (rename_eq_self callee h.left.left)
        (renameAll_eq_self arguments h.left.right)
  | .get id object name, h => congrArg (Expr.get id · name) (rename_eq_self object h.left)
  | .set id object name value, h =>
      congrArg₂ (Expr.set id · name ·) (rename_eq_self object h.left.right)
        (rename_eq_self value h.left.left)

theorem renameAll_eq_self : (es : List Expr) → ρ.Keeps (partsAll es) → renameAll ρ es = es
  | [], _ => rfl
  | e :: es, h => congrArg₂ List.cons (rename_eq_self e h.left) (renameAll_eq_self es h.right)

end

end Expr

/-! ## Statements -/

namespace Stmt

mutual

/-- A statement with other names for variables. -/
def rename (ρ : Renaming) : Stmt → Stmt
  | .expression value => .expression (value.rename ρ)
  | .print value => .print (value.rename ρ)
  | .var name initial => .var (name.rename ρ) (initial.map (Expr.rename ρ))
  | .block body => .block (renameAll ρ body)
  | .ifElse condition consequent alternative =>
      .ifElse (condition.rename ρ) (rename ρ consequent) (renameOption ρ alternative)
  | .while condition body => .while (condition.rename ρ) (rename ρ body)
  | .function decl => .function (renameRoutine ρ decl)
  | .return keyword value => .return keyword (value.map (Expr.rename ρ))
  | .class name parent methods =>
      .class name (parent.map (Reference.rename ρ)) (renameMethods ρ methods)

/-- Statements with other names for variables. -/
def renameAll (ρ : Renaming) : List Stmt → List Stmt
  | [] => []
  | s :: ss => rename ρ s :: renameAll ρ ss

/-- A statement, which may be missing, with other names for variables. -/
def renameOption (ρ : Renaming) : Option Stmt → Option Stmt
  | none => none
  | some s => some (rename ρ s)

/-- A function with other names for its parameters and the variables in it. -/
def renameRoutine (ρ : Renaming) : Routine Stmt → Routine Stmt
  | ⟨name, parameters, body⟩ => ⟨name, parameters.map (Ident.rename ρ), renameAll ρ body⟩

/-- Methods with other names for their parameters and the variables in them. -/
def renameMethods (ρ : Renaming) : List (Routine Stmt) → List (Routine Stmt)
  | [] => []
  | method :: methods => renameRoutine ρ method :: renameMethods ρ methods

end

theorem renameAll_eq (ss : List Stmt) : renameAll ρ ss = ss.map (rename ρ) := by
  induction ss with
  | nil => rfl
  | cons s ss ih => simp [renameAll, ih]

theorem renameOption_eq (s? : Option Stmt) : renameOption ρ s? = s?.map (rename ρ) := by
  cases s? <;> rfl

theorem renameMethods_eq (methods : List (Routine Stmt)) :
    renameMethods ρ methods = methods.map (renameRoutine ρ) := by
  induction methods with
  | nil => rfl
  | cons method methods ih => simp [renameMethods, ih]

@[simp] theorem renameRoutine_name (r : Routine Stmt) : (renameRoutine ρ r).name = r.name := by
  cases r
  rfl

@[simp] theorem renameRoutine_parameters (r : Routine Stmt) :
    (renameRoutine ρ r).parameters = r.parameters.map (Ident.rename ρ) := by
  cases r
  rfl

@[simp] theorem renameRoutine_body (r : Routine Stmt) :
    (renameRoutine ρ r).body = renameAll ρ r.body := by
  cases r
  rfl

/-! ### Parts -/

mutual

theorem parts_rename : (s : Stmt) → (s.rename ρ).parts = s.parts.map (rename ρ)
  | .expression _ | .print _ | .var _ _ | .return _ _ => rfl
  | .block body => by simp [rename, parts, partsAll_renameAll body]
  | .ifElse _ consequent alternative => by
      simp [rename, parts, parts_rename consequent, partsOption_renameOption alternative]
  | .while _ body => by simp [rename, parts, parts_rename body]
  | .function decl => by simp [rename, parts, partsRoutine_renameRoutine decl]
  | .class _ _ methods => by simp [rename, parts, partsMethods_renameMethods methods]

theorem partsAll_renameAll :
    (ss : List Stmt) → partsAll (renameAll ρ ss) = (partsAll ss).map (rename ρ)
  | [] => rfl
  | s :: ss => by simp [renameAll, partsAll, parts_rename s, partsAll_renameAll ss]

theorem partsOption_renameOption :
    (s? : Option Stmt) → partsOption (renameOption ρ s?) = (partsOption s?).map (rename ρ)
  | none => rfl
  | some s => parts_rename s

theorem partsRoutine_renameRoutine :
    (r : Routine Stmt) → partsRoutine (renameRoutine ρ r) = (partsRoutine r).map (rename ρ)
  | ⟨_, _, body⟩ => partsAll_renameAll body

theorem partsMethods_renameMethods : (methods : List (Routine Stmt)) →
    partsMethods (renameMethods ρ methods) = (partsMethods methods).map (rename ρ)
  | [] => rfl
  | method :: methods => by
      simp [renameMethods, partsMethods, partsRoutine_renameRoutine method,
        partsMethods_renameMethods methods]

end

theorem operands_rename (s : Stmt) : (s.rename ρ).operands = s.operands.map (Expr.rename ρ) := by
  cases s with
  | var name initial => cases initial <;> rfl
  | «return» keyword value => cases value <;> rfl
  | «class» name parent methods => cases parent <;> rfl
  | _ => rfl

theorem expressions_rename (ss : List Stmt) :
    expressions (ss.map (rename ρ)) = (expressions ss).map (Expr.rename ρ) := by
  have hparts : ∀ es : List Expr, (es.map (Expr.rename ρ)).flatMap Expr.parts =
      (es.flatMap Expr.parts).map (Expr.rename ρ) := by
    intro es
    induction es with
    | nil => rfl
    | cons e es ih => simp [Expr.parts_rename, ih]
  induction ss with
  | nil => rfl
  | cons s ss ih =>
      rw [List.map_cons, expressions_cons, expressions_cons, operands_rename, hparts, ih,
        List.map_append]

/-- What a statement declares stands at the same place, under another name if it is a variable. -/
theorem declares?_rename {s : Stmt} {i : Ident} (h : (s.rename ρ).declares? = some i) :
    ∃ j, s.declares? = some j ∧ (i = j ∨ j ∈ s.variables ∧ i = j.rename ρ) := by
  cases s with
  | var name initial =>
      cases h
      exact ⟨name, rfl, .inr ⟨List.mem_cons_self, rfl⟩⟩
  | function decl =>
      cases h
      exact ⟨decl.name, rfl, .inl (by simp)⟩
  | «class» name parent methods =>
      cases h
      exact ⟨i, rfl, .inl rfl⟩
  | _ =>
      cases h

theorem isNone_declares?_rename (s : Stmt) :
    (s.rename ρ).declares? = none ↔ s.declares? = none := by
  cases s <;> simp [rename, declares?]

theorem branchesPlain_rename {s : Stmt} (h : s.BranchesPlain) : (s.rename ρ).BranchesPlain := by
  cases s with
  | ifElse condition consequent alternative =>
      refine ⟨(isNone_declares?_rename consequent).mpr h.1, ?_⟩
      intro t ht
      rw [renameOption_eq, Option.mem_def, Option.map_eq_some_iff] at ht
      rcases ht with ⟨other, hother, rfl⟩
      exact (isNone_declares?_rename other).mpr (h.2 other hother)
  | «while» condition body =>
      exact (isNone_declares?_rename body).mpr h
  | _ =>
      trivial

/-! ### One renaming and another -/

theorem map_rename_rename (e? : Option Expr) :
    (e?.map (Expr.rename ρ)).map (Expr.rename σ) = e?.map (Expr.rename (ρ.andThen σ)) := by
  cases e? with
  | none => rfl
  | some e => exact congrArg some e.rename_rename

mutual

theorem rename_rename : (s : Stmt) → (s.rename ρ).rename σ = s.rename (ρ.andThen σ)
  | .expression value => congrArg Stmt.expression value.rename_rename
  | .print value => congrArg Stmt.print value.rename_rename
  | .var _ initial => congrArg (Stmt.var _) (map_rename_rename initial)
  | .block body => congrArg Stmt.block (renameAll_renameAll body)
  | .ifElse condition consequent alternative => by
      simp only [rename, condition.rename_rename, rename_rename consequent,
        renameOption_renameOption alternative]
  | .while condition body => congrArg₂ Stmt.while condition.rename_rename (rename_rename body)
  | .function decl => congrArg Stmt.function (renameRoutine_renameRoutine decl)
  | .return keyword value => congrArg (Stmt.return keyword) (map_rename_rename value)
  | .class name parent methods => by
      simp only [rename, Option.map_map, renameMethods_renameMethods methods]
      rfl

theorem renameAll_renameAll :
    (ss : List Stmt) → renameAll σ (renameAll ρ ss) = renameAll (ρ.andThen σ) ss
  | [] => rfl
  | s :: ss => congrArg₂ List.cons (rename_rename s) (renameAll_renameAll ss)

theorem renameOption_renameOption :
    (s? : Option Stmt) → renameOption σ (renameOption ρ s?) = renameOption (ρ.andThen σ) s?
  | none => rfl
  | some s => congrArg some (rename_rename s)

theorem renameRoutine_renameRoutine :
    (r : Routine Stmt) → renameRoutine σ (renameRoutine ρ r) = renameRoutine (ρ.andThen σ) r
  | ⟨_, parameters, body⟩ => by
      simp only [renameRoutine, List.map_map, renameAll_renameAll body]
      rfl

theorem renameMethods_renameMethods : (methods : List (Routine Stmt)) →
    renameMethods σ (renameMethods ρ methods) = renameMethods (ρ.andThen σ) methods
  | [] => rfl
  | method :: methods =>
      congrArg₂ List.cons (renameRoutine_renameRoutine method) (renameMethods_renameMethods methods)

end

/-! ### Names that are kept -/

theorem map_rename_eq_self {e? : Option Expr} (h : ∀ e ∈ e?, ρ.Keeps e.parts) :
    e?.map (Expr.rename ρ) = e? := by
  cases e? with
  | none => rfl
  | some e => exact congrArg some (e.rename_eq_self (h e rfl))

theorem map_rename_ident_eq_self {is : List Ident} (h : ∀ i ∈ is, i.rename ρ = i) :
    is.map (Ident.rename ρ) = is :=
  (List.map_congr_left h).trans (List.map_id is)

mutual

theorem rename_eq_self : (s : Stmt) → ρ.KeepsAll s.parts → s.rename ρ = s
  | .expression value, h =>
      congrArg Stmt.expression (value.rename_eq_self (h.operand List.mem_cons_self))
  | .print value, h => congrArg Stmt.print (value.rename_eq_self (h.operand List.mem_cons_self))
  | .var _ initial, h =>
      congrArg₂ Stmt.var (h.variable List.mem_cons_self)
        (map_rename_eq_self fun _ he => h.operand (Option.mem_toList.mpr he))
  | .block body, h => congrArg Stmt.block (renameAll_eq_self body h.tail)
  | .ifElse condition consequent alternative, h => by
      have hcondition : condition.rename ρ = condition :=
        condition.rename_eq_self (h.operand List.mem_cons_self)
      simp only [rename, hcondition, rename_eq_self consequent h.tail.left,
        renameOption_eq_self alternative h.tail.right]
  | .while condition body, h =>
      congrArg₂ Stmt.while (condition.rename_eq_self (h.operand List.mem_cons_self))
        (rename_eq_self body h.tail)
  | .function decl, h =>
      congrArg Stmt.function (renameRoutine_eq_self decl h.tail fun _ hi => h.variable hi)
  | .return keyword value, h =>
      congrArg (Stmt.return keyword)
        (map_rename_eq_self fun _ he => h.operand (Option.mem_toList.mpr he))
  | .class name parent methods, h => by
      have hparent : parent.map (Reference.rename ρ) = parent := by
        cases parent with
        | none => rfl
        | some parent =>
            have hkeeps : ρ.Keeps (Expr.var parent).parts := h.operand List.mem_cons_self
            exact congrArg some (parent.rename_eq_self (hkeeps _ List.mem_cons_self _ rfl))
      have hmethods : renameMethods ρ methods = methods := by
        refine renameMethods_eq_self methods h.tail ?_
        intro r hr i hi
        exact h.variable (List.mem_flatMap.mpr ⟨r, hr, hi⟩)
      simp only [rename, hparent, hmethods]

theorem renameAll_eq_self : (ss : List Stmt) → ρ.KeepsAll (partsAll ss) → renameAll ρ ss = ss
  | [], _ => rfl
  | s :: ss, h => congrArg₂ List.cons (rename_eq_self s h.left) (renameAll_eq_self ss h.right)

theorem renameOption_eq_self :
    (s? : Option Stmt) → ρ.KeepsAll (partsOption s?) → renameOption ρ s? = s?
  | none, _ => rfl
  | some s, h => congrArg some (rename_eq_self s h)

theorem renameRoutine_eq_self : (r : Routine Stmt) → ρ.KeepsAll (partsRoutine r) →
    (∀ i ∈ r.parameters, i.rename ρ = i) → renameRoutine ρ r = r
  | ⟨name, _, body⟩, h, hparameters =>
      congrArg₂ (Routine.mk name) (map_rename_ident_eq_self hparameters) (renameAll_eq_self body h)

theorem renameMethods_eq_self : (methods : List (Routine Stmt)) →
    ρ.KeepsAll (partsMethods methods) → (∀ r ∈ methods, ∀ i ∈ r.parameters, i.rename ρ = i) →
      renameMethods ρ methods = methods
  | [], _, _ => rfl
  | method :: methods, h, hparameters =>
      congrArg₂ List.cons
        (renameRoutine_eq_self method h.left (hparameters method List.mem_cons_self))
        (renameMethods_eq_self methods h.right fun r hr =>
          hparameters r (List.mem_cons_of_mem _ hr))

end

end Stmt

/-! ## Trees that were read -/

/-- The names that a renaming gives in statements are no reserved words. -/
structure Renaming.Words (ρ : Renaming) (ss : List Stmt) : Prop where
  declared : ∀ s ∈ ss, ∀ i ∈ s.variables, (i.rename ρ).IsWord
  used : ∀ e ∈ Stmt.expressions ss, ∀ r, e.reference? = some r → (r.rename ρ).name.IsWord

theorem Expr.isWord_rename {e : Expr} (hwords : ∀ i ∈ e.idents, i.IsWord)
    (hused : ∀ r, e.reference? = some r → (r.rename ρ).name.IsWord) :
    ∀ i ∈ (e.rename ρ).idents, i.IsWord := by
  intro i hi
  cases e with
  | var target | assign target value =>
      cases List.mem_singleton.mp hi
      exact hused target rfl
  | _ => exact hwords i hi

theorem Stmt.isWord_rename {s : Stmt} (hwords : ∀ i ∈ s.idents, i.IsWord)
    (hdeclared : ∀ i ∈ s.variables, (i.rename ρ).IsWord) : ∀ i ∈ (s.rename ρ).idents, i.IsWord := by
  have hroutine : ∀ r : FunctionDecl, r.name.IsWord → (∀ i ∈ r.parameters, (i.rename ρ).IsWord) →
      ∀ i ∈ routineIdents (renameRoutine ρ r), i.IsWord := by
    intro r hname hparameters i hi
    rw [routineIdents, renameRoutine_name, renameRoutine_parameters] at hi
    rcases List.mem_cons.mp hi with rfl | hi
    · exact hname
    · rcases List.mem_map.mp hi with ⟨j, hj, rfl⟩
      exact hparameters j hj
  intro i hi
  cases s with
  | var name initial =>
      cases List.mem_singleton.mp hi
      exact hdeclared name List.mem_cons_self
  | function decl =>
      exact hroutine decl (hwords _ List.mem_cons_self) hdeclared i hi
  | «class» name parent methods =>
      rw [rename, idents, renameMethods_eq] at hi
      rcases List.mem_cons.mp hi with rfl | hi
      · exact hwords _ List.mem_cons_self
      · rcases List.mem_flatMap.mp hi with ⟨method, hmethod, hi⟩
        rcases List.mem_map.mp hmethod with ⟨r, hr, rfl⟩
        have hname : r.name ∈ methods.flatMap routineIdents :=
          List.mem_flatMap.mpr ⟨r, hr, List.mem_cons_self⟩
        exact hroutine r (hwords _ (List.mem_cons_of_mem _ hname))
          (fun j hj => hdeclared j (List.mem_flatMap.mpr ⟨r, hr, hj⟩)) i hi
  | _ => exact hwords i hi

/-- A program that was read is still as reading gives it. -/
theorem Stmt.readAll_rename {low high : Nat} {ss : List Stmt}
    (h : ReadAll low high (partsAll ss)) (hwords : ρ.Words (partsAll ss)) :
    ReadAll low high (partsAll (renameAll ρ ss)) := by
  rw [partsAll_renameAll]
  refine ⟨⟨?_, ?_⟩, ?_, ?_⟩
  · have hnumbers : (expressions ((partsAll ss).map (rename ρ))).map Expr.number =
        (expressions (partsAll ss)).map Expr.number := by
      rw [expressions_rename, List.map_map]
      exact List.map_congr_left fun e _ => e.number_rename
    rw [hnumbers]
    exact h.expressions.fresh
  · rw [expressions_rename]
    intro e he
    rcases List.mem_map.mp he with ⟨part, hpart, rfl⟩
    exact Expr.isWord_rename (h.expressions.words part hpart) (hwords.used part hpart)
  · intro s hs
    rcases List.mem_map.mp hs with ⟨part, hpart, rfl⟩
    exact isWord_rename (h.words part hpart) (hwords.declared part hpart)
  · intro s hs
    rcases List.mem_map.mp hs with ⟨part, hpart, rfl⟩
    exact branchesPlain_rename (h.plain part hpart)

end Lox
