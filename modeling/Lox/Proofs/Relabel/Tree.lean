import Lox.Proofs.Syntax.Parts
import Mathlib.Logic.Basic

/-!
# Trees with other numbers and places

A program cannot see the numbers of its expressions, nor where they stand, nor what was printed before
it ran. `Relabel` is a change of these three, and `relabel` carries it out on trees.

Main statements: `Stmt.relabelAll_congr` says that only the numbers of the expressions in a tree
matter, and `Stmt.relabelAll_relabelAll` that one change after another is a change.
-/

namespace Lox

/-- Other numbers and places for expressions, and lines that count as printed before, the latest
first. -/
structure Relabel where
  number : Nat → Nat
  place : Span → Span
  before : List String

namespace Relabel

/-- Lines that count as printed before, and no other change. -/
def printing (before : List String) : Relabel :=
  ⟨id, id, before⟩

/-- One change and then another. -/
def andThen (f g : Relabel) : Relabel :=
  ⟨g.number ∘ f.number, g.place ∘ f.place, f.before ++ g.before⟩

/-- Two changes give the same numbers and places to expressions. -/
structure Agree (f g : Relabel) (es : List Expr) : Prop where
  number : ∀ e ∈ es, f.number e.number = g.number e.number
  place : f.place = g.place

namespace Agree

variable {f g : Relabel} {e : Expr} {es fs : List Expr}

theorem left (h : Agree f g (es ++ fs)) : Agree f g es :=
  ⟨fun e he => h.number e (List.mem_append_left _ he), h.place⟩

theorem right (h : Agree f g (es ++ fs)) : Agree f g fs :=
  ⟨fun e he => h.number e (List.mem_append_right _ he), h.place⟩

theorem self (h : Agree f g [e]) : f.number e.number = g.number e.number :=
  h.number e List.mem_cons_self

/-- Changes that agree on all numbers below a bound agree on what was read with such numbers. -/
theorem of_fresh {low high : Nat} (hfresh : Fresh low high (es.map Expr.number))
    (hnumber : ∀ n < high, f.number n = g.number n) (hplace : f.place = g.place) :
    Agree f g es := by
  refine ⟨?_, hplace⟩
  intro e he
  apply hnumber
  exact (hfresh.2 e.number (List.mem_map_of_mem he)).2

theorem of_mem (h : Agree f g (es.flatMap Expr.parts)) (he : e ∈ es) : Agree f g e.parts :=
  ⟨fun e' he' => h.number e' (List.mem_flatMap.mpr ⟨e, he, he'⟩), h.place⟩

end Agree

end Relabel

variable {f g : Relabel}

/-! ## Names and tokens -/

def Ident.relabel (f : Relabel) (i : Ident) : Ident :=
  ⟨i.name, f.place i.span⟩

def Node.relabel (f : Relabel) (n : Node) : Node :=
  ⟨f.number n.id, f.place n.span⟩

def Reference.relabel (f : Relabel) (r : Reference) : Reference :=
  ⟨f.number r.id, r.name.relabel f⟩

def Token.relabel (f : Relabel) (t : Token) : Token :=
  ⟨t.kind, f.place t.span, t.lexeme⟩

@[simp] theorem Ident.relabel_name (i : Ident) : (i.relabel f).name = i.name :=
  rfl

@[simp] theorem Ident.relabel_printing (before : List String) (i : Ident) :
    i.relabel (.printing before) = i :=
  rfl

@[simp] theorem Ident.relabel_relabel (i : Ident) :
    (i.relabel f).relabel g = i.relabel (f.andThen g) :=
  rfl

theorem Ident.relabel_congr (i : Ident) (h : f.place = g.place) : i.relabel f = i.relabel g := by
  simp [Ident.relabel, h]

theorem Node.relabel_congr (n : Node) (hnumber : f.number n.id = g.number n.id)
    (hplace : f.place = g.place) : n.relabel f = n.relabel g := by
  simp [Node.relabel, hnumber, hplace]

theorem Reference.relabel_congr (r : Reference) (hnumber : f.number r.id = g.number r.id)
    (hplace : f.place = g.place) : r.relabel f = r.relabel g := by
  simp [Reference.relabel, hnumber, r.name.relabel_congr hplace]

/-! ## Expressions -/

namespace Expr

mutual

/-- An expression with other numbers and places. -/
def relabel (f : Relabel) : Expr → Expr
  | .literal node value => .literal (node.relabel f) value
  | .group node inner => .group (node.relabel f) (relabel f inner)
  | .unary node op operand => .unary (node.relabel f) op (relabel f operand)
  | .binary node op left right => .binary (node.relabel f) op (relabel f left) (relabel f right)
  | .logical node op left right => .logical (node.relabel f) op (relabel f left) (relabel f right)
  | .var target => .var (target.relabel f)
  | .assign target value => .assign (target.relabel f) (relabel f value)
  | .call node callee arguments => .call (node.relabel f) (relabel f callee) (relabelAll f arguments)
  | .get id object name => .get (f.number id) (relabel f object) (name.relabel f)
  | .set id object name value =>
      .set (f.number id) (relabel f object) (name.relabel f) (relabel f value)
  | .this node => .this (node.relabel f)
  | .super node method => .super (node.relabel f) (method.relabel f)

/-- Expressions with other numbers and places. -/
def relabelAll (f : Relabel) : List Expr → List Expr
  | [] => []
  | e :: es => relabel f e :: relabelAll f es

end

mutual

theorem relabel_congr : (e : Expr) → f.Agree g e.parts → e.relabel f = e.relabel g
  | .literal node value, h => by
      simp only [relabel, node.relabel_congr h.self h.place]
  | .group node inner, h => by
      simp only [relabel, relabel_congr inner h.left, node.relabel_congr h.right.self h.place]
  | .unary node op operand, h => by
      simp only [relabel, relabel_congr operand h.left, node.relabel_congr h.right.self h.place]
  | .binary node op left right, h => by
      simp only [relabel, relabel_congr left h.left.left, relabel_congr right h.left.right,
        node.relabel_congr h.right.self h.place]
  | .logical node op left right, h => by
      simp only [relabel, relabel_congr left h.left.left, relabel_congr right h.left.right,
        node.relabel_congr h.right.self h.place]
  | .var target, h => by
      simp only [relabel, target.relabel_congr h.self h.place]
  | .assign target value, h => by
      simp only [relabel, relabel_congr value h.left, target.relabel_congr h.right.self h.place]
  | .call node callee arguments, h => by
      simp only [relabel, relabel_congr callee h.left.left, relabelAll_congr arguments h.left.right,
        node.relabel_congr h.right.self h.place]
  | .get id object name, h => by
      simp only [relabel, relabel_congr object h.left, name.relabel_congr h.place]
      exact congrArg (Expr.get · _ _) h.right.self
  | .set id object name value, h => by
      simp only [relabel, relabel_congr value h.left.left, relabel_congr object h.left.right,
        name.relabel_congr h.place]
      exact congrArg (Expr.set · _ _ _) h.right.self
  | .this node, h => by
      simp only [relabel, node.relabel_congr h.self h.place]
  | .super node method, h => by
      simp only [relabel, node.relabel_congr h.self h.place, method.relabel_congr h.place]

theorem relabelAll_congr : (es : List Expr) → f.Agree g (partsAll es) →
    relabelAll f es = relabelAll g es
  | [], _ => rfl
  | e :: es, h => by
      simp only [relabelAll, relabel_congr e h.left, relabelAll_congr es h.right]

end

mutual

theorem relabel_printing (before : List String) : (e : Expr) → e.relabel (.printing before) = e
  | .literal _ _ | .var _ | .this _ | .super _ _ => rfl
  | .group node inner => congrArg (Expr.group node) (relabel_printing before inner)
  | .unary node op operand => congrArg (Expr.unary node op) (relabel_printing before operand)
  | .binary node op left right =>
      congrArg₂ (Expr.binary node op) (relabel_printing before left) (relabel_printing before right)
  | .logical node op left right =>
      congrArg₂ (Expr.logical node op) (relabel_printing before left)
        (relabel_printing before right)
  | .assign target value => congrArg (Expr.assign target) (relabel_printing before value)
  | .call node callee arguments =>
      congrArg₂ (Expr.call node) (relabel_printing before callee)
        (relabelAll_printing before arguments)
  | .get id object name => congrArg (Expr.get id · name) (relabel_printing before object)
  | .set id object name value =>
      congrArg₂ (Expr.set id · name ·) (relabel_printing before object)
        (relabel_printing before value)

theorem relabelAll_printing (before : List String) :
    (es : List Expr) → relabelAll (.printing before) es = es
  | [] => rfl
  | e :: es => congrArg₂ List.cons (relabel_printing before e) (relabelAll_printing before es)

end

mutual

theorem relabel_relabel : (e : Expr) → (e.relabel f).relabel g = e.relabel (f.andThen g)
  | .literal _ _ | .var _ | .this _ | .super _ _ => rfl
  | .group _ inner => congrArg (Expr.group _) (relabel_relabel inner)
  | .unary _ op operand => congrArg (Expr.unary _ op) (relabel_relabel operand)
  | .binary _ op left right =>
      congrArg₂ (Expr.binary _ op) (relabel_relabel left) (relabel_relabel right)
  | .logical _ op left right =>
      congrArg₂ (Expr.logical _ op) (relabel_relabel left) (relabel_relabel right)
  | .assign _ value => congrArg (Expr.assign _) (relabel_relabel value)
  | .call _ callee arguments =>
      congrArg₂ (Expr.call _) (relabel_relabel callee) (relabelAll_relabelAll arguments)
  | .get _ object _ => congrArg (Expr.get _ · _) (relabel_relabel object)
  | .set _ object _ value =>
      congrArg₂ (Expr.set _ · _ ·) (relabel_relabel object) (relabel_relabel value)

theorem relabelAll_relabelAll :
    (es : List Expr) → relabelAll g (relabelAll f es) = relabelAll (f.andThen g) es
  | [] => rfl
  | e :: es => congrArg₂ List.cons (relabel_relabel e) (relabelAll_relabelAll es)

end

end Expr

/-! ## Statements -/

namespace Stmt

mutual

/-- A statement with other numbers and places. -/
def relabel (f : Relabel) : Stmt → Stmt
  | .expression value => .expression (value.relabel f)
  | .print value => .print (value.relabel f)
  | .var name initial => .var (name.relabel f) (initial.map (Expr.relabel f))
  | .block body => .block (relabelAll f body)
  | .ifElse condition consequent alternative =>
      .ifElse (condition.relabel f) (relabel f consequent) (relabelOption f alternative)
  | .while condition body => .while (condition.relabel f) (relabel f body)
  | .function decl => .function (relabelRoutine f decl)
  | .return keyword value => .return (f.place keyword) (value.map (Expr.relabel f))
  | .class name parent methods =>
      .class (name.relabel f) (parent.map (Reference.relabel f)) (relabelMethods f methods)

/-- Statements with other numbers and places. -/
def relabelAll (f : Relabel) : List Stmt → List Stmt
  | [] => []
  | s :: ss => relabel f s :: relabelAll f ss

/-- A statement, which may be missing, with other numbers and places. -/
def relabelOption (f : Relabel) : Option Stmt → Option Stmt
  | none => none
  | some s => some (relabel f s)

/-- A function with other numbers and places. -/
def relabelRoutine (f : Relabel) : Routine Stmt → Routine Stmt
  | ⟨name, parameters, body⟩ =>
      ⟨name.relabel f, parameters.map (Ident.relabel f), relabelAll f body⟩

/-- Methods with other numbers and places. -/
def relabelMethods (f : Relabel) : List (Routine Stmt) → List (Routine Stmt)
  | [] => []
  | method :: methods => relabelRoutine f method :: relabelMethods f methods

end

theorem relabelOption_eq (s? : Option Stmt) : relabelOption f s? = s?.map (relabel f) := by
  cases s? <;> rfl

theorem relabelMethods_eq (methods : List (Routine Stmt)) :
    relabelMethods f methods = methods.map (relabelRoutine f) := by
  induction methods with
  | nil =>
      rfl
  | cons method methods ih =>
      simp [relabelMethods, ih]

@[simp] theorem relabelRoutine_name (r : Routine Stmt) :
    (relabelRoutine f r).name = r.name.relabel f := by
  cases r
  rfl

@[simp] theorem relabelRoutine_parameters (r : Routine Stmt) :
    (relabelRoutine f r).parameters = r.parameters.map (Ident.relabel f) := by
  cases r
  rfl

@[simp] theorem relabelRoutine_body (r : Routine Stmt) :
    (relabelRoutine f r).body = relabelAll f r.body := by
  cases r
  rfl

/-! ### One change and another -/

theorem map_relabel_congr {e? : Option Expr} (h : f.Agree g (e?.toList.flatMap Expr.parts)) :
    e?.map (Expr.relabel f) = e?.map (Expr.relabel g) := by
  cases e? with
  | none =>
      rfl
  | some e =>
      have he : f.Agree g e.parts := h.of_mem (by simp)
      simp [Expr.relabel_congr e he]

theorem map_relabel_reference_congr {r? : Option Reference}
    (h : f.Agree g ((r?.map Expr.var).toList.flatMap Expr.parts)) :
    r?.map (Reference.relabel f) = r?.map (Reference.relabel g) := by
  cases r? with
  | none =>
      rfl
  | some r =>
      have hr : f.Agree g (Expr.var r).parts := h.of_mem (by simp)
      simp [r.relabel_congr hr.self h.place]

theorem map_relabel_ident_congr (h : f.place = g.place) (is : List Ident) :
    is.map (Ident.relabel f) = is.map (Ident.relabel g) := by
  apply List.map_congr_left
  intro i _
  exact i.relabel_congr h

mutual

theorem relabel_congr : (s : Stmt) → f.Agree g (expressions s.parts) → s.relabel f = s.relabel g
  | .expression value, h => by
      rw [parts, expressions_cons] at h
      simp only [relabel, Expr.relabel_congr value (h.left.of_mem List.mem_cons_self)]
  | .print value, h => by
      rw [parts, expressions_cons] at h
      simp only [relabel, Expr.relabel_congr value (h.left.of_mem List.mem_cons_self)]
  | .var name initial, h => by
      rw [parts, expressions_cons] at h
      simp only [relabel, map_relabel_congr h.left, name.relabel_congr h.place]
  | .block body, h => by
      rw [parts, expressions_cons] at h
      simp only [relabel, relabelAll_congr body h.right]
  | .ifElse condition consequent alternative, h => by
      rw [parts, expressions_cons, expressions_append] at h
      simp only [relabel, Expr.relabel_congr condition (h.left.of_mem List.mem_cons_self),
        relabel_congr consequent h.right.left, relabelOption_congr alternative h.right.right]
  | .while condition body, h => by
      rw [parts, expressions_cons] at h
      simp only [relabel, Expr.relabel_congr condition (h.left.of_mem List.mem_cons_self),
        relabel_congr body h.right]
  | .function decl, h => by
      rw [parts, expressions_cons] at h
      simp only [relabel, relabelRoutine_congr decl h.right]
  | .return keyword value, h => by
      rw [parts, expressions_cons] at h
      simp only [relabel, map_relabel_congr h.left, h.place]
  | .class name parent methods, h => by
      rw [parts, expressions_cons] at h
      simp only [relabel, map_relabel_reference_congr h.left, relabelMethods_congr methods h.right,
        name.relabel_congr h.place]

theorem relabelAll_congr : (ss : List Stmt) → f.Agree g (expressions (partsAll ss)) →
    relabelAll f ss = relabelAll g ss
  | [], _ => rfl
  | s :: ss, h => by
      rw [partsAll, expressions_append] at h
      simp only [relabelAll, relabel_congr s h.left, relabelAll_congr ss h.right]

theorem relabelOption_congr : (s? : Option Stmt) → f.Agree g (expressions (partsOption s?)) →
    relabelOption f s? = relabelOption g s?
  | none, _ => rfl
  | some s, h => congrArg some (relabel_congr s h)

theorem relabelRoutine_congr : (r : Routine Stmt) → f.Agree g (expressions (partsRoutine r)) →
    relabelRoutine f r = relabelRoutine g r
  | ⟨name, parameters, body⟩, h => by
      simp only [relabelRoutine, relabelAll_congr body h, name.relabel_congr h.place,
        map_relabel_ident_congr h.place]

theorem relabelMethods_congr : (methods : List (Routine Stmt)) →
    f.Agree g (expressions (partsMethods methods)) →
      relabelMethods f methods = relabelMethods g methods
  | [], _ => rfl
  | method :: methods, h => by
      rw [partsMethods, expressions_append] at h
      simp only [relabelMethods, relabelRoutine_congr method h.left,
        relabelMethods_congr methods h.right]

end

/-! ### No change -/

theorem map_relabel_printing (before : List String) (e? : Option Expr) :
    e?.map (Expr.relabel (.printing before)) = e? := by
  cases e? with
  | none =>
      rfl
  | some e =>
      exact congrArg some (e.relabel_printing before)

theorem map_relabel_reference_printing (before : List String) (r? : Option Reference) :
    r?.map (Reference.relabel (.printing before)) = r? := by
  cases r? <;> rfl

theorem map_relabel_ident_printing (before : List String) (is : List Ident) :
    is.map (Ident.relabel (.printing before)) = is :=
  List.map_id is

mutual

theorem relabel_printing (before : List String) : (s : Stmt) → s.relabel (.printing before) = s
  | .expression value => congrArg Stmt.expression (value.relabel_printing before)
  | .print value => congrArg Stmt.print (value.relabel_printing before)
  | .var name initial => congrArg (Stmt.var name) (map_relabel_printing before initial)
  | .block body => congrArg Stmt.block (relabelAll_printing before body)
  | .ifElse condition consequent alternative => by
      simp only [relabel, condition.relabel_printing before, relabel_printing before consequent,
        relabelOption_printing before alternative]
  | .while condition body =>
      congrArg₂ Stmt.while (condition.relabel_printing before) (relabel_printing before body)
  | .function decl => congrArg Stmt.function (relabelRoutine_printing before decl)
  | .return keyword value => congrArg (Stmt.return keyword) (map_relabel_printing before value)
  | .class name parent methods =>
      congrArg₂ (Stmt.class name) (map_relabel_reference_printing before parent)
        (relabelMethods_printing before methods)

theorem relabelAll_printing (before : List String) :
    (ss : List Stmt) → relabelAll (.printing before) ss = ss
  | [] => rfl
  | s :: ss => congrArg₂ List.cons (relabel_printing before s) (relabelAll_printing before ss)

theorem relabelOption_printing (before : List String) :
    (s? : Option Stmt) → relabelOption (.printing before) s? = s?
  | none => rfl
  | some s => congrArg some (relabel_printing before s)

theorem relabelRoutine_printing (before : List String) :
    (r : Routine Stmt) → relabelRoutine (.printing before) r = r
  | ⟨name, parameters, body⟩ =>
      congrArg₂ (Routine.mk name) (map_relabel_ident_printing before parameters)
        (relabelAll_printing before body)

theorem relabelMethods_printing (before : List String) :
    (methods : List (Routine Stmt)) → relabelMethods (.printing before) methods = methods
  | [] => rfl
  | method :: methods =>
      congrArg₂ List.cons (relabelRoutine_printing before method)
        (relabelMethods_printing before methods)

end

/-! ### One change after another -/

theorem map_relabel_map_relabel (e? : Option Expr) :
    (e?.map (Expr.relabel f)).map (Expr.relabel g) = e?.map (Expr.relabel (f.andThen g)) := by
  cases e? with
  | none =>
      rfl
  | some e =>
      exact congrArg some e.relabel_relabel

mutual

theorem relabel_relabel : (s : Stmt) → (s.relabel f).relabel g = s.relabel (f.andThen g)
  | .expression value => congrArg Stmt.expression value.relabel_relabel
  | .print value => congrArg Stmt.print value.relabel_relabel
  | .var _ initial => congrArg (Stmt.var _) (map_relabel_map_relabel initial)
  | .block body => congrArg Stmt.block (relabelAll_relabelAll body)
  | .ifElse condition consequent alternative => by
      simp only [relabel, condition.relabel_relabel, relabel_relabel consequent,
        relabelOption_relabelOption alternative]
  | .while condition body => congrArg₂ Stmt.while condition.relabel_relabel (relabel_relabel body)
  | .function decl => congrArg Stmt.function (relabelRoutine_relabelRoutine decl)
  | .return _ value => congrArg (Stmt.return _) (map_relabel_map_relabel value)
  | .class _ parent methods =>
      congrArg₂ (Stmt.class _) (Option.map_map ..) (relabelMethods_relabelMethods methods)

theorem relabelAll_relabelAll :
    (ss : List Stmt) → relabelAll g (relabelAll f ss) = relabelAll (f.andThen g) ss
  | [] => rfl
  | s :: ss => congrArg₂ List.cons (relabel_relabel s) (relabelAll_relabelAll ss)

theorem relabelOption_relabelOption :
    (s? : Option Stmt) → relabelOption g (relabelOption f s?) = relabelOption (f.andThen g) s?
  | none => rfl
  | some s => congrArg some (relabel_relabel s)

theorem relabelRoutine_relabelRoutine :
    (r : Routine Stmt) → relabelRoutine g (relabelRoutine f r) = relabelRoutine (f.andThen g) r
  | ⟨_, _, body⟩ => congrArg₂ (Routine.mk _) (List.map_map ..) (relabelAll_relabelAll body)

theorem relabelMethods_relabelMethods : (methods : List (Routine Stmt)) →
    relabelMethods g (relabelMethods f methods) = relabelMethods (f.andThen g) methods
  | [] => rfl
  | method :: methods =>
      congrArg₂ List.cons (relabelRoutine_relabelRoutine method)
        (relabelMethods_relabelMethods methods)

end

end Stmt

end Lox
