import Mathlib.Data.List.Forall2
import Lox.Eval.Outcome

/-!
# Code that runs with one frame less

Two runs are compared of which only the first makes certain frames that bind nothing. A hollow frame
stands between the frame at hand and the frames around it, so every reference that leads beyond it has
a distance that is larger by one than in the second run.

Code parallels other code if both are the same but for the numbers of their expressions, and every
reference leads to frames that stand for each other. No declaration is executed in a hollow frame.
-/

namespace Lox

/-! ## The hollow frame -/

/-- How many frames lie inside the hollow frame, if there is one around. -/
abbrev Hollow := Option Nat

namespace Hollow

variable {α : Type} {k : Hollow} {d : Nat}

/-- The hollow frame as it is seen from one frame further in. -/
def inside (k : Hollow) : Hollow :=
  k.map (· + 1)

/-- A distance when the hollow frame is left out. -/
def skip : Hollow → Nat → Nat
  | none, d => d
  | some i, d => if d < i then d else d - 1

/-- What there is for each frame around, the hollow frame left out. -/
def without : Hollow → List α → List α
  | none, l => l
  | some i, l => l.eraseIdx i

theorem inside_ne_zero (k : Hollow) : k.inside ≠ some 0 := by
  cases k <;> simp [inside]

theorem without_inside (k : Hollow) (a : α) (l : List α) :
    without k.inside (a :: l) = a :: without k l := by
  cases k <;> rfl

theorem getElem?_without (h : k ≠ some d) (l : List α) :
    (without k l)[k.skip d]? = l[d]? := by
  cases k with
  | none => rfl
  | some i =>
      have hne : i ≠ d := fun heq => h (congrArg some heq)
      simp only [without, skip, List.getElem?_eraseIdx]
      split
      · rfl
      · have hlt : ¬d - 1 < i := by omega
        have hsucc : d - 1 + 1 = d := by omega
        rw [if_neg hlt, hsucc]

theorem skip_zero (h : k ≠ some 0) : k.skip 0 = 0 := by
  cases k with
  | none => rfl
  | some i => simp [skip]

/-- The hollow frame is not the one at a distance, so one step further out it is still left out. -/
theorem skip_succ (h : k ≠ some d) (h' : k ≠ some (d + 1)) : k.skip (d + 1) = k.skip d + 1 := by
  cases k with
  | none => rfl
  | some i =>
      have hne : i ≠ d := fun heq => h (congrArg some heq)
      have hne' : i ≠ d + 1 := fun heq => h' (congrArg some heq)
      simp only [skip]
      split <;> split <;> omega

end Hollow

/-! ## Two runs -/

/-- What two runs can read. Only the recorded distances may differ. -/
structure Tracks where
  first : Setting
  locals : Locals

namespace Tracks

/-- What the second run can read. -/
def second (T : Tracks) : Setting :=
  { T.first with locals := T.locals }

/-- Two references lead to frames that stand for each other, or both to the globals. -/
structure Leads (T : Tracks) (k : Hollow) (id id' : Nat) : Prop where
  distance : T.locals.distance? id' = (T.first.locals.distance? id).map k.skip
  apart : ∀ d, T.first.locals.distance? id = some d → k ≠ some d

end Tracks

variable {T : Tracks} {k : Hollow}

/-! ## Expressions -/

/-- The second expression is the first one with other numbers. The instance of a method, which stands
one step nearer than the superclass, is not looked for in the hollow frame either. -/
inductive Expr.Parallels (T : Tracks) (k : Hollow) : Expr → Expr → Prop
  | literal {id id' : Nat} {span : Span} {value : Literal} :
      Parallels T k (.literal ⟨id, span⟩ value) (.literal ⟨id', span⟩ value)
  | group {id id' : Nat} {span : Span} {inner inner' : Expr} :
      Parallels T k inner inner' →
        Parallels T k (.group ⟨id, span⟩ inner) (.group ⟨id', span⟩ inner')
  | unary {id id' : Nat} {span : Span} {op : UnaryOp} {operand operand' : Expr} :
      Parallels T k operand operand' →
        Parallels T k (.unary ⟨id, span⟩ op operand) (.unary ⟨id', span⟩ op operand')
  | binary {id id' : Nat} {span : Span} {op : BinaryOp} {left left' right right' : Expr} :
      Parallels T k left left' → Parallels T k right right' →
        Parallels T k (.binary ⟨id, span⟩ op left right) (.binary ⟨id', span⟩ op left' right')
  | logical {id id' : Nat} {span : Span} {op : LogicalOp} {left left' right right' : Expr} :
      Parallels T k left left' → Parallels T k right right' →
        Parallels T k (.logical ⟨id, span⟩ op left right) (.logical ⟨id', span⟩ op left' right')
  | var {id id' : Nat} {name : Ident} :
      T.Leads k id id' → Parallels T k (.var ⟨id, name⟩) (.var ⟨id', name⟩)
  | assign {id id' : Nat} {name : Ident} {value value' : Expr} :
      T.Leads k id id' → Parallels T k value value' →
        Parallels T k (.assign ⟨id, name⟩ value) (.assign ⟨id', name⟩ value')
  | call {id id' : Nat} {span : Span} {callee callee' : Expr} {arguments arguments' : List Expr} :
      Parallels T k callee callee' → List.Forall₂ (Parallels T k) arguments arguments' →
        Parallels T k (.call ⟨id, span⟩ callee arguments) (.call ⟨id', span⟩ callee' arguments')
  | get {id id' : Nat} {object object' : Expr} {name : Ident} :
      Parallels T k object object' → Parallels T k (.get id object name) (.get id' object' name)
  | set {id id' : Nat} {object object' value value' : Expr} {name : Ident} :
      Parallels T k object object' → Parallels T k value value' →
        Parallels T k (.set id object name value) (.set id' object' name value')
  | this {id id' : Nat} {span : Span} :
      T.Leads k id id' → Parallels T k (.this ⟨id, span⟩) (.this ⟨id', span⟩)
  | super {id id' : Nat} {span : Span} {method : Ident} :
      T.Leads k id id' →
      (∀ near, T.first.locals.distance? id = some (near + 1) → k ≠ some near) →
        Parallels T k (.super ⟨id, span⟩ method) (.super ⟨id', span⟩ method)

/-! ## Statements -/

mutual

/-- The second statement is the first one with other numbers. -/
inductive Stmt.Parallels (T : Tracks) : Hollow → Stmt → Stmt → Prop
  | expression {k : Hollow} {e e' : Expr} :
      e.Parallels T k e' → Parallels T k (.expression e) (.expression e')
  | print {k : Hollow} {e e' : Expr} :
      e.Parallels T k e' → Parallels T k (.print e) (.print e')
  | var {k : Hollow} {name : Ident} {initial initial' : Option Expr} :
      k ≠ some 0 → Option.Rel (Expr.Parallels T k) initial initial' →
        Parallels T k (.var name initial) (.var name initial')
  | block {k : Hollow} {body body' : List Stmt} :
      ParallelsAll T k.inside body body' → Parallels T k (.block body) (.block body')
  | ifOnly {k : Hollow} {condition condition' : Expr} {consequent consequent' : Stmt} :
      condition.Parallels T k condition' → Parallels T k consequent consequent' →
        Parallels T k (.ifElse condition consequent none) (.ifElse condition' consequent' none)
  | ifElse {k : Hollow} {condition condition' : Expr}
      {consequent consequent' alternative alternative' : Stmt} :
      condition.Parallels T k condition' → Parallels T k consequent consequent' →
      Parallels T k alternative alternative' →
        Parallels T k (.ifElse condition consequent (some alternative))
          (.ifElse condition' consequent' (some alternative'))
  | while {k : Hollow} {condition condition' : Expr} {body body' : Stmt} :
      condition.Parallels T k condition' → Parallels T k body body' →
        Parallels T k (.while condition body) (.while condition' body')
  | function {k : Hollow} {decl decl' : FunctionDecl} :
      k ≠ some 0 → ParallelsRoutine T k decl decl' →
        Parallels T k (.function decl) (.function decl')
  | return {k : Hollow} {keyword : Span} {value value' : Option Expr} :
      Option.Rel (Expr.Parallels T k) value value' →
        Parallels T k (.return keyword value) (.return keyword value')
  | root {k : Hollow} {name : Ident} {methods methods' : List FunctionDecl} :
      k ≠ some 0 → ParallelsMethods T k.inside methods methods' →
        Parallels T k (.class name none methods) (.class name none methods')
  | derived {k : Hollow} {name : Ident} {id id' : Nat} {parent : Ident}
      {methods methods' : List FunctionDecl} :
      k ≠ some 0 → T.Leads k id id' → ParallelsMethods T k.inside.inside methods methods' →
        Parallels T k (.class name (some ⟨id, parent⟩) methods)
          (.class name (some ⟨id', parent⟩) methods')

/-- The second statements are the first ones with other numbers. -/
inductive Stmt.ParallelsAll (T : Tracks) : Hollow → List Stmt → List Stmt → Prop
  | nil {k : Hollow} : ParallelsAll T k [] []
  | cons {k : Hollow} {s s' : Stmt} {ss ss' : List Stmt} :
      Stmt.Parallels T k s s' → ParallelsAll T k ss ss' → ParallelsAll T k (s :: ss) (s' :: ss')

/-- The second routine is the first one with other numbers, and is declared where the first one is. -/
inductive Stmt.ParallelsRoutine (T : Tracks) : Hollow → FunctionDecl → FunctionDecl → Prop
  | mk {k : Hollow} {name : Ident} {parameters : List Ident} {body body' : List Stmt} :
      ParallelsAll T k.inside body body' →
        ParallelsRoutine T k ⟨name, parameters, body⟩ ⟨name, parameters, body'⟩

/-- The second methods are the first ones with other numbers. -/
inductive Stmt.ParallelsMethods (T : Tracks) : Hollow → List FunctionDecl → List FunctionDecl → Prop
  | nil {k : Hollow} : ParallelsMethods T k [] []
  | cons {k : Hollow} {r r' : FunctionDecl} {rs rs' : List FunctionDecl} :
      ParallelsRoutine T k r r' → ParallelsMethods T k rs rs' →
        ParallelsMethods T k (r :: rs) (r' :: rs')

end

namespace Stmt.ParallelsRoutine

variable {r r' : FunctionDecl}

theorem name (h : ParallelsRoutine T k r r') : r'.name = r.name := by
  cases h
  rfl

theorem parameters (h : ParallelsRoutine T k r r') : r'.parameters = r.parameters := by
  cases h
  rfl

theorem body (h : ParallelsRoutine T k r r') : ParallelsAll T k.inside r.body r'.body := by
  cases h with
  | mk hbody => exact hbody

end Stmt.ParallelsRoutine

end Lox
