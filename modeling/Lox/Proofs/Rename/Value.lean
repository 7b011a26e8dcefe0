import Lox.Proofs.Rename.Tree
import Lox.Value.Operator
import Lox.Value.Show

/-!
# Values with other names for variables

A value can hold trees: the declaration of a function and those of the methods of a class. Nothing that
is done with a value sees the names of variables in them. What a fault says may show such a name, so
of two results `Corresponds` asks only that both are faults or neither is.

Main statements: `BinaryOp.corresponds_apply` and `Value.text_rename`.
-/

namespace Lox

variable {ρ : Renaming}

/-- The second result is what `f` makes of the first, or both are faults. -/
inductive Corresponds {α β ε : Type} (f : α → β) : Except ε α → Except ε β → Prop
  | ok (a : α) : Corresponds f (.ok a) (.ok (f a))
  | error (e e' : ε) : Corresponds f (.error e) (.error e')

theorem Corresponds.of_eq {α β ε : Type} {f : α → β} {a : α} {b : β} (h : b = f a) :
    Corresponds (ε := ε) f (.ok a) (.ok b) := by
  subst h
  exact .ok a

/-! ## Functions and classes -/

def Closure.rename (ρ : Renaming) (c : Closure) : Closure :=
  ⟨Stmt.renameRoutine ρ c.declaration, c.frame, c.isInitializer⟩

/-- Methods with other names for variables. -/
abbrev Closure.renameTable (ρ : Renaming) : Bindings Closure → Bindings Closure :=
  Bindings.mapValues (Closure.rename ρ)

namespace Closure

@[simp] theorem arity_rename (c : Closure) : (c.rename ρ).arity = c.arity := by
  simp [rename, arity]

@[simp] theorem name_rename (c : Closure) : (c.rename ρ).name = c.name := by
  simp [rename, name]

end Closure

namespace Class

/-- A class with other names for variables in its methods and in those of its ancestors. -/
def rename (ρ : Renaming) : Class → Class
  | .root id name methods => .root id name (Closure.renameTable ρ methods)
  | .derived id name methods superclass =>
      .derived id name (Closure.renameTable ρ methods) (rename ρ superclass)

@[simp] theorem id_rename (c : Class) : (c.rename ρ).id = c.id := by
  cases c <;> rfl

@[simp] theorem name_rename (c : Class) : (c.rename ρ).name = c.name := by
  cases c <;> rfl

theorem method?_rename (c : Class) (name : String) :
    (c.rename ρ).method? name = (c.method? name).map (Closure.rename ρ) := by
  induction c with
  | root id own methods =>
      simp [rename, Bindings.value?_mapValues]
  | derived id own methods superclass ih =>
      simp only [rename, method?_derived, Bindings.value?_mapValues, ih]
      cases methods.value? name <;> rfl

@[simp] theorem arity_rename (c : Class) : (c.rename ρ).arity = c.arity := by
  unfold arity
  rw [method?_rename]
  cases c.method? initializerName with
  | none => rfl
  | some method => exact method.arity_rename

theorem rename_make (id : Nat) (name : String) (methods : Bindings Closure)
    (superclass : Option Class) :
    (make id name methods superclass).rename ρ =
      make id name (Closure.renameTable ρ methods) (superclass.map (rename ρ)) := by
  cases superclass <;> rfl

end Class

/-! ## Values -/

def Instance.rename (ρ : Renaming) (o : Instance) : Instance :=
  ⟨o.id, o.cls.rename ρ⟩

namespace Value

/-- A value with other names for variables in the trees it holds. -/
def rename (ρ : Renaming) : Value → Value
  | .function id closure => .function id (closure.rename ρ)
  | .class cls => .class (cls.rename ρ)
  | .instance object => .instance (object.rename ρ)
  | other => other

@[simp] theorem rename_boolean (b : Bool) : (boolean b).rename ρ = .boolean b :=
  rfl

@[simp] theorem text_rename (v : Value) : (v.rename ρ).text = v.text := by
  cases v <;> simp [rename, text, Instance.rename]

@[simp] theorem arity?_rename (v : Value) : (v.rename ρ).arity? = v.arity? := by
  cases v <;> simp [rename, arity?]

@[simp] theorem isTruthy_rename (v : Value) : (v.rename ρ).isTruthy = v.isTruthy := by
  cases v <;> rfl

@[simp] theorem equals_rename (v w : Value) :
    (v.rename ρ).equals (w.rename ρ) = v.equals w := by
  cases v <;> cases w <;> simp [rename, equals, Instance.rename]

end Value

@[simp] theorem Literal.rename_value (l : Literal) : l.value.rename ρ = l.value := by
  cases l <;> rfl

/-! ## Operators -/

theorem UnaryOp.corresponds_apply (op : UnaryOp) (v : Value) :
    Corresponds (Value.rename ρ) (op.apply v) (op.apply (v.rename ρ)) := by
  cases op with
  | not =>
      exact .of_eq (by simp)
  | negate =>
      cases v with
      | number x => exact .ok (Value.number (-x))
      | _ => exact .error _ _

namespace Value

theorem corresponds_onNumbers {operation : Float → Float → Value}
    (h : ∀ x y, (operation x y).rename ρ = operation x y) (v w : Value) :
    Corresponds (Value.rename ρ) (onNumbers operation v w)
      (onNumbers operation (v.rename ρ) (w.rename ρ)) := by
  cases v with
  | number x =>
      cases w with
      | number y => exact .of_eq (h x y).symm
      | _ => exact .error _ _
  | _ =>
      cases w <;> exact .error _ _

theorem corresponds_add (v w : Value) :
    Corresponds (Value.rename ρ) (add v w) (add (v.rename ρ) (w.rename ρ)) := by
  cases v with
  | number x =>
      cases w with
      | number y => exact .ok (number (x + y))
      | _ => exact .error _ _
  | string s =>
      cases w with
      | string t => exact .ok (string (s ++ t))
      | _ => exact .error _ _
  | _ =>
      cases w <;> exact .error _ _

end Value

theorem BinaryOp.corresponds_apply (op : BinaryOp) (v w : Value) :
    Corresponds (Value.rename ρ) (op.apply v w) (op.apply (v.rename ρ) (w.rename ρ)) := by
  cases op with
  | add =>
      exact Value.corresponds_add v w
  | equal =>
      exact .of_eq (by simp)
  | notEqual =>
      exact .of_eq (by simp)
  | _ =>
      exact Value.corresponds_onNumbers (fun _ _ => rfl) v w

@[simp] theorem LogicalOp.decidedBy_rename (op : LogicalOp) (v : Value) :
    op.decidedBy (v.rename ρ) = op.decidedBy v := by
  cases op <;> simp [decidedBy]

end Lox
