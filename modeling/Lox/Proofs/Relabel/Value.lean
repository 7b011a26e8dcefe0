import Lox.Proofs.Relabel.Tree
import Lox.Value.Operator
import Lox.Value.Show

/-!
# Values with other numbers and places

A value can hold trees: the declaration of a function and those of the methods of a class. A change
of their numbers and places is not seen by anything that is done with a value, nor in what a fault
says.
-/

namespace Lox

variable {f : Relabel}

/-! ## Functions and classes -/

def Closure.relabel (f : Relabel) (c : Closure) : Closure :=
  ⟨Stmt.relabelRoutine f c.declaration, c.frame, c.isInitializer⟩

/-- Methods with other numbers and places. -/
abbrev Closure.relabelTable (f : Relabel) : Bindings Closure → Bindings Closure :=
  Bindings.mapValues (Closure.relabel f)

namespace Closure

@[simp] theorem relabel_arity (c : Closure) : (c.relabel f).arity = c.arity := by
  simp [relabel, arity]

@[simp] theorem relabel_name (c : Closure) : (c.relabel f).name = c.name := by
  simp [relabel, name]

theorem relabel_printing (before : List String) (c : Closure) :
    c.relabel (.printing before) = c := by
  simp [relabel, Stmt.relabelRoutine_printing]

theorem relabelTable_printing (before : List String) (methods : Bindings Closure) :
    relabelTable (.printing before) methods = methods := by
  simp [Bindings.mapValues, relabel_printing]

end Closure

namespace Class

/-- A class with other numbers and places in its methods and in those of its ancestors. -/
def relabel (f : Relabel) : Class → Class
  | .root id name methods => .root id name (Closure.relabelTable f methods)
  | .derived id name methods superclass =>
      .derived id name (Closure.relabelTable f methods) (relabel f superclass)

@[simp] theorem relabel_id (c : Class) : (c.relabel f).id = c.id := by
  cases c <;> rfl

@[simp] theorem relabel_name (c : Class) : (c.relabel f).name = c.name := by
  cases c <;> rfl

theorem method?_relabel (c : Class) (name : String) :
    (c.relabel f).method? name = (c.method? name).map (Closure.relabel f) := by
  induction c with
  | root id own methods =>
      simp [relabel, Bindings.value?_mapValues]
  | derived id own methods superclass ih =>
      simp only [relabel, method?_derived, Bindings.value?_mapValues, ih]
      cases methods.value? name <;> rfl

@[simp] theorem relabel_arity (c : Class) : (c.relabel f).arity = c.arity := by
  unfold arity
  rw [method?_relabel]
  cases c.method? initializerName with
  | none =>
      rfl
  | some method =>
      exact method.relabel_arity

theorem relabel_make (id : Nat) (name : String) (methods : Bindings Closure)
    (superclass : Option Class) :
    (make id name methods superclass).relabel f =
      make id name (Closure.relabelTable f methods) (superclass.map (relabel f)) := by
  cases superclass <;> rfl

theorem relabel_printing (before : List String) (c : Class) : c.relabel (.printing before) = c := by
  induction c with
  | root id name methods =>
      simp only [relabel, Closure.relabelTable_printing]
  | derived id name methods superclass ih =>
      simp only [relabel, Closure.relabelTable_printing, ih]

end Class

/-! ## Values -/

def Instance.relabel (f : Relabel) (o : Instance) : Instance :=
  ⟨o.id, o.cls.relabel f⟩

namespace Value

/-- A value with other numbers and places in the trees it holds. -/
def relabel (f : Relabel) : Value → Value
  | .function id closure => .function id (closure.relabel f)
  | .class cls => .class (cls.relabel f)
  | .instance object => .instance (object.relabel f)
  | other => other

@[simp] theorem relabel_typeName (v : Value) : (v.relabel f).typeName = v.typeName := by
  cases v <;> rfl

@[simp] theorem relabel_text (v : Value) : (v.relabel f).text = v.text := by
  cases v <;> simp [relabel, text, Instance.relabel]

@[simp] theorem relabel_arity? (v : Value) : (v.relabel f).arity? = v.arity? := by
  cases v <;> simp [relabel, arity?]

@[simp] theorem relabel_isTruthy (v : Value) : (v.relabel f).isTruthy = v.isTruthy := by
  cases v <;> rfl

@[simp] theorem relabel_equals (v w : Value) :
    (v.relabel f).equals (w.relabel f) = v.equals w := by
  cases v <;> cases w <;> simp [relabel, equals, Instance.relabel]

theorem relabel_printing (before : List String) (v : Value) :
    v.relabel (.printing before) = v := by
  cases v <;> simp [relabel, Instance.relabel, Closure.relabel_printing, Class.relabel_printing]

end Value

@[simp] theorem Literal.relabel_value (l : Literal) : l.value.relabel f = l.value := by
  cases l <;> rfl

/-! ## Faults -/

/-- The reason of a fault with other numbers and places in its values. -/
def FaultCause.relabel (f : Relabel) : FaultCause → FaultCause
  | .notANumber operand => .notANumber (operand.relabel f)
  | .notNumbers left right => .notNumbers (left.relabel f) (right.relabel f)
  | .notAddable left right => .notAddable (left.relabel f) (right.relabel f)
  | .notCallable callee => .notCallable (callee.relabel f)
  | .propertyOfNoInstance value => .propertyOfNoInstance (value.relabel f)
  | .fieldOfNoInstance value => .fieldOfNoInstance (value.relabel f)
  | .undefinedProperty object name => .undefinedProperty (object.relabel f) name
  | .superclassNotAClass value => .superclassNotAClass (value.relabel f)
  | other => other

def Fault.relabel (f : Relabel) (fault : Fault) : Fault :=
  ⟨fault.cause.relabel f, f.place fault.span⟩

@[simp] theorem FaultCause.relabel_code (c : FaultCause) : (c.relabel f).code = c.code := by
  cases c <;> rfl

@[simp] theorem FaultCause.relabel_message (c : FaultCause) : (c.relabel f).message = c.message := by
  cases c <;> rfl

theorem FaultCause.relabel_printing (before : List String) (c : FaultCause) :
    c.relabel (.printing before) = c := by
  cases c <;> simp [relabel, Value.relabel_printing]

theorem Fault.relabel_printing (before : List String) (fault : Fault) :
    fault.relabel (.printing before) = fault := by
  rcases fault with ⟨cause, span⟩
  exact congrArg (Fault.mk · span) (cause.relabel_printing before)

section Results

variable {α β : Type}

/-- A result, or the reason of a fault, after a change. -/
def FaultCause.relabelOr (f : Relabel) (g : α → β) : Except FaultCause α → Except FaultCause β
  | .ok a => .ok (g a)
  | .error cause => .error (cause.relabel f)

/-- A result, or a fault, after a change. -/
def Fault.relabelOr (f : Relabel) (g : α → β) : Except Fault α → Except Fault β
  | .ok a => .ok (g a)
  | .error fault => .error (fault.relabel f)

end Results

/-! ## Operators -/

theorem UnaryOp.apply_relabel (op : UnaryOp) (v : Value) :
    op.apply (v.relabel f) = FaultCause.relabelOr f (Value.relabel f) (op.apply v) := by
  cases op with
  | not =>
      simp only [apply, Value.relabel_isTruthy]
      rfl
  | negate =>
      cases v <;> rfl

namespace Value

theorem onNumbers_relabel {operation : Float → Float → Value}
    (h : ∀ x y, (operation x y).relabel f = operation x y) (v w : Value) :
    onNumbers operation (v.relabel f) (w.relabel f) =
      FaultCause.relabelOr f (Value.relabel f) (onNumbers operation v w) := by
  cases v with
  | number x =>
      cases w with
      | number y =>
          exact congrArg Except.ok (h x y).symm
      | _ =>
          rfl
  | _ =>
      cases w <;> rfl

theorem add_relabel (v w : Value) :
    add (v.relabel f) (w.relabel f) =
      FaultCause.relabelOr f (Value.relabel f) (add v w) := by
  cases v <;> cases w <;> rfl

end Value

theorem BinaryOp.apply_relabel (op : BinaryOp) (v w : Value) :
    op.apply (v.relabel f) (w.relabel f) =
      FaultCause.relabelOr f (Value.relabel f) (op.apply v w) := by
  cases op with
  | add =>
      exact Value.add_relabel v w
  | equal =>
      simp only [apply, Value.relabel_equals]
      rfl
  | notEqual =>
      simp only [apply, Value.relabel_equals]
      rfl
  | _ =>
      exact Value.onNumbers_relabel (fun _ _ => rfl) v w

@[simp] theorem LogicalOp.decidedBy_relabel (op : LogicalOp) (v : Value) :
    op.decidedBy (v.relabel f) = op.decidedBy v := by
  cases op <;> simp [decidedBy]

end Lox
