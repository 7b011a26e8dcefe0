import Mathlib.Order.Basic
import Lox.Proofs.Parallel.Tree
import Lox.Report.Fault
import Lox.Value.Operator

/-!
# Values of two runs

Values of two runs are parallel if they differ only in the frames that their functions close over and
in the numbers of the code. Which frames stand for each other is said by a `Pairing`, which grows as
frames are made. No operator can tell parallel values apart, and neither can anyone who reads the
printed lines or the faults.

Main statements: `UnaryOp.parallels_apply` and `BinaryOp.parallels_apply`.
-/

namespace Option.Rel

variable {α β : Type} {R S : α → β → Prop} {a? : Option α} {b? : Option β}

theorem mono (h : Option.Rel R a? b?) (hle : ∀ a b, R a b → S a b) : Option.Rel S a? b? := by
  cases h with
  | some hab => exact .some (hle _ _ hab)
  | none => exact .none

/-- Both are missing, or neither is. -/
theorem inv (h : Option.Rel R a? b?) :
    (a? = .none ∧ b? = .none) ∨ ∃ a b, a? = .some a ∧ b? = .some b ∧ R a b := by
  cases h with
  | some hab => exact .inr ⟨_, _, rfl, rfl, hab⟩
  | none => exact .inl ⟨rfl, rfl⟩

theorem isSome_eq (h : Option.Rel R a? b?) : b?.isSome = a?.isSome := by
  cases h <;> rfl

end Option.Rel

namespace Lox

/-- Which frames of two runs stand for each other. For `P k f f'` the frames around `f`, the hollow one
left out, stand for those around `f'`, and `k` is where the hollow one is. -/
abbrev Pairing := Hollow → FrameId → FrameId → Prop

/-- Two frames bind the same names, so neither is hollow. -/
def Pairing.Mates (P : Pairing) (f f' : FrameId) : Prop :=
  ∃ k : Hollow, k ≠ some 0 ∧ P k f f'

theorem Pairing.Mates.mono {P Q : Pairing} {f f' : FrameId} (h : P.Mates f f') (hle : P ≤ Q) :
    Q.Mates f f' := by
  rcases h with ⟨k, hk, hp⟩
  exact ⟨k, hk, hle k f f' hp⟩

/-! ## Functions, classes and values -/

/-- Two functions that can be called. -/
structure Closure.Parallels (T : Tracks) (P : Pairing) (c c' : Closure) : Prop where
  isInitializer : c'.isInitializer = c.isInitializer
  code : ∃ k : Hollow, k ≠ some 0 ∧ P k c.frame c'.frame ∧
    Stmt.ParallelsRoutine T k c.declaration c'.declaration

/-- Two methods. Before one runs, it is bound to an instance in a frame of its own. -/
structure Closure.Unbound (T : Tracks) (P : Pairing) (c c' : Closure) : Prop where
  isInitializer : c'.isInitializer = c.isInitializer
  code : ∃ k : Hollow, P k c.frame c'.frame ∧
    Stmt.ParallelsRoutine T k.inside c.declaration c'.declaration

/-- Two classes that have the same number and name, and find parallel methods. -/
structure Class.Parallels (T : Tracks) (P : Pairing) (c c' : Class) : Prop where
  id : c'.id = c.id
  name : c'.name = c.name
  method? : ∀ name, Option.Rel (Closure.Unbound T P) (c.method? name) (c'.method? name)

/-- Two instances with the same number, of parallel classes. -/
structure Instance.Parallels (T : Tracks) (P : Pairing) (o o' : Instance) : Prop where
  id : o'.id = o.id
  cls : o.cls.Parallels T P o'.cls

/-- Two values that differ only in frames and in the numbers of their code. -/
inductive Value.Parallels (T : Tracks) (P : Pairing) : Value → Value → Prop
  | number (x : Float) : Parallels T P (.number x) (.number x)
  | string (s : String) : Parallels T P (.string s) (.string s)
  | nil : Parallels T P .nil .nil
  | boolean (b : Bool) : Parallels T P (.boolean b) (.boolean b)
  | native (id : Nat) : Parallels T P (.native id) (.native id)
  | function {id : Nat} {c c' : Closure} :
      c.Parallels T P c' → Parallels T P (.function id c) (.function id c')
  | class {c c' : Class} : c.Parallels T P c' → Parallels T P (.class c) (.class c')
  | instance {o o' : Instance} :
      o.Parallels T P o' → Parallels T P (.instance o) (.instance o')

variable {T : Tracks} {P Q : Pairing}

namespace Closure

variable {c c' : Closure}

theorem Parallels.mono (h : c.Parallels T P c') (hle : P ≤ Q) : c.Parallels T Q c' := by
  rcases h.code with ⟨k, hk, hp, hcode⟩
  exact ⟨h.isInitializer, k, hk, hle k _ _ hp, hcode⟩

theorem Unbound.mono (h : c.Unbound T P c') (hle : P ≤ Q) : c.Unbound T Q c' := by
  rcases h.code with ⟨k, hp, hcode⟩
  exact ⟨h.isInitializer, k, hle k _ _ hp, hcode⟩

theorem Parallels.name (h : c.Parallels T P c') : c'.name = c.name := by
  rcases h.code with ⟨k, -, -, hcode⟩
  exact congrArg Ident.name hcode.name

theorem Parallels.arity (h : c.Parallels T P c') : c'.arity = c.arity := by
  rcases h.code with ⟨k, -, -, hcode⟩
  exact congrArg List.length hcode.parameters

theorem Unbound.arity (h : c.Unbound T P c') : c'.arity = c.arity := by
  rcases h.code with ⟨k, -, hcode⟩
  exact congrArg List.length hcode.parameters

end Closure

namespace Class.Parallels

variable {c c' : Class}

theorem mono (h : c.Parallels T P c') (hle : P ≤ Q) : c.Parallels T Q c' :=
  ⟨h.id, h.name, fun name => (h.method? name).mono fun _ _ hmethod => hmethod.mono hle⟩

theorem arity (h : c.Parallels T P c') : c'.arity = c.arity := by
  unfold Class.arity
  rcases (h.method? initializerName).inv with ⟨hc, hc'⟩ | ⟨method, method', hc, hc', hmethod⟩
  · rw [hc, hc']
  · rw [hc, hc', Option.map_some, Option.map_some, hmethod.arity]

/-- The methods of a class and those of the class it inherits from. -/
theorem make {id : Nat} {name : String} {methods methods' : Bindings Closure}
    {superclass superclass' : Option Class}
    (hmethods : ∀ name, Option.Rel (Closure.Unbound T P) (methods.value? name)
      (methods'.value? name))
    (hsuper : Option.Rel (Class.Parallels T P) superclass superclass') :
    (Class.make id name methods superclass).Parallels T P
      (Class.make id name methods' superclass') := by
  cases hsuper with
  | none => exact ⟨rfl, rfl, hmethods⟩
  | @some cls cls' hcls =>
      refine ⟨rfl, rfl, ?_⟩
      intro name
      simp only [Class.make, Class.method?_derived]
      rcases (hmethods name).inv with ⟨hm, hm'⟩ | ⟨method, method', hm, hm', hmethod⟩
      · rw [hm, hm', Option.none_or, Option.none_or]
        exact hcls.method? name
      · rw [hm, hm', Option.some_or, Option.some_or]
        exact .some hmethod

end Class.Parallels

theorem Instance.Parallels.mono {o o' : Instance} (h : o.Parallels T P o') (hle : P ≤ Q) :
    o.Parallels T Q o' :=
  ⟨h.id, h.cls.mono hle⟩

namespace Value.Parallels

variable {v v' w w' : Value}

theorem mono (h : v.Parallels T P v') (hle : P ≤ Q) : v.Parallels T Q v' := by
  cases h with
  | number x => exact .number x
  | string s => exact .string s
  | nil => exact .nil
  | boolean b => exact .boolean b
  | native id => exact .native id
  | function hc => exact .function (hc.mono hle)
  | «class» hc => exact .class (hc.mono hle)
  | «instance» ho => exact .instance (ho.mono hle)

theorem typeName (h : v.Parallels T P v') : v'.typeName = v.typeName := by
  cases h <;> rfl

theorem text (h : v.Parallels T P v') : v'.text = v.text := by
  cases h with
  | function hc => simp [Value.text, hc.name]
  | «class» hc => simp [Value.text, hc.name]
  | «instance» ho => simp [Value.text, ho.cls.name]
  | _ => rfl

theorem arity? (h : v.Parallels T P v') : v'.arity? = v.arity? := by
  cases h with
  | function hc => exact congrArg some hc.arity
  | «class» hc => exact congrArg some hc.arity
  | _ => rfl

theorem isTruthy (h : v.Parallels T P v') : v'.isTruthy = v.isTruthy := by
  cases h <;> rfl

theorem equals (h : v.Parallels T P v') (hw : w.Parallels T P w') :
    v'.equals w' = v.equals w := by
  cases h with
  | «class» hc => cases hw with
    | «class» hd => simp [Value.equals, hc.id, hd.id]
    | _ => rfl
  | «instance» ho => cases hw with
    | «instance» hp => simp [Value.equals, ho.id, hp.id]
    | _ => rfl
  | _ => cases hw <;> rfl

end Value.Parallels

theorem Literal.parallels_value (l : Literal) : l.value.Parallels T P l.value := by
  cases l with
  | number x => exact .number x
  | string s => exact .string s
  | boolean b => exact .boolean b
  | nil => exact .nil

/-! ## Faults -/

/-- Two reasons for a fault that are reported alike. -/
structure FaultCause.Parallels (c c' : FaultCause) : Prop where
  code : c'.code = c.code
  message : c'.message = c.message
  remark : c'.remark = c.remark

/-- Two faults at one place that are reported alike. -/
structure Fault.Parallels (f f' : Fault) : Prop where
  span : f'.span = f.span
  cause : f.cause.Parallels f'.cause

theorem FaultCause.Parallels.refl (c : FaultCause) : c.Parallels c :=
  ⟨rfl, rfl, rfl⟩

/-- What is reported of the faults is the same. -/
theorem Fault.Parallels.notice {f f' : Fault} (h : f.Parallels f') : f'.notice = f.notice := by
  simp only [Fault.notice, h.span, h.cause.code, h.cause.message, h.cause.remark]

/-- A fault that tells of a value no more than its type. -/
def FaultCause.TellsType (cause : Value → FaultCause) : Prop :=
  ∃ code message front back, ∀ v : Value, (cause v).code = code ∧ (cause v).message = message ∧
    (cause v).remark = front ++ v.typeName ++ back

namespace FaultCause.TellsType

theorem parallels {cause : Value → FaultCause} {v v' : Value} (hcause : TellsType cause)
    (h : v.Parallels T P v') : (cause v).Parallels (cause v') := by
  rcases hcause with ⟨code, message, front, back, hcause⟩
  rcases hcause v with ⟨hcode, hmessage, hremark⟩
  rcases hcause v' with ⟨hcode', hmessage', hremark'⟩
  refine ⟨hcode'.trans hcode.symm, hmessage'.trans hmessage.symm, ?_⟩
  rw [hremark, hremark', h.typeName]

theorem notANumber : TellsType .notANumber :=
  ⟨_, _, "This evaluates to ", " and not a number", fun _ => ⟨rfl, rfl, rfl⟩⟩

theorem notCallable : TellsType .notCallable :=
  ⟨_, _, "This is ", " and can't be called", fun _ => ⟨rfl, rfl, rfl⟩⟩

theorem propertyOfNoInstance : TellsType .propertyOfNoInstance :=
  ⟨_, _, "This is ", " and not an instance", fun _ => ⟨rfl, rfl, rfl⟩⟩

theorem fieldOfNoInstance : TellsType .fieldOfNoInstance :=
  ⟨_, _, "This is ", " and not an instance", fun _ => ⟨rfl, rfl, rfl⟩⟩

theorem superclassNotAClass : TellsType .superclassNotAClass :=
  ⟨_, _, "This is ", " and not a class", fun _ => ⟨rfl, rfl, rfl⟩⟩

end FaultCause.TellsType

/-- Two results of a step that may fail. -/
inductive FaultCause.ParallelsOr {α β : Type} (R : α → β → Prop) :
    Except FaultCause α → Except FaultCause β → Prop
  | ok {a : α} {b : β} : R a b → ParallelsOr R (.ok a) (.ok b)
  | error {c c' : FaultCause} : c.Parallels c' → ParallelsOr R (.error c) (.error c')

/-! ## Operators -/

section Operators

open FaultCause (ParallelsOr)

variable {v v' w w' : Value}

theorem UnaryOp.parallels_apply (op : UnaryOp) (h : v.Parallels T P v') :
    ParallelsOr (Value.Parallels T P) (op.apply v) (op.apply v') := by
  cases op with
  | not =>
      rw [apply, apply, h.isTruthy]
      exact .ok (.boolean _)
  | negate =>
      have hfault := FaultCause.TellsType.notANumber.parallels h
      cases h with
      | number x => exact .ok (.number (-x))
      | _ => exact .error hfault

namespace Value.Parallels

/-- A fault that tells the types of both operands. -/
theorem fault (h : v.Parallels T P v') (hw : w.Parallels T P w') :
    (FaultCause.notNumbers v w).Parallels (.notNumbers v' w') ∧
      (FaultCause.notAddable v w).Parallels (.notAddable v' w') := by
  have hremark : "The operands are " ++ v'.typeName ++ " and " ++ w'.typeName =
      "The operands are " ++ v.typeName ++ " and " ++ w.typeName := by
    rw [h.typeName, hw.typeName]
  exact ⟨⟨rfl, rfl, hremark⟩, ⟨rfl, rfl, hremark⟩⟩

theorem onNumbers {operation : Float → Float → Value}
    (hoperation : ∀ x y, (operation x y).Parallels T P (operation x y))
    (h : v.Parallels T P v') (hw : w.Parallels T P w') :
    ParallelsOr (Value.Parallels T P) (Value.onNumbers operation v w)
      (Value.onNumbers operation v' w') := by
  have hfault := (h.fault hw).1
  cases h with
  | number x => cases hw with
    | number y => exact .ok (hoperation x y)
    | _ => exact .error hfault
  | _ => exact .error hfault

theorem add (h : v.Parallels T P v') (hw : w.Parallels T P w') :
    ParallelsOr (Value.Parallels T P) (Value.add v w) (Value.add v' w') := by
  have hfault := (h.fault hw).2
  cases h with
  | number x => cases hw with
    | number y => exact .ok (.number (x + y))
    | _ => exact .error hfault
  | string s => cases hw with
    | string t => exact .ok (.string (s ++ t))
    | _ => exact .error hfault
  | _ => exact .error hfault

end Value.Parallels

theorem BinaryOp.parallels_apply (op : BinaryOp) (h : v.Parallels T P v')
    (hw : w.Parallels T P w') :
    ParallelsOr (Value.Parallels T P) (op.apply v w) (op.apply v' w') := by
  cases op with
  | add => exact h.add hw
  | subtract | multiply | divide =>
      refine h.onNumbers ?_ hw
      exact fun _ _ => .number _
  | less | lessEqual | greater | greaterEqual =>
      refine h.onNumbers ?_ hw
      exact fun _ _ => .boolean _
  | equal | notEqual =>
      simp only [apply, h.equals hw]
      exact .ok (.boolean _)

theorem LogicalOp.parallels_decidedBy (op : LogicalOp) (h : v.Parallels T P v') :
    op.decidedBy v' = op.decidedBy v := by
  cases op <;> simp only [decidedBy, h.isTruthy]

end Operators

end Lox
