import Lox.Bindings
import Lox.Syntax.Tree

/-!
# Values

Functions, classes and instances are told apart by a number that each gets when it is made. A class
holds its superclass and so the whole line of its ancestors; neither that nor its methods can change.
The fields of an instance do change, so they are kept in the store, under the number of the instance.

Main statements: `Class.method?_root` and `Class.method?_derived` say that a method is looked for in
the class itself and then in the classes it inherits from.
-/

namespace Lox

/-- The number of a frame of the store. -/
abbrev FrameId := Nat

/-- A function or a method together with the frame it was declared in. -/
structure Closure where
  declaration : FunctionDecl
  frame : FrameId
  isInitializer : Bool

namespace Closure

/-- How many arguments a function takes. -/
def arity (c : Closure) : Nat :=
  c.declaration.parameters.length

/-- The name a function was declared with. -/
def name (c : Closure) : String :=
  c.declaration.name.name

end Closure

/-- Classes, which inherit from nothing or from a superclass. -/
inductive Class
  | root (id : Nat) (name : String) (methods : Bindings Closure)
  | derived (id : Nat) (name : String) (methods : Bindings Closure) (superclass : Class)

namespace Class

/-- The number of a class. -/
def id : Class → Nat
  | .root id _ _ => id
  | .derived id _ _ _ => id

/-- The name a class was declared with. -/
def name : Class → String
  | .root _ name _ => name
  | .derived _ name _ _ => name

/-- The methods a class itself declares. -/
def methods : Class → Bindings Closure
  | .root _ _ methods => methods
  | .derived _ _ methods _ => methods

/-- The class a class inherits from. -/
def superclass? : Class → Option Class
  | .root _ _ _ => none
  | .derived _ _ _ superclass => some superclass

/-- A class with the given superclass, if any. -/
def make (id : Nat) (name : String) (methods : Bindings Closure) : Option Class → Class
  | none => .root id name methods
  | some superclass => .derived id name methods superclass

/-- The method of the nearest class of the line that declares the name. -/
def method? (name : String) : Class → Option Closure
  | .root _ _ methods => methods.value? name
  | .derived _ _ methods superclass => (methods.value? name).or (method? name superclass)

/-- A class is called with as many arguments as its initializer takes. -/
def arity (c : Class) : Nat :=
  ((c.method? initializerName).map Closure.arity).getD 0

@[simp] theorem method?_root (id : Nat) (own name : String) (methods : Bindings Closure) :
    (Class.root id own methods).method? name = methods.value? name :=
  rfl

@[simp] theorem method?_derived (id : Nat) (own name : String) (methods : Bindings Closure)
    (superclass : Class) :
    (Class.derived id own methods superclass).method? name =
      (methods.value? name).or (superclass.method? name) :=
  rfl

end Class

/-- An instance: its number and its class. -/
structure Instance where
  id : Nat
  cls : Class

/-- Values. -/
inductive Value
  | number (x : Float)
  | string (s : String)
  | nil
  | boolean (b : Bool)
  /-- The function that reads the clock. -/
  | native (id : Nat)
  | function (id : Nat) (closure : Closure)
  | class (cls : Class)
  | instance (object : Instance)

namespace Value

/-- The name of the type of a value. -/
def typeName : Value → String
  | .number _ => "number"
  | .string _ => "string"
  | .nil => "nil"
  | .boolean _ => "boolean"
  | .native _ => "native function"
  | .function _ _ => "function"
  | .class _ => "class"
  | .instance _ => "instance"

/-- How many arguments a value can be called with, if it can be called. -/
def arity? : Value → Option Nat
  | .native _ => some 0
  | .function _ closure => some closure.arity
  | .class cls => some cls.arity
  | _ => none

/-- Only `nil` and `false` count as false. -/
def isTruthy : Value → Bool
  | .nil => false
  | .boolean b => b
  | _ => true

/-- Numbers are compared as numbers, so no NaN equals itself; functions, classes and instances by
what they are and not by what they hold. Values of different types differ. -/
def equals : Value → Value → Bool
  | .number x, .number y => x == y
  | .string s, .string t => s == t
  | .nil, .nil => true
  | .boolean b, .boolean c => b == c
  | .native i, .native j => i == j
  | .function i _, .function j _ => i == j
  | .class c, .class d => c.id == d.id
  | .instance o, .instance p => o.id == p.id
  | _, _ => false

end Value

/-- The value of a literal. -/
def Literal.value : Literal → Value
  | .number x => .number x
  | .string s => .string s
  | .boolean b => .boolean b
  | .nil => .nil

end Lox
