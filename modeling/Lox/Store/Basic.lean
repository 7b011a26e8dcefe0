import Lox.Value.Fault

/-!
# The store

The store holds what a running program can change: frames, which bind the variables of the scopes,
and the fields of the instances. It also hands out the numbers by which functions and classes are
told apart. Nothing is ever removed from it.

A frame knows the frames around it, the nearest first, and these are fixed when it is made. So the
chain of a frame is a list that no operation changes, and its last frame is a root.
-/

namespace Lox

/-- A frame: the frames around it, the nearest first, and its own variables. -/
structure Frame where
  outer : List FrameId
  bindings : Bindings Value

/-- What a running program can change. -/
structure Store where
  frames : Array Frame
  fields : Array (Bindings Value)
  /-- The next number for a function or a class. -/
  nextId : Nat

namespace Store

/-- A store that holds nothing. -/
def empty : Store :=
  ⟨#[], #[], 0⟩

/-- The next number for a function or a class. -/
def fresh (s : Store) : Nat × Store :=
  (s.nextId, { s with nextId := s.nextId + 1 })

/-! ## Frames -/

/-- The frames around a frame, the nearest first. -/
def outer (s : Store) (f : FrameId) : List FrameId :=
  (s.frames[f]?.map Frame.outer).getD []

/-- The variables of a frame. -/
def bindings (s : Store) (f : FrameId) : Bindings Value :=
  (s.frames[f]?.map Frame.bindings).getD []

/-- A frame and those around it, the nearest first. -/
def chain (s : Store) (f : FrameId) : List FrameId :=
  f :: s.outer f

/-- Adds a frame without variables. -/
def addFrame (s : Store) (outer : List FrameId) : FrameId × Store :=
  (s.frames.size, { s with frames := s.frames.push ⟨outer, []⟩ })

/-- Adds a frame that stands in no other. -/
def newRoot (s : Store) : FrameId × Store :=
  s.addFrame []

/-- Adds a frame inside another. -/
def newScope (s : Store) (f : FrameId) : FrameId × Store :=
  s.addFrame (s.chain f)

/-- Binds a name in a frame. -/
def define (s : Store) (f : FrameId) (name : String) (value : Value) : Store :=
  { s with
    frames := s.frames.modify f fun frame =>
      { frame with bindings := frame.bindings.put name value } }

/-- The name of the only native function, which reads the clock. -/
def clockName : String :=
  "clock"

/-- Adds a root frame that binds the native function. -/
def newGlobals (s : Store) : FrameId × Store :=
  let id := s.fresh
  let root := id.2.newRoot
  (root.1, root.2.define root.1 clockName (.native id.1))

/-- The frame that stands `distance` steps out. -/
def ancestor? (s : Store) (f : FrameId) (distance : Nat) : Option FrameId :=
  match distance with
  | 0 => some f
  | n + 1 => (s.outer f)[n]?

/-- The value a frame itself binds a name to. -/
def value? (s : Store) (f : FrameId) (name : String) : Option Value :=
  (s.bindings f).value? name

/-- The nearest frame that binds a name. -/
def holder? (s : Store) (f : FrameId) (name : String) : Option FrameId :=
  (s.chain f).find? fun g => (s.value? g name).isSome

/-- An optional result, or the fault that a name is bound nowhere. -/
def orUndefined {α : Type} (name : String) : Option α → Except FaultCause α
  | some a => .ok a
  | none => .error (.undefinedVariable name)

/-- Reads a name in the nearest frame that binds it. -/
def get (s : Store) (f : FrameId) (name : String) : Except FaultCause Value :=
  orUndefined name ((s.holder? f name).bind fun g => s.value? g name)

/-- Reads a name in the frame `distance` steps out and in no other. -/
def getAt (s : Store) (f : FrameId) (distance : Nat) (name : String) : Except FaultCause Value :=
  orUndefined name ((s.ancestor? f distance).bind fun g => s.value? g name)

/-- Changes a name in the nearest frame that binds it. -/
def assign (s : Store) (f : FrameId) (name : String) (value : Value) : Except FaultCause Store :=
  orUndefined name ((s.holder? f name).map fun g => s.define g name value)

/-- Changes a name in the frame `distance` steps out, if that frame binds it. -/
def assignAt (s : Store) (f : FrameId) (distance : Nat) (name : String) (value : Value) :
    Except FaultCause Store :=
  orUndefined name
    (((s.ancestor? f distance).filter fun g => (s.value? g name).isSome).map fun g =>
      s.define g name value)

/-! ## Instances -/

/-- Adds an instance without fields. -/
def newInstance (s : Store) (cls : Class) : Instance × Store :=
  (⟨s.fields.size, cls⟩, { s with fields := s.fields.push [] })

/-- The value of a field of an instance. -/
def field? (s : Store) (object : Instance) (name : String) : Option Value :=
  ((s.fields[object.id]?).getD []).value? name

/-- Sets a field of an instance. -/
def setField (s : Store) (object : Instance) (name : String) (value : Value) : Store :=
  { s with fields := s.fields.modify object.id fun fields => fields.put name value }

end Store

end Lox
