import Lox.Eval.Outcome
import Lox.Value.Operator
import Lox.Value.Show

/-!
# Evaluation

Programs are evaluated on their trees, in the frame of the scope at hand. A local reference is read
at its recorded distance; every other one is looked up in the globals.

What is done for an expression or a statement is said in one step, which asks for the parts:
`valueOf` and `executeRound`. Only a loop takes more than one round. `perform` does a task and
everything the task asks for. It takes fuel, which bounds how deep the tasks nest and how often a
loop goes round; with enough fuel the outcome does not depend on it.
-/

namespace Lox

namespace Eval

/-! ## Tasks -/

/-- Asks for the value of an expression. -/
def evaluate (frame : FrameId) (e : Expr) : Eval Value :=
  request (.evaluate frame e)

/-- Asks for the execution of a statement. -/
def execute (frame : FrameId) (s : Stmt) : Eval Flow :=
  request (.execute frame s)

/-- Asks for the values of expressions, in order. -/
def evaluateAll (frame : FrameId) : List Expr → Eval (List Value)
  | [] => return []
  | e :: es => do
      let value ← evaluate frame e
      let values ← evaluateAll frame es
      return value :: values

/-- Asks for the value of an expression that may be missing, in which case its value is `nil`. -/
def evaluateOption (frame : FrameId) : Option Expr → Eval Value
  | none => return .nil
  | some e => evaluate frame e

/-- Asks for the execution of statements, in order, up to one that returns. -/
def executeAll (frame : FrameId) : List Stmt → Eval Flow
  | [] => return .normal
  | s :: ss => do
      match ← execute frame s with
      | .returned value => return .returned value
      | .normal => executeAll frame ss

/-! ## Variables -/

/-- Reads a variable, or `this`, from the given frame. -/
def lookUp (frame : FrameId) (node : Node) (name : String) : Eval Value := do
  match ← distance? node.id with
  | some distance => read node.span fun store => store.getAt frame distance name
  | none =>
      let root ← globals
      read node.span fun store => store.get root name

/-- Assigns to a variable from the given frame. -/
def assign (frame : FrameId) (target : Reference) (value : Value) : Eval Unit := do
  let name := target.name.name
  match ← distance? target.id with
  | some distance =>
      tryChange target.name.span fun store => store.assignAt frame distance name value
  | none =>
      let root ← globals
      tryChange target.name.span fun store => store.assign root name value

/-! ## Functions, classes and instances -/

/-- Makes a function value of its own. -/
def makeFunction (closure : Closure) : Eval Value := do
  let id ← create Store.fresh
  return .function id closure

/-- A method whose frame stands in a new one that binds `this`. -/
def bindMethod (method : Closure) (object : Instance) : Eval Closure := do
  let frame ← create fun store => store.newScope method.frame
  change fun store => store.define frame thisName (.instance object)
  return { method with frame }

/-- The instance a value is, or the fault for a value that is none. -/
def asInstance (place : Span) (cause : Value → FaultCause) : Value → Eval Instance
  | .instance object => return object
  | other => fail (cause other) place

/-- The class a value is, or a fault. -/
def asClass (place : Span) : Value → Eval Class
  | .class cls => return cls
  | other => fail (.superclassNotAClass other) place

/-- The method of an instance, found from the given class on and bound to the instance. -/
def method (cls : Class) (object : Instance) (name : Ident) : Eval Value := do
  match cls.method? name.name with
  | some method => makeFunction (← bindMethod method object)
  | none => fail (.undefinedProperty (.instance object) name.name) name.span

/-- The property of an instance: a field, or else a method of its class. -/
def property (object : Instance) (name : Ident) : Eval Value := fun setting m =>
  match m.store.field? object name.name with
  | some value => .ended (.ok value) m
  | none => method object.cls object name setting m

/-- The method of the superclass. The class is found at the recorded distance and the instance one
step nearer. -/
def superMethod (frame : FrameId) (node : Node) (name : Ident) : Eval Value := do
  match ← distance? node.id with
  | none => fail (.undefinedVariable superName) name.span
  | some distance =>
      let value ← read name.span fun store => store.getAt frame distance superName
      let cls ← asClass name.span value
      match distance with
      | 0 => fail (.undefinedVariable thisName) name.span
      | nearer + 1 =>
          let receiver ← read name.span fun store => store.getAt frame nearer thisName
          let object ← asInstance name.span .propertyOfNoInstance receiver
          method cls object name

/-- Binds parameters to arguments in a frame, in order. -/
def bindArguments (frame : FrameId) (parameters : List Ident) (arguments : List Value) :
    Eval Unit :=
  change fun store =>
    (parameters.zip arguments).foldl (fun s p => s.define frame p.1.name p.2) store

/-- The methods of a class declaration, which close over the given frame. Of two with one name the
last one counts. -/
def closeMethods (frame : FrameId) (methods : List FunctionDecl) : Bindings Closure :=
  methods.foldl
    (fun table decl =>
      table.put decl.name.name ⟨decl, frame, decl.name.name == initializerName⟩)
    []

/-- The frame the methods of a class close over: one that binds `super`, if there is a
superclass. -/
def methodFrame (frame : FrameId) : Option Class → Eval FrameId
  | none => return frame
  | some parent => do
      let inner ← create fun store => store.newScope frame
      change fun store => store.define inner superName (.class parent)
      return inner

/-- The class a class declaration inherits from. -/
def parentClass (frame : FrameId) : Option Reference → Eval (Option Class)
  | none => return none
  | some parent => do
      let value ← evaluate frame (.var parent)
      some <$> asClass parent.name.span value

/-- Makes the class of a class declaration. Gives the frame its methods close over as well. The name
of the class is bound before the superclass is read. -/
def makeClass (frame : FrameId) (name : Ident) (parent : Option Reference)
    (methods : List FunctionDecl) : Eval (FrameId × Class) := do
  change fun store => store.define frame name.name .nil
  let superclass ← parentClass frame parent
  let inner ← methodFrame frame superclass
  let id ← create Store.fresh
  return (inner, .make id name.name (closeMethods inner methods) superclass)

/-- Declares a class. -/
def declareClass (frame : FrameId) (name : Ident) (parent : Option Reference)
    (methods : List FunctionDecl) : Eval Unit := do
  let made ← makeClass frame name parent methods
  tryChange name.span fun store => store.assign frame name.name (.class made.2)

/-! ## Calls -/

/-- The value of a call whose body has ended. An initializer gives its instance, whatever it
returns. -/
def callResult (closure : Closure) (flow : Flow) : Eval Value :=
  if closure.isInitializer then
    read closure.declaration.name.span fun store => store.getAt closure.frame 0 thisName
  else
    match flow with
    | .returned value => return value
    | .normal => return .nil

/-- Runs the body of a function in a new frame that binds the parameters. -/
def run (closure : Closure) (arguments : List Value) : Eval Value := do
  let frame ← create fun store => store.newScope closure.frame
  bindArguments frame closure.declaration.parameters arguments
  let flow ← executeAll frame closure.declaration.body
  callResult closure flow

/-- Does what a call asks for: reads the clock, runs a function, or makes an instance and runs its
initializer. -/
def invoke (place : Span) (callee : Value) (arguments : List Value) : Eval Value :=
  match callee with
  | .native _ => readClock place
  | .function _ closure => run closure arguments
  | .class cls => do
      let object ← create fun store => store.newInstance cls
      match cls.method? initializerName with
      | none => return .instance object
      | some method => do
          let initializer ← bindMethod method object
          let _ ← run initializer arguments
          return .instance object
  | other => fail (.notCallable other) place

/-- Calls a value from the given place, if it can be called with so many arguments and the calls are
not too deep. -/
def call (place : Span) (callee : Value) (arguments : List Value) : Eval Value :=
  match callee.arity? with
  | none => fail (.notCallable callee) place
  | some arity =>
      if arguments.length = arity then nested place (invoke place callee arguments)
      else fail (.wrongArgumentCount arguments.length arity) place

/-! ## Expressions and statements -/

/-- What is done for the value of an expression. -/
def valueOf (frame : FrameId) : Expr → Eval Value
  | .literal _ literal => return literal.value
  | .group _ inner => evaluate frame inner
  | .unary node op operand => do
      let value ← evaluate frame operand
      check node.span (op.apply value)
  | .binary node op left right => do
      let first ← evaluate frame left
      let second ← evaluate frame right
      check node.span (op.apply first second)
  | .logical _ op left right => do
      let first ← evaluate frame left
      if op.decidedBy first then return first else evaluate frame right
  | .var target => lookUp frame target.node target.name.name
  | .assign target value => do
      let value ← evaluate frame value
      assign frame target value
      return value
  | .call node callee arguments => do
      let callee ← evaluate frame callee
      let values ← evaluateAll frame arguments
      call node.span callee values
  | .get _ object name => do
      let value ← evaluate frame object
      let object ← asInstance name.span .propertyOfNoInstance value
      property object name
  | .set _ object name value => do
      let target ← evaluate frame object
      let object ← asInstance name.span .fieldOfNoInstance target
      let value ← evaluate frame value
      change fun store => store.setField object name.name value
      return value
  | .this node => lookUp frame node thisName
  | .super node name => superMethod frame node name

/-- One round of a loop. There is no result as long as another round has to follow. -/
def loopRound (frame : FrameId) (condition : Expr) (body : Stmt) : Eval (Option Flow) := do
  let value ← evaluate frame condition
  if value.isTruthy then
    match ← execute frame body with
    | .returned value => return some (.returned value)
    | .normal => return none
  else return some .normal

/-- What is done in one round for a statement. -/
def executeRound (frame : FrameId) : Stmt → Eval (Option Flow)
  | .expression e => do
      let _ ← evaluate frame e
      return some .normal
  | .print e => do
      let value ← evaluate frame e
      print value.text
      return some .normal
  | .var name initial => do
      let value ← evaluateOption frame initial
      change fun store => store.define frame name.name value
      return some .normal
  | .block body => do
      let inner ← create fun store => store.newScope frame
      some <$> executeAll inner body
  | .ifElse condition consequent alternative => do
      let value ← evaluate frame condition
      if value.isTruthy then some <$> execute frame consequent
      else
        match alternative with
        | some s => some <$> execute frame s
        | none => return some .normal
  | .while condition body => loopRound frame condition body
  | .function decl => do
      let value ← makeFunction ⟨decl, frame, false⟩
      change fun store => store.define frame decl.name.name value
      return some .normal
  | .return _ value => do
      let value ← evaluateOption frame value
      return some (.returned value)
  | .class name parent methods => do
      declareClass frame name parent methods
      return some .normal

end Eval

/-! ## Doing tasks -/

/-- What is done in one round for a task. There is no result if another round has to follow. -/
def Task.round : (task : Task) → Eval (Option task.Result)
  | .evaluate frame e => some <$> Eval.valueOf frame e
  | .execute frame s => Eval.executeRound frame s

/-- Does a task, and the tasks it asks for. -/
def perform (setting : Setting) : Nat → (task : Task) → Machine → Outcome task.Result
  | 0, _, _ => .timeout
  | fuel + 1, task, m =>
      match (task.round setting m).run (perform setting fuel) with
      | .ended (.ok (some result)) m => .ended (.ok result) m
      | .ended (.ok none) m => perform setting fuel task m
      | .ended (.error fault) m => .ended (.error fault) m
      | .timeout => .timeout

end Lox
