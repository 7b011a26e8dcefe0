import Lox.Proofs.Eval.Standing

/-!
# Values that fit a program

A function that a running program holds can be called at any later time, so its frame must still
correspond to the scopes of its declaration. Here this is said of functions, methods, classes and
values, and of the whole store.

* `World.Stands` is the correspondence of frames and scopes, together with the place where methods
  find their instance and their superclass.
* `World.StoreFits` says that all values in a store fit. Every operation of the store keeps it.
-/

namespace Lox

/-- What a history of programs gives: the visits to their expressions, their statements, the classes
that their class declarations have made, each with the frame its methods close over, the methods that
have been bound to instances, each with the frame that binds `this`, and the frame of the globals. -/
structure World where
  visits : List Visit
  statements : List Stmt
  made : ClassDecl → FrameId → Class → Prop
  bound : Closure → Instance → FrameId → Prop
  root : FrameId

namespace Scopes

/-- The scopes around the one that binds `this`. -/
def aroundThis (scopes : Scopes) : Option Reference → Scopes
  | none => scopes
  | some parent => single superName parent.name.span :: scopes

theorem enterClass_eq (scopes : Scopes) (name : Ident) (parent : Option Reference) :
    scopes.enterClass name parent = single thisName name.span :: scopes.aroundThis parent := by
  cases parent <;> rfl

theorem distance?_put {scope : Scope} {outer : Scopes} {name other : String} {declared : Declared}
    (h : name ≠ other) :
    distance? (scope.put name declared :: outer) other = distance? (scope :: outer) other := by
  rw [distance?, distance?, Bindings.value?_put_of_ne _ _ h]

theorem distance?_define {scopes : Scopes} {name : Ident} {other : String} (h : name.name ≠ other) :
    (scopes.define name).distance? other = scopes.distance? other := by
  cases scopes with
  | nil => rfl
  | cons scope outer => exact distance?_put h

theorem distance?_declare {scopes : Scopes} {name : Ident} {other : String}
    (h : name.name ≠ other) : (scopes.declare name).distance? other = scopes.distance? other := by
  cases scopes with
  | nil => rfl
  | cons scope outer => exact distance?_put h

end Scopes

namespace World

variable {W : World} {s t : Store} {f g : FrameId} {owner : Option ClassDecl} {scopes : Scopes}

/-! ## Standing in a program -/

/-- The frame binds `super` to the class that a class inherits from which the declaration has
made. -/
def Derives (W : World) (s : Store) (d : ClassDecl) (f : FrameId) : Prop :=
  ∃ cls parent, W.made d f cls ∧ cls.superclass? = some parent ∧
    s.value? f superName = some (.class parent)

/-- Inside a class, `this` is found, and one step further out the superclass. -/
def Home (W : World) (s : Store) (f : FrameId) (scopes : Scopes) : Option ClassDecl → Prop
  | none => True
  | some d => ∃ near, scopes.distance? thisName = some near ∧
      (d.parent.isSome = true → scopes.distance? superName = some (near + 1) ∧
        ∃ g, s.ancestor? f (near + 1) = some g ∧ W.Derives s d g)

/-- A frame stands where resolution has the given scopes, inside the given class. -/
structure Stands (W : World) (s : Store) (f : FrameId) (owner : Option ClassDecl)
    (scopes : Scopes) : Prop where
  frames : s.Matches W.root f scopes
  home : W.Home s f scopes owner

/-- A frame where statements are executed. It binds no reserved word. -/
structure Hosts (W : World) (s : Store) (f : FrameId) (owner : Option ClassDecl)
    (scopes : Scopes) : Prop extends W.Stands s f owner scopes where
  opened : s.Open f

/-- A frame stands where the methods of a class close over it. -/
structure Shelters (W : World) (s : Store) (f : FrameId) (d : ClassDecl) (scopes : Scopes) :
    Prop where
  frames : s.Matches W.root f (scopes.aroundThis d.parent)
  derives : d.parent.isSome = true → W.Derives s d f

theorem Derives.grows {d : ClassDecl} (h : W.Derives s d f) (hg : s.Grows t) : W.Derives t d f := by
  rcases h with ⟨cls, parent, hmade, hsuper, hvalue⟩
  exact ⟨cls, parent, hmade, hsuper, hg.reserved f superName _ (by decide) hvalue⟩

namespace Stands

theorem grows (h : W.Stands s f owner scopes) (hg : s.Grows t) : W.Stands t f owner scopes := by
  refine ⟨h.frames.grows hg, ?_⟩
  cases owner with
  | none =>
      trivial
  | some d =>
      rcases h.home with ⟨near, hthis, hsuper⟩
      refine ⟨near, hthis, ?_⟩
      intro hparent
      rcases hsuper hparent with ⟨hdistance, g, hancestor, hderives⟩
      refine ⟨hdistance, g, ?_, hderives.grows hg⟩
      rw [Store.ancestor?_eq, hg.chain h.frames.inside, ← Store.ancestor?_eq]
      exact hancestor

/-- What is known of the frames and of the home goes on if the distances of `this` and `super` do. -/
theorem of_distances {scopes' : Scopes} (h : W.Stands s f owner scopes)
    (hframes : s.Matches W.root f scopes')
    (hthis : scopes'.distance? thisName = scopes.distance? thisName)
    (hsuper : scopes'.distance? superName = scopes.distance? superName) :
    W.Stands s f owner scopes' := by
  refine ⟨hframes, ?_⟩
  cases owner with
  | none =>
      trivial
  | some d =>
      rw [Home, hthis, hsuper]
      exact h.home

theorem define {name : Ident} (h : W.Stands s f owner scopes) (hname : name.IsWord)
    (hbound : (s.value? f name.name).isSome = true) :
    W.Stands s f owner (scopes.define name) :=
  h.of_distances (h.frames.define hname hbound) (Scopes.distance?_define hname.ne_this)
    (Scopes.distance?_define hname.ne_super)

theorem declare {name : Ident} (h : W.Stands s f owner scopes) (hname : name.IsWord) :
    W.Stands s f owner (scopes.declare name) :=
  h.of_distances (h.frames.declare hname) (Scopes.distance?_declare hname.ne_this)
    (Scopes.distance?_declare hname.ne_super)

/-- A frame of its own for a block or a call stands for a scope of its own. -/
theorem enter (h : W.Stands s f owner scopes) (hg : s.Grows t) (hinside : g < t.frames.size)
    (hchain : t.chain g = g :: s.chain f) : W.Stands t g owner ([] :: scopes) := by
  refine ⟨h.frames.push hg hinside hchain (t.binds_nil g), ?_⟩
  cases owner with
  | none =>
      trivial
  | some d =>
      rcases h.home with ⟨near, hthis, hsuper⟩
      refine ⟨near + 1, by simp [Scopes.distance?, hthis], ?_⟩
      intro hparent
      rcases hsuper hparent with ⟨hdistance, g', hancestor, hderives⟩
      refine ⟨by simp [Scopes.distance?, hdistance], g', ?_, hderives.grows hg⟩
      rw [Store.ancestor?_eq, hchain, List.getElem?_cons_succ, ← Store.ancestor?_eq]
      exact hancestor

end Stands

namespace Hosts

theorem grows (h : W.Hosts s f owner scopes) (hg : s.Grows t) : W.Hosts t f owner scopes :=
  ⟨h.toStands.grows hg, hg.opened f h.frames.inside h.opened⟩

theorem define {name : Ident} (h : W.Hosts s f owner scopes) (hname : name.IsWord)
    (hbound : (s.value? f name.name).isSome = true) : W.Hosts s f owner (scopes.define name) :=
  ⟨h.toStands.define hname hbound, h.opened⟩

theorem declare {name : Ident} (h : W.Hosts s f owner scopes) (hname : name.IsWord) :
    W.Hosts s f owner (scopes.declare name) :=
  ⟨h.toStands.declare hname, h.opened⟩

end Hosts

namespace Shelters

variable {d : ClassDecl}

theorem grows (h : W.Shelters s f d scopes) (hg : s.Grows t) : W.Shelters t f d scopes :=
  ⟨h.frames.grows hg, fun hparent => (h.derives hparent).grows hg⟩

/-- A frame that binds `this` inside the frame of the methods stands in the class. -/
theorem bind {object : Instance} (h : W.Shelters s f d scopes) (hg : s.Grows t)
    (hinside : g < t.frames.size) (hchain : t.chain g = g :: s.chain f)
    (hthis : t.value? g thisName = some (.instance object)) :
    W.Stands t g (some d) (scopes.enterClass d.name d.parent) := by
  have hsuits : (Value.instance object).Suits thisName :=
    ⟨fun _ => ⟨object, rfl⟩, fun heq => absurd heq (by decide)⟩
  rw [Scopes.enterClass_eq]
  refine ⟨h.frames.push hg hinside hchain (.single hthis hsuits), ?_⟩
  refine ⟨0, rfl, ?_⟩
  intro hparent
  rcases Option.isSome_iff_exists.mp hparent with ⟨parent, hsome⟩
  refine ⟨?_, f, ?_, (h.derives hparent).grows hg⟩
  · rw [hsome]
    rfl
  · rw [Store.ancestor?_eq, hchain]
    rfl

end Shelters

/-! ## Statements -/

/-- Statements of the programs. They are as reading gives them. -/
structure Sound (W : World) (ss : List Stmt) : Prop where
  sound : Stmt.Sound ss
  known : ∀ s ∈ ss, s ∈ W.statements

namespace Sound

variable {stmt : Stmt} {ss ts : List Stmt}

theorem left (h : W.Sound (ss ++ ts)) : W.Sound ss :=
  ⟨h.sound.left, fun s hs => h.known s (List.mem_append_left _ hs)⟩

theorem right (h : W.Sound (ss ++ ts)) : W.Sound ts :=
  ⟨h.sound.right, fun s hs => h.known s (List.mem_append_right _ hs)⟩

theorem tail (h : W.Sound (stmt :: ss)) : W.Sound ss :=
  ⟨h.sound.tail, fun s hs => h.known s (List.mem_cons_of_mem _ hs)⟩

theorem method {r : FunctionDecl} {methods : List FunctionDecl}
    (h : W.Sound (Stmt.partsMethods methods)) (hr : r ∈ methods) :
    W.Sound (Stmt.partsRoutine r) := by
  -- The parts of the methods stand one after the other in the list.
  induction methods with
  | nil =>
      cases hr
  | cons method methods ih =>
      rcases List.mem_cons.mp hr with rfl | hr
      · exact h.left
      · exact ih h.right hr

end Sound

/-- A function that a statement declares, or a method of a class that a statement declares. -/
def Declares (W : World) (r : FunctionDecl) : Prop :=
  Stmt.function r ∈ W.statements ∨ ∃ d : ClassDecl, d.statement ∈ W.statements ∧ r ∈ d.methods

/-! ## Functions, methods and classes -/

/-- The expressions of a routine are visited where it is declared, and the routine is as reading
gives it. -/
structure Knows (W : World) (owner : Option ClassDecl) (scopes : Scopes) (r : FunctionDecl) :
    Prop where
  visits : ∀ v ∈ Stmt.visitsRoutine owner scopes r, v ∈ W.visits
  sound : W.Sound (Stmt.partsRoutine r)
  parameters : ∀ i ∈ r.parameters, i.IsWord
  declared : W.Declares r

/-- A method has been bound to an instance in a frame. The frame binds `this` to the instance and
nothing else, and the body of the method may run in it. -/
structure Receives (W : World) (s : Store) (f : FrameId) (method : Closure) (object : Instance) :
    Prop where
  bound : W.bound method object f
  bindings : s.bindings f = [(thisName, .instance object)]
  initializer : method.isInitializer = (method.declaration.name.name == initializerName)
  stands : ∃ d scopes, W.Stands s f (some d) (Scopes.enterClass scopes d.name d.parent) ∧
    W.Knows (some d) (scopes.enterClass d.name d.parent) method.declaration

/-- A frame in which no statement runs: it binds `this` for a method, or `super` for the methods of a
class. -/
def Sealed (W : World) (s : Store) (f : FrameId) : Prop :=
  (∃ method object, W.Receives s f method object) ∨
    ∃ cls, s.bindings f = [(superName, .class cls)]

/-- A function value is made by a declaration, or it is a method that was bound to an instance. -/
def Stems (W : World) (s : Store) (c : Closure) : Prop :=
  (s.Open c.frame ∧ c.isInitializer = false) ∨
    ∃ method object, W.Receives s c.frame method object ∧ c = { method with frame := c.frame }

/-- A function whose frame stands where its body may run. -/
def FunctionFits (W : World) (s : Store) (c : Closure) : Prop :=
  (∃ owner scopes, W.Stands s c.frame owner scopes ∧ W.Knows owner scopes c.declaration) ∧
    W.Stems s c

/-- A method whose frame stands where its class was declared. It is bound to an instance before it
runs. -/
def MethodFits (W : World) (s : Store) (c : Closure) : Prop :=
  c.isInitializer = (c.declaration.name.name == initializerName) ∧
    ∃ d scopes, W.Shelters s c.frame d scopes ∧
      W.Knows (some d) (scopes.enterClass d.name d.parent) c.declaration

/-- A method that is listed under its own name. -/
def EntryFits (W : World) (s : Store) (entry : String × Closure) : Prop :=
  entry.1 = entry.2.declaration.name.name ∧ W.MethodFits s entry.2

/-- A class whose methods fit, those of the classes it inherits from included. -/
def ClassFits (W : World) (s : Store) : Class → Prop
  | .root _ _ methods => ∀ entry ∈ methods, W.EntryFits s entry
  | .derived _ _ methods superclass =>
      (∀ entry ∈ methods, W.EntryFits s entry) ∧ ClassFits W s superclass

/-- An instance of a class that fits. It has been made before. -/
structure InstanceFits (W : World) (s : Store) (object : Instance) : Prop where
  made : object.id < s.fields.size
  cls : W.ClassFits s object.cls

/-- A value that fits. -/
def Fits (W : World) (s : Store) : Value → Prop
  | .function _ closure => W.FunctionFits s closure
  | .class cls => W.ClassFits s cls
  | .instance object => W.InstanceFits s object
  | _ => True

theorem Receives.value? {method : Closure} {object : Instance}
    (h : W.Receives s f method object) : s.value? f thisName = some (.instance object) := by
  rw [Store.value?, h.bindings]
  rfl

theorem Receives.grows {method : Closure} {object : Instance} (h : W.Receives s f method object)
    (hg : s.Grows t) : W.Receives t f method object := by
  rcases h.stands with ⟨d, scopes, hstands, hknows⟩
  exact ⟨h.bound, hg.single (by decide) h.bindings, h.initializer, d, scopes, hstands.grows hg, hknows⟩

theorem Sealed.grows (h : W.Sealed s f) (hg : s.Grows t) : W.Sealed t f := by
  rcases h with ⟨method, object, hreceives⟩ | ⟨cls, hbindings⟩
  · exact .inl ⟨method, object, hreceives.grows hg⟩
  · exact .inr ⟨cls, hg.single (by decide) hbindings⟩

theorem FunctionFits.grows {c : Closure} (h : W.FunctionFits s c) (hg : s.Grows t) :
    W.FunctionFits t c := by
  rcases h with ⟨⟨owner, scopes, hstands, hknows⟩, hstems⟩
  refine ⟨⟨owner, scopes, hstands.grows hg, hknows⟩, ?_⟩
  rcases hstems with ⟨hopen, hplain⟩ | ⟨method, object, hreceives, heq⟩
  · exact .inl ⟨hg.opened c.frame hstands.frames.inside hopen, hplain⟩
  · exact .inr ⟨method, object, hreceives.grows hg, heq⟩

theorem EntryFits.grows {entry : String × Closure} (h : W.EntryFits s entry) (hg : s.Grows t) :
    W.EntryFits t entry := by
  rcases h with ⟨hname, hinitializer, d, scopes, hshelters, hknows⟩
  exact ⟨hname, hinitializer, d, scopes, hshelters.grows hg, hknows⟩

theorem ClassFits.grows {cls : Class} (h : W.ClassFits s cls) (hg : s.Grows t) :
    W.ClassFits t cls := by
  induction cls with
  | root id name methods =>
      intro entry hentry
      exact (h entry hentry).grows hg
  | derived id name methods superclass ih =>
      refine ⟨?_, ih h.2⟩
      intro entry hentry
      exact (h.1 entry hentry).grows hg

theorem InstanceFits.grows {object : Instance} (h : W.InstanceFits s object) (hg : s.Grows t) :
    W.InstanceFits t object :=
  ⟨Nat.lt_of_lt_of_le h.made hg.fields, h.cls.grows hg⟩

theorem Fits.grows {v : Value} (h : W.Fits s v) (hg : s.Grows t) : W.Fits t v := by
  cases v with
  | function id closure => exact FunctionFits.grows h hg
  | «class» cls => exact ClassFits.grows h hg
  | «instance» object => exact InstanceFits.grows h hg
  | _ => trivial

theorem fits_literal (W : World) (s : Store) (literal : Literal) : W.Fits s literal.value := by
  cases literal <;> trivial

theorem ClassFits.method {cls : Class} {name : String} {c : Closure} (h : W.ClassFits s cls)
    (hmethod : cls.method? name = some c) : W.EntryFits s (name, c) := by
  induction cls with
  | root id own methods =>
      rw [Class.method?_root] at hmethod
      exact h _ (Bindings.mem_of_value? hmethod)
  | derived id own methods superclass ih =>
      -- A method is one of the class itself, or else it is inherited.
      rw [Class.method?_derived, Option.or_eq_some_iff] at hmethod
      rcases hmethod with hmethod | ⟨-, hmethod⟩
      · exact h.1 _ (Bindings.mem_of_value? hmethod)
      · exact ih h.2 hmethod

theorem ClassFits.make {id : Nat} {name : String} {methods : Bindings Closure}
    {superclass : Option Class} (hmethods : ∀ entry ∈ methods, W.EntryFits s entry)
    (hsuper : ∀ cls ∈ superclass, W.ClassFits s cls) :
    W.ClassFits s (.make id name methods superclass) := by
  cases superclass with
  | none => exact hmethods
  | some cls => exact ⟨hmethods, hsuper cls rfl⟩

/-! ## Stores -/

/-- All values in a store fit, and every frame is one where statements run or it is sealed. The
globals have no frame around them. -/
structure StoreFits (W : World) (s : Store) : Prop where
  root : s.Matches W.root W.root []
  rootOpen : s.Open W.root
  nested : ∀ f, f < s.frames.size → s.Nested f
  frames : ∀ f, f < s.frames.size → s.Open f ∨ W.Sealed s f
  values : ∀ f name v, s.value? f name = some v → W.Fits s v
  fields : ∀ object name v, s.field? object name = some v → W.Fits s v

namespace StoreFits

theorem tidy (h : W.StoreFits s) : s.Tidy := by
  intro f
  -- A frame that does not exist binds nothing, so it is open.
  by_cases hf : f < s.frames.size
  · rcases h.frames f hf with hopen | ⟨method, object, hreceives⟩ | ⟨cls, hbindings⟩
    · exact .inl hopen
    · exact .inr ⟨thisName, _, by decide, hreceives.bindings⟩
    · exact .inr ⟨superName, _, by decide, hbindings⟩
  · exact .inl (Store.open_of_size_le (Nat.le_of_not_lt hf))

theorem grows (h : W.StoreFits s) (hg : s.Grows t)
    (hframes : ∀ f, s.frames.size ≤ f → f < t.frames.size →
      t.Nested f ∧ (t.Open f ∨ W.Sealed t f))
    (hvalues : ∀ f name v, t.value? f name = some v → s.value? f name = some v ∨ W.Fits t v)
    (hfields : ∀ object name v, t.field? object name = some v →
      s.field? object name = some v ∨ W.Fits t v) : W.StoreFits t := by
  refine ⟨h.root.grows hg, hg.opened _ h.root.inside h.rootOpen, ?_, ?_, ?_, ?_⟩
  · intro f hf
    rcases Nat.lt_or_ge f s.frames.size with hold | hnew
    · exact hg.nested (h.nested f hold)
    · exact (hframes f hnew hf).1
  · intro f hf
    rcases Nat.lt_or_ge f s.frames.size with hold | hnew
    · exact (h.frames f hold).imp (hg.opened f hold) fun hsealed => hsealed.grows hg
    · exact (hframes f hnew hf).2
  · intro f name v hv
    rcases hvalues f name v hv with hold | hnew
    · exact (h.values f name v hold).grows hg
    · exact hnew
  · intro object name v hv
    rcases hfields object name v hv with hold | hnew
    · exact (h.fields object name v hold).grows hg
    · exact hnew

/-- No frame is new. -/
theorem grows_of_size (h : W.StoreFits s) (hg : s.Grows t) (hsize : t.frames.size = s.frames.size)
    (hvalues : ∀ f name v, t.value? f name = some v → s.value? f name = some v ∨ W.Fits t v)
    (hfields : ∀ object name v, t.field? object name = some v →
      s.field? object name = some v ∨ W.Fits t v) : W.StoreFits t := by
  refine h.grows hg ?_ hvalues hfields
  intro f hle hlt
  -- The sizes are equal, so no index is new.
  rw [hsize] at hlt
  exact absurd hlt (Nat.not_lt_of_ge hle)

theorem define {name : String} {value : Value} (h : W.StoreFits s)
    (hg : s.Grows (s.define f name value)) (hvalue : W.Fits (s.define f name value) value) :
    W.StoreFits (s.define f name value) := by
  refine h.grows_of_size hg Store.size_define ?_ fun object name v hv => .inl hv
  intro g other v hv
  rw [Store.value?_define] at hv
  split at hv
  · cases hv
    exact .inr hvalue
  · exact .inl hv

theorem newScope (h : W.StoreFits s) (hf : f < s.frames.size) : W.StoreFits (s.newScope f).2 := by
  have hg : s.Grows (s.newScope f).2 := .addFrame
  refine h.grows hg ?_ ?_ fun object name v hv => .inl hv
  · intro g hle hlt
    -- The only new frame is the scope that is made.
    have heq : g = s.frames.size := by
      rw [Store.newScope, Store.size_addFrame] at hlt
      omega
    subst heq
    refine ⟨hg.nested_push (h.nested f hf) hlt ?_, .inl ?_⟩
    · rw [Store.chain, Store.newScope, Store.outer_addFrame, if_pos rfl]
    · exact (Store.open_of_size_le (Nat.le_refl _)).of_bindings Store.bindings_addFrame
  · intro g other v hv
    rw [Store.newScope, Store.value?_addFrame] at hv
    exact .inl hv

theorem newBound {name : String} {value : Value} (h : W.StoreFits s) (hf : f < s.frames.size)
    (hvalue : W.Fits (s.newBound f name value) value)
    (hsealed : W.Sealed (s.newBound f name value) s.frames.size) :
    W.StoreFits (s.newBound f name value) := by
  have hg : s.Grows (s.newBound f name value) := .newBound
  refine h.grows hg ?_ ?_ fun object name v hv => .inl hv
  · intro g hle hlt
    have heq : g = s.frames.size := by
      rw [Store.size_newBound] at hlt
      omega
    subst heq
    exact ⟨hg.nested_push (h.nested f hf) hlt Store.chain_newBound, .inr hsealed⟩
  · intro g other v hv
    rw [Store.newBound, Store.value?_define] at hv
    split at hv
    · cases hv
      exact .inr hvalue
    · rw [Store.newScope, Store.value?_addFrame] at hv
      exact .inl hv

theorem fresh (h : W.StoreFits s) : W.StoreFits s.fresh.2 :=
  h.grows_of_size .fresh rfl (fun _ _ _ hv => .inl hv) (fun _ _ _ hv => .inl hv)

theorem newInstance {cls : Class} (h : W.StoreFits s) : W.StoreFits (s.newInstance cls).2 := by
  refine h.grows_of_size .newInstance rfl (fun _ _ _ hv => .inl hv) ?_
  intro object name v hv
  rw [Store.field?_newInstance] at hv
  exact .inl hv

theorem setField {object : Instance} {name : String} {value : Value} (h : W.StoreFits s)
    (hvalue : W.Fits s value) : W.StoreFits (s.setField object name value) := by
  have hg : s.Grows (s.setField object name value) := .setField
  refine h.grows_of_size hg rfl (fun _ _ _ hv => .inl hv) ?_
  intro object' other v hv
  rw [Store.field?_setField] at hv
  split at hv
  · cases hv
    exact .inr (hvalue.grows hg)
  · exact .inl hv

end StoreFits

/-! ## Operations that look for a frame -/

theorem fits_of_getAt {d : Nat} {name : String} {v : Value} (h : W.StoreFits s)
    (hv : s.getAt f d name = .ok v) : W.Fits s v := by
  unfold Store.getAt at hv
  cases hancestor : s.ancestor? f d with
  | none =>
      rw [hancestor] at hv
      cases hv
  | some g =>
      rw [hancestor, Option.bind_some] at hv
      cases hvalue : s.value? g name with
      | none =>
          rw [hvalue] at hv
          cases hv
      | some v' =>
          rw [hvalue] at hv
          cases hv
          exact h.values g name _ hvalue

theorem fits_of_get {name : String} {v : Value} (h : W.StoreFits s) (hv : s.get f name = .ok v) :
    W.Fits s v := by
  unfold Store.get at hv
  cases hholder : s.holder? f name with
  | none =>
      rw [hholder] at hv
      cases hv
  | some g =>
      rw [hholder, Option.bind_some] at hv
      cases hvalue : s.value? g name with
      | none =>
          rw [hvalue] at hv
          cases hv
      | some v' =>
          rw [hvalue] at hv
          cases hv
          exact h.values g name _ hvalue

theorem storeFits_of_assign {name : String} {value : Value} (h : W.StoreFits s)
    (hname : Keyword.ofText? name = none) (hvalue : W.Fits s value)
    (hassign : s.assign f name value = .ok t) : W.StoreFits t := by
  -- The name is no keyword, so the assignment changes no sealed frame.
  have hg : s.Grows t := .assign h.tidy hname hassign
  unfold Store.assign at hassign
  cases hholder : s.holder? f name with
  | none =>
      rw [hholder] at hassign
      cases hassign
  | some g =>
      rw [hholder] at hassign
      cases hassign
      exact h.define hg (hvalue.grows hg)

theorem storeFits_of_assignAt {d : Nat} {name : String} {value : Value} (h : W.StoreFits s)
    (hname : Keyword.ofText? name = none) (hvalue : W.Fits s value)
    (hassign : s.assignAt f d name value = .ok t) : W.StoreFits t := by
  have hg : s.Grows t := .assignAt h.tidy hname hassign
  unfold Store.assignAt at hassign
  cases hholder : (s.ancestor? f d).filter fun g => (s.value? g name).isSome with
  | none =>
      rw [hholder] at hassign
      cases hassign
  | some g =>
      rw [hholder] at hassign
      cases hassign
      exact h.define hg (hvalue.grows hg)

end World

end Lox
