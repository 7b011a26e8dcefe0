import Lox.Eval.Basic
import Lox.Proofs.Scope.Visits
import Lox.Proofs.Store.Basic

/-!
# The census of classes and instances

Numbers are given to functions and classes in the order in which they are made, and so are those of
the instances. A census lists what has got them: the class that has a number, if it was given to a
class, and the class of each instance. While a program runs the census only gets longer, and all
classes and instances that values hold are listed in it under their numbers.

So what a class or an instance is can be told from its number, at any later time. And since a class
is listed after its superclass, no line of superclasses comes back to where it began.

`Census.Fits` says this of a store; every operation of the store keeps it.

Main statements: `Census.HasClass.unique` and `Census.HasInstance.unique`.
-/

namespace Lox

variable {α : Type}

/-- What has been made so far: for each number the class that has it, if it was given to a class, and
for each instance its class. -/
structure Census where
  classes : List (Option Class)
  instances : List Class

namespace Census

/-- A class is listed under its number. -/
def HasClass (k : Census) (c : Class) : Prop :=
  k.classes[c.id]? = some (some c)

/-- An instance is listed with its class. -/
def HasInstance (k : Census) (object : Instance) : Prop :=
  k.instances[object.id]? = some object.cls

/-- What a value is, if it is a class or an instance, is listed. -/
def Has (k : Census) : Value → Prop
  | .class c => k.HasClass c
  | .instance object => k.HasInstance object
  | _ => True

/-- What the result of a task is, is listed. -/
def Gives (k : Census) : (task : Task) → task.Result → Prop
  | .evaluate _ _, value => k.Has value
  | .execute _ _, .returned value => k.Has value
  | .execute _ _, .normal => True

/-- Nothing is taken from the lists or changed in them. -/
structure Extends (k l : Census) : Prop where
  classes : k.classes <+: l.classes
  instances : k.instances <+: l.instances

/-- A class is as its declaration says. -/
def Declares (d : ClassDecl) (c : Class) : Prop :=
  c.name = d.name.name ∧ ∃ frame, c.methods = Eval.closeMethods frame d.methods

/-- Classes come from declarations with the property `P`, and each of them after its superclass. The
classes of instances are listed as well. -/
structure Orderly (k : Census) (P : ClassDecl → Prop) : Prop where
  declared : ∀ c, k.HasClass c → ∃ d, P d ∧ Declares d c
  superclass : ∀ c, k.HasClass c → ∀ parent, c.superclass? = some parent →
    parent.id < c.id ∧ k.HasClass parent
  cls : ∀ object, k.HasInstance object → k.HasClass object.cls

/-- All numbers that have been given are listed, and with them all that the values of a store are. -/
structure Fits (k : Census) (P : ClassDecl → Prop) (s : Store) : Prop extends k.Orderly P where
  nextId : k.classes.length = s.nextId
  size : k.instances.length = s.fields.size
  values : ∀ f name v, s.value? f name = some v → k.Has v
  fields : ∀ object name v, s.field? object name = some v → k.Has v

variable {k l : Census} {P : ClassDecl → Prop} {s t : Store} {f : FrameId} {name : String}
  {value : Value} {c : Class}

/-! ## Longer lists -/

theorem Extends.refl (k : Census) : k.Extends k :=
  ⟨List.prefix_refl _, List.prefix_refl _⟩

theorem Extends.trans {n : Census} (hkl : k.Extends l) (hln : l.Extends n) : k.Extends n :=
  ⟨hkl.classes.trans hln.classes, hkl.instances.trans hln.instances⟩

theorem getElem?_of_prefix {xs ys : List α} (h : xs <+: ys) {i : Nat} {a : α}
    (ha : xs[i]? = some a) : ys[i]? = some a := by
  rcases h with ⟨rest, rfl⟩
  rw [List.getElem?_append_left (List.getElem?_eq_some_iff.mp ha).1]
  exact ha

theorem HasClass.extends (h : k.HasClass c) (hl : k.Extends l) : l.HasClass c :=
  getElem?_of_prefix hl.classes h

theorem Has.extends (h : k.Has value) (hl : k.Extends l) : l.Has value := by
  cases value with
  | «class» c => exact HasClass.extends h hl
  | «instance» object => exact getElem?_of_prefix hl.instances h
  | _ => trivial

theorem has_literal (k : Census) (literal : Literal) : k.Has literal.value := by
  cases literal <;> trivial

/-- No two classes have one number. -/
theorem HasClass.unique {c' : Class} (h : k.HasClass c) (h' : k.HasClass c') (heq : c.id = c'.id) :
    c = c' := by
  unfold HasClass at h h'
  rw [heq, h'] at h
  cases h
  rfl

/-- No instance has two classes. -/
theorem HasInstance.unique {o o' : Instance} (h : k.HasInstance o) (h' : k.HasInstance o')
    (heq : o.id = o'.id) : o = o' := by
  unfold HasInstance at h h'
  rw [heq, h'] at h
  cases o
  cases o'
  cases heq
  cases h
  rfl

theorem HasClass.lt (h : k.HasClass c) : c.id < k.classes.length :=
  (List.getElem?_eq_some_iff.mp h).1

/-! ## What is added -/

/-- A function has got the next number. -/
def skip (k : Census) : Census :=
  ⟨k.classes ++ [none], k.instances⟩

/-- A class has got the next number. -/
def addClass (k : Census) (c : Class) : Census :=
  ⟨k.classes ++ [some c], k.instances⟩

/-- An instance of a class has been made. -/
def addInstance (k : Census) (c : Class) : Census :=
  ⟨k.classes, k.instances ++ [c]⟩

theorem extends_skip (k : Census) : k.Extends k.skip :=
  ⟨List.prefix_append _ _, List.prefix_refl _⟩

theorem extends_addClass (k : Census) (c : Class) : k.Extends (k.addClass c) :=
  ⟨List.prefix_append _ _, List.prefix_refl _⟩

theorem extends_addInstance (k : Census) (c : Class) : k.Extends (k.addInstance c) :=
  ⟨List.prefix_refl _, List.prefix_append _ _⟩

/-- A list with one more entry at its end. -/
theorem getElem?_append_singleton {xs : List α} {x a : α} {i : Nat}
    (h : (xs ++ [x])[i]? = some a) : xs[i]? = some a ∨ (i = xs.length ∧ x = a) := by
  rw [List.getElem?_append] at h
  split at h
  · exact .inl h
  · rename_i hlt
    rw [List.getElem?_singleton] at h
    split at h
    · rename_i hzero
      cases h
      exact .inr ⟨by omega, rfl⟩
    · cases h

theorem hasClass_skip (h : k.skip.HasClass c) : k.HasClass c := by
  rcases getElem?_append_singleton h with h | ⟨-, heq⟩
  · exact h
  · cases heq

theorem hasClass_addClass {c' : Class} (h : (k.addClass c').HasClass c) : k.HasClass c ∨ c' = c := by
  rcases getElem?_append_singleton h with h | ⟨-, heq⟩
  · exact .inl h
  · cases heq
    exact .inr rfl

theorem hasClass_addClass_self (h : c.id = k.classes.length) : (k.addClass c).HasClass c := by
  rw [HasClass, addClass, h, List.getElem?_concat_length]

theorem hasInstance_addInstance {object : Instance} (h : (k.addInstance c).HasInstance object) :
    k.HasInstance object ∨ c = object.cls := by
  rcases getElem?_append_singleton h with h | ⟨-, heq⟩
  · exact .inl h
  · exact .inr heq

theorem Orderly.skip (h : k.Orderly P) : k.skip.Orderly P := by
  refine ⟨fun c hc => h.declared c (hasClass_skip hc), ?_, ?_⟩
  · intro c hc parent hparent
    rcases h.superclass c (hasClass_skip hc) parent hparent with ⟨hlt, hhas⟩
    exact ⟨hlt, hhas.extends k.extends_skip⟩
  · intro object hobject
    exact (h.cls object hobject).extends k.extends_skip

theorem Orderly.addClass {d : ClassDecl} (h : k.Orderly P) (hid : c.id = k.classes.length)
    (hd : P d) (hdeclares : Declares d c)
    (hsuper : ∀ parent, c.superclass? = some parent → k.HasClass parent) :
    (k.addClass c).Orderly P := by
  refine ⟨?_, ?_, ?_⟩
  · intro c' hc'
    rcases hasClass_addClass hc' with hc' | rfl
    · exact h.declared c' hc'
    · exact ⟨d, hd, hdeclares⟩
  · intro c' hc' parent hparent
    rcases hasClass_addClass hc' with hc' | rfl
    · rcases h.superclass c' hc' parent hparent with ⟨hlt, hhas⟩
      exact ⟨hlt, hhas.extends (k.extends_addClass c)⟩
    · -- The superclass was listed before, so its number is smaller.
      have hhas := hsuper parent hparent
      refine ⟨?_, hhas.extends (k.extends_addClass c)⟩
      rw [hid]
      exact hhas.lt
  · intro object hobject
    exact (h.cls object hobject).extends (k.extends_addClass c)

theorem Orderly.addInstance (h : k.Orderly P) (hc : k.HasClass c) : (k.addInstance c).Orderly P := by
  refine ⟨h.declared, h.superclass, ?_⟩
  intro object hobject
  rcases hasInstance_addInstance hobject with hobject | rfl
  · exact h.cls object hobject
  · exact hc

/-! ## Stores -/

namespace Fits

theorem define (h : k.Fits P s) (hvalue : k.Has value) : k.Fits P (s.define f name value) := by
  refine ⟨h.toOrderly, h.nextId, h.size, ?_, h.fields⟩
  intro g other v hv
  rw [Store.value?_define] at hv
  split at hv
  · cases hv
    exact hvalue
  · exact h.values g other v hv

theorem addFrame {outer : List FrameId} (h : k.Fits P s) : k.Fits P (s.addFrame outer).2 := by
  refine ⟨h.toOrderly, h.nextId, h.size, ?_, h.fields⟩
  intro g other v hv
  rw [Store.value?_addFrame] at hv
  exact h.values g other v hv

theorem setField {object : Instance} (h : k.Fits P s) (hvalue : k.Has value) :
    k.Fits P (s.setField object name value) := by
  refine ⟨h.toOrderly, h.nextId, ?_, h.values, ?_⟩
  · rw [h.size, Store.setField, Array.size_modify]
  · intro object' other v hv
    rw [Store.field?_setField] at hv
    split at hv
    · cases hv
      exact hvalue
    · exact h.fields object' other v hv

theorem skip (h : k.Fits P s) : k.skip.Fits P s.fresh.2 := by
  refine ⟨h.toOrderly.skip, ?_, h.size, ?_, ?_⟩
  · rw [Census.skip, List.length_append, h.nextId]
    rfl
  · intro g other v hv
    exact (h.values g other v hv).extends k.extends_skip
  · intro object other v hv
    exact (h.fields object other v hv).extends k.extends_skip

theorem addClass {d : ClassDecl} (h : k.Fits P s) (hid : c.id = s.nextId) (hd : P d)
    (hdeclares : Declares d c)
    (hsuper : ∀ parent, c.superclass? = some parent → k.HasClass parent) :
    (k.addClass c).Fits P s.fresh.2 ∧ (k.addClass c).HasClass c := by
  rw [← h.nextId] at hid
  refine ⟨⟨h.toOrderly.addClass hid hd hdeclares hsuper, ?_, h.size, ?_, ?_⟩,
    hasClass_addClass_self hid⟩
  · rw [Census.addClass, List.length_append, h.nextId]
    rfl
  · intro g other v hv
    exact (h.values g other v hv).extends (k.extends_addClass c)
  · intro object other v hv
    exact (h.fields object other v hv).extends (k.extends_addClass c)

theorem addInstance (h : k.Fits P s) (hc : k.HasClass c) :
    (k.addInstance c).Fits P (s.newInstance c).2 ∧
      (k.addInstance c).HasInstance (s.newInstance c).1 := by
  refine ⟨⟨h.toOrderly.addInstance hc, h.nextId, ?_, ?_, ?_⟩, ?_⟩
  · simp [Census.addInstance, Store.newInstance, h.size]
  · intro g other v hv
    exact (h.values g other v hv).extends (k.extends_addInstance c)
  · intro object other v hv
    rw [Store.field?_newInstance] at hv
    exact (h.fields object other v hv).extends (k.extends_addInstance c)
  · rw [HasInstance, Census.addInstance, Store.newInstance, ← h.size, List.getElem?_concat_length]

/-- A value that is looked for in some frame is held by the store. -/
theorem of_orUndefined {g? : Option FrameId} (h : k.Fits P s)
    (hv : Store.orUndefined name (g?.bind fun g => s.value? g name) = .ok value) : k.Has value := by
  cases hfound : g?.bind fun g => s.value? g name with
  | none =>
      rw [hfound] at hv
      cases hv
  | some v =>
      rw [hfound] at hv
      cases hv
      rcases Option.bind_eq_some_iff.mp hfound with ⟨g, -, hvalue⟩
      exact h.values g name value hvalue

/-- A store in which a name is changed in some frame. -/
theorem define_orUndefined {g? : Option FrameId} (h : k.Fits P s) (hvalue : k.Has value)
    (ht : Store.orUndefined name (g?.map fun g => s.define g name value) = .ok t) : k.Fits P t := by
  cases g? with
  | none =>
      cases ht
  | some g =>
      cases ht
      exact h.define hvalue

end Fits

end Census

end Lox
