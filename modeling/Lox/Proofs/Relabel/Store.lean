import Lox.Proofs.Relabel.Value
import Lox.Store.Basic

/-!
# Stores with other numbers and places

Every operation on the store gives the same after a change of the numbers and places in the values it
holds.
-/

namespace Lox

variable {f : Relabel}

theorem map_modify {α β : Type} (g : α → β) (step : α → α) (step' : β → β)
    (h : ∀ a, step' (g a) = g (step a)) (xs : Array α) (i : Nat) :
    (xs.map g).modify i step' = (xs.modify i step).map g := by
  apply Array.ext_getElem?
  intro j
  simp only [Array.getElem?_modify, Array.getElem?_map]
  split
  · cases xs[j]? with
    | none =>
        rfl
    | some a =>
        exact congrArg some (h a)
  · rfl

/-- Variables, or fields, with other numbers and places in their values. -/
abbrev Value.relabelTable (f : Relabel) : Bindings Value → Bindings Value :=
  Bindings.mapValues (Value.relabel f)

theorem Value.relabelTable_printing (before : List String) (b : Bindings Value) :
    relabelTable (.printing before) b = b := by
  simp [Bindings.mapValues, relabel_printing]

def Frame.relabel (f : Relabel) (frame : Frame) : Frame :=
  ⟨frame.outer, Value.relabelTable f frame.bindings⟩

namespace Store

/-- A store with other numbers and places in its values. -/
def relabel (f : Relabel) (s : Store) : Store :=
  ⟨s.frames.map (Frame.relabel f), s.fields.map (Value.relabelTable f), s.nextId⟩

variable {s : Store}

theorem relabel_printing (before : List String) (s : Store) :
    s.relabel (.printing before) = s := by
  have hframe : Frame.relabel (.printing before) = id := by
    funext frame
    exact congrArg (Frame.mk frame.outer) (Value.relabelTable_printing before frame.bindings)
  have hfields : Value.relabelTable (.printing before) = id := by
    funext b
    exact Value.relabelTable_printing before b
  simp [relabel, hframe, hfields]

/-! ## Frames -/

@[simp] theorem relabel_outer (frame : FrameId) :
    (s.relabel f).outer frame = s.outer frame := by
  simp only [outer, relabel, Array.getElem?_map]
  cases s.frames[frame]? <;> rfl

@[simp] theorem relabel_chain (frame : FrameId) :
    (s.relabel f).chain frame = s.chain frame := by
  simp [chain]

@[simp] theorem relabel_ancestor? (frame : FrameId) (distance : Nat) :
    (s.relabel f).ancestor? frame distance = s.ancestor? frame distance := by
  cases distance <;> simp [ancestor?]

theorem relabel_value? (frame : FrameId) (name : String) :
    (s.relabel f).value? frame name = (s.value? frame name).map (Value.relabel f) := by
  simp only [value?, bindings, relabel, Array.getElem?_map]
  cases s.frames[frame]? with
  | none =>
      rfl
  | some own =>
      exact Bindings.value?_mapValues (Value.relabel f) own.bindings name

@[simp] theorem relabel_holder? (frame : FrameId) (name : String) :
    (s.relabel f).holder? frame name = s.holder? frame name := by
  simp [holder?, relabel_value?]

theorem relabel_addFrame (outer : List FrameId) :
    (s.relabel f).addFrame outer = (s.addFrame outer).map id (relabel f) := by
  simp [addFrame, relabel, Frame.relabel, Bindings.mapValues]

theorem relabel_define (frame : FrameId) (name : String) (value : Value) :
    (s.relabel f).define frame name (value.relabel f) =
      (s.define frame name value).relabel f := by
  have hframes := map_modify (Frame.relabel f)
    (fun own : Frame => { own with bindings := own.bindings.put name value })
    (fun own : Frame => { own with bindings := own.bindings.put name (value.relabel f) })
    (fun own => congrArg (Frame.mk own.outer) (Bindings.mapValues_put _ _ _ _).symm) s.frames frame
  exact congrArg (Store.mk · (s.relabel f).fields s.nextId) hframes

/-- A store that has only globals holds nothing that can change. -/
theorem relabel_newGlobals : empty.newGlobals.2.relabel f = empty.newGlobals.2 := by
  let root : FrameId × Store := empty.fresh.2.newRoot
  have hroot : root.2.relabel f = root.2 := by
    simp [root, newRoot, addFrame, fresh, empty, relabel, Frame.relabel, Bindings.mapValues]
  have hdefine := relabel_define (f := f) (s := root.2) root.1 clockName (.native empty.fresh.1)
  rw [hroot] at hdefine
  exact hdefine.symm

/-! ## Looking up and assigning -/

theorem orUndefined_map {α β : Type} (name : String) (g : α → β) (a? : Option α) :
    orUndefined name (a?.map g) = FaultCause.relabelOr f g (orUndefined name a?) := by
  cases a? <;> rfl

theorem relabel_get (frame : FrameId) (name : String) :
    (s.relabel f).get frame name =
      FaultCause.relabelOr f (Value.relabel f) (s.get frame name) := by
  unfold get
  rw [relabel_holder?, ← orUndefined_map]
  cases s.holder? frame name with
  | none =>
      rfl
  | some holder =>
      exact congrArg (orUndefined name) (relabel_value? holder name)

theorem relabel_getAt (frame : FrameId) (distance : Nat) (name : String) :
    (s.relabel f).getAt frame distance name =
      FaultCause.relabelOr f (Value.relabel f) (s.getAt frame distance name) := by
  unfold getAt
  rw [relabel_ancestor?, ← orUndefined_map]
  cases s.ancestor? frame distance with
  | none =>
      rfl
  | some ancestor =>
      exact congrArg (orUndefined name) (relabel_value? ancestor name)

theorem relabel_assign (frame : FrameId) (name : String) (value : Value) :
    (s.relabel f).assign frame name (value.relabel f) =
      FaultCause.relabelOr f (relabel f) (s.assign frame name value) := by
  unfold assign
  rw [relabel_holder?, ← orUndefined_map]
  cases s.holder? frame name with
  | none =>
      rfl
  | some holder =>
      exact congrArg Except.ok (relabel_define holder name value)

theorem relabel_assignAt (frame : FrameId) (distance : Nat) (name : String) (value : Value) :
    (s.relabel f).assignAt frame distance name (value.relabel f) =
      FaultCause.relabelOr f (relabel f) (s.assignAt frame distance name value) := by
  have hbound : (fun g => ((s.relabel f).value? g name).isSome) =
      fun g => (s.value? g name).isSome := by
    funext g
    simp [relabel_value?]
  unfold assignAt
  rw [relabel_ancestor?, ← orUndefined_map, hbound]
  cases (s.ancestor? frame distance).filter fun g => (s.value? g name).isSome with
  | none =>
      rfl
  | some ancestor =>
      exact congrArg Except.ok (relabel_define ancestor name value)

/-! ## Instances -/

theorem relabel_newInstance (cls : Class) :
    (s.relabel f).newInstance (cls.relabel f) =
      (s.newInstance cls).map (Instance.relabel f) (relabel f) := by
  simp [newInstance, relabel, Instance.relabel, Bindings.mapValues]

theorem relabel_field? (object : Instance) (name : String) :
    (s.relabel f).field? (object.relabel f) name =
      (s.field? object name).map (Value.relabel f) := by
  simp only [field?, relabel, Instance.relabel, Array.getElem?_map]
  cases s.fields[object.id]? with
  | none =>
      rfl
  | some fields =>
      exact Bindings.value?_mapValues (Value.relabel f) fields name

theorem relabel_setField (object : Instance) (name : String) (value : Value) :
    (s.relabel f).setField (object.relabel f) name (value.relabel f) =
      (s.setField object name value).relabel f := by
  have hfields := map_modify (Value.relabelTable f)
    (fun own : Bindings Value => own.put name value)
    (fun own : Bindings Value => own.put name (value.relabel f))
    (fun own => (Bindings.mapValues_put _ _ _ _).symm) s.fields object.id
  exact congrArg (Store.mk (s.relabel f).frames · s.nextId) hfields

end Store

end Lox
