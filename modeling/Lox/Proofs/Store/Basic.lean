import Lox.Store.Basic

/-!
# What the operations on the store change

For each operation: the frames around a frame, the values of names, and the fields of instances
afterwards.
-/

namespace Lox

namespace Store

variable {s : Store} {f g : FrameId} {name other : String} {value : Value} {object : Instance}

theorem ancestor?_eq (s : Store) (f : FrameId) (d : Nat) :
    s.ancestor? f d = (s.chain f)[d]? := by
  cases d <;> rfl

/-! ## Binding a name -/

@[simp] theorem size_define : (s.define f name value).frames.size = s.frames.size := by
  simp [define]

@[simp] theorem outer_define : (s.define f name value).outer g = s.outer g := by
  unfold outer define
  rw [Array.getElem?_modify]
  split
  · cases s.frames[g]? <;> rfl
  · rfl

@[simp] theorem chain_define : (s.define f name value).chain g = s.chain g := by
  simp [chain]

@[simp] theorem ancestor?_define {d : Nat} :
    (s.define f name value).ancestor? g d = s.ancestor? g d := by
  cases d <;> simp [ancestor?]

theorem bindings_define : (s.define f name value).bindings g =
    if f = g ∧ f < s.frames.size then (s.bindings g).put name value else s.bindings g := by
  unfold bindings define
  rw [Array.getElem?_modify]
  by_cases hfg : f = g
  · subst hfg
    by_cases hf : f < s.frames.size
    · simp [hf]
    · simp [hf]
  · simp [hfg]

theorem value?_define : (s.define f name value).value? g other =
    if f = g ∧ f < s.frames.size ∧ name = other then some value else s.value? g other := by
  rw [Store.value?, bindings_define]
  by_cases hfg : f = g ∧ f < s.frames.size
  · rw [if_pos hfg, Bindings.value?_put]
    by_cases hname : name = other
    · rw [if_pos hname, if_pos ⟨hfg.1, hfg.2, hname⟩]
    · rw [if_neg hname, if_neg fun h => hname h.2.2]
      rfl
  · rw [if_neg hfg, if_neg fun h => hfg ⟨h.1, h.2.1⟩]
    rfl

theorem value?_define_self (hf : f < s.frames.size) :
    (s.define f name value).value? f name = some value := by
  rw [value?_define, if_pos ⟨rfl, hf, rfl⟩]

@[simp] theorem field?_define :
    (s.define f name value).field? object other = s.field? object other :=
  rfl

/-! ## Adding a frame -/

variable {outer' : List FrameId}

@[simp] theorem size_addFrame : (s.addFrame outer').2.frames.size = s.frames.size + 1 := by
  simp [addFrame]

theorem outer_addFrame : (s.addFrame outer').2.outer g =
    if g = s.frames.size then outer' else s.outer g := by
  unfold outer addFrame
  rw [Array.getElem?_push]
  split
  · rfl
  · rfl

theorem bindings_addFrame : (s.addFrame outer').2.bindings g = s.bindings g := by
  unfold bindings addFrame
  rw [Array.getElem?_push]
  split
  · rename_i hg
    subst hg
    simp
  · rfl

theorem value?_addFrame : (s.addFrame outer').2.value? g name = s.value? g name := by
  rw [Store.value?, bindings_addFrame, Store.value?]

/-- A new frame binds nothing. -/
theorem bindings_of_size_le (h : s.frames.size ≤ f) : s.bindings f = [] := by
  rw [bindings, Array.getElem?_eq_none h]
  rfl

theorem value?_of_size_le (h : s.frames.size ≤ f) : s.value? f name = none := by
  rw [Store.value?, bindings_of_size_le h]
  rfl

@[simp] theorem field?_addFrame :
    (s.addFrame outer').2.field? object name = s.field? object name :=
  rfl

/-! ## Instances and numbers -/

theorem field?_newInstance {cls : Class} :
    (s.newInstance cls).2.field? object name = s.field? object name := by
  unfold field? newInstance
  rw [Array.getElem?_push]
  split
  · rename_i hobject
    rw [hobject]
    simp
  · rfl

theorem field?_setField {object' : Instance} :
    (s.setField object name value).field? object' other =
      if object.id = object'.id ∧ object.id < s.fields.size ∧ name = other then some value
      else s.field? object' other := by
  unfold field? setField
  rw [Array.getElem?_modify]
  by_cases hid : object.id = object'.id
  · by_cases hsize : object'.id < s.fields.size
    · simp [hid, hsize, Bindings.value?_put]
    · simp [hid, hsize]
  · simp [hid]

end Store

end Lox
