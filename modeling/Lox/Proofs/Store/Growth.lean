import Lox.Proofs.Store.Basic
import Lox.Proofs.Syntax.Parts

/-!
# What stays in a store

A running program adds frames and bindings and changes values. It never changes the frames around a
frame and never takes a binding away. A frame that binds `this` or `super` binds nothing else and is
sealed: what it binds never changes.

Main statement: `Store.Grows.trans`, and for each operation of the store that the store grows.
-/

namespace Lox

namespace Store

/-- A frame binds no reserved word, so statements may run in it. -/
def Open (s : Store) (f : FrameId) : Prop :=
  ∀ name, Keyword.ofText? name ≠ none → s.value? f name = none

/-- A frame that is not open binds one reserved word and nothing else. -/
def Tidy (s : Store) : Prop :=
  ∀ f, s.Open f ∨ ∃ name value, Keyword.ofText? name ≠ none ∧ s.bindings f = [(name, value)]

/-- How a store changes while a program runs. -/
structure Grows (s t : Store) : Prop where
  size : s.frames.size ≤ t.frames.size
  outer : ∀ f, f < s.frames.size → t.outer f = s.outer f
  bound : ∀ f name, (s.value? f name).isSome = true → (t.value? f name).isSome = true
  sealed : ∀ f, ¬s.Open f → t.bindings f = s.bindings f
  opened : ∀ f, f < s.frames.size → s.Open f → t.Open f
  fields : s.fields.size ≤ t.fields.size

/-- The frames around a frame exist, and those around each of them are the ones that follow it. -/
def Nested (s : Store) (f : FrameId) : Prop :=
  ∀ g ∈ s.chain f, g < s.frames.size ∧ s.chain g <:+ s.chain f

/-- A store with one more frame inside another one, which binds a name from the beginning. -/
def newBound (s : Store) (f : FrameId) (name : String) (value : Value) : Store :=
  (s.newScope f).2.define s.frames.size name value

variable {s t u : Store} {f g : FrameId} {name : String} {value : Value}

@[simp] theorem size_newBound :
    (s.newBound f name value).frames.size = s.frames.size + 1 := by
  simp [newBound, newScope]

theorem chain_newBound :
    (s.newBound f name value).chain s.frames.size = s.frames.size :: s.chain f := by
  rw [newBound, chain_define, chain, newScope, outer_addFrame, if_pos rfl]

theorem bindings_newBound :
    (s.newBound f name value).bindings s.frames.size = [(name, value)] := by
  rw [newBound, bindings_define, newScope, size_addFrame, if_pos ⟨rfl, Nat.lt_succ_self _⟩,
    bindings_addFrame, bindings_of_size_le (Nat.le_refl _)]
  rfl

theorem value?_newBound :
    (s.newBound f name value).value? s.frames.size name = some value := by
  rw [newBound, value?_define_self (by simp [newScope])]

theorem Open.of_bindings (h : s.Open f) (hbindings : t.bindings f = s.bindings f) : t.Open f := by
  intro name hname
  rw [Store.value?, hbindings]
  exact h name hname

/-- What is bound nowhere is open. -/
theorem open_of_size_le (h : s.frames.size ≤ f) : s.Open f :=
  fun _ _ => value?_of_size_le h

theorem not_open (hname : Keyword.ofText? name ≠ none) (hvalue : s.value? f name = some value) :
    ¬s.Open f := by
  intro h
  rw [h name hname] at hvalue
  cases hvalue

/-- A frame that binds a name which is no reserved word is open. -/
theorem Tidy.open_of_bound (h : s.Tidy) (hname : Keyword.ofText? name = none)
    (hbound : (s.value? f name).isSome = true) : s.Open f := by
  refine (h f).resolve_right ?_
  rintro ⟨other, value, hother, hbindings⟩
  have hmem : name ∈ (s.bindings f).names := (Bindings.mem_names_iff _ _).mpr hbound
  rw [hbindings, Bindings.names, List.map_singleton, List.mem_singleton] at hmem
  have heq : name = other := hmem
  subst heq
  exact hother hname

namespace Grows

theorem refl (s : Store) : s.Grows s :=
  ⟨Nat.le_refl _, fun _ _ => rfl, fun _ _ h => h, fun _ _ => rfl, fun _ _ h => h, Nat.le_refl _⟩

theorem trans (hst : s.Grows t) (htu : t.Grows u) : s.Grows u := by
  refine ⟨Nat.le_trans hst.size htu.size, ?_, ?_, ?_, ?_, Nat.le_trans hst.fields htu.fields⟩
  · intro f hf
    rw [htu.outer f (Nat.lt_of_lt_of_le hf hst.size), hst.outer f hf]
  · intro f name h
    exact htu.bound f name (hst.bound f name h)
  · intro f hclosed
    have hbindings : t.bindings f = s.bindings f := hst.sealed f hclosed
    have hclosed' : ¬t.Open f := fun h => hclosed (h.of_bindings hbindings.symm)
    rw [htu.sealed f hclosed', hbindings]
  · intro f hf hopen
    exact htu.opened f (Nat.lt_of_lt_of_le hf hst.size) (hst.opened f hf hopen)

theorem chain (h : s.Grows t) (hf : f < s.frames.size) : t.chain f = s.chain f := by
  rw [Store.chain, Store.chain, h.outer f hf]

theorem nested (h : s.Grows t) (hnested : s.Nested f) : t.Nested f := by
  have hf : f < s.frames.size := (hnested f List.mem_cons_self).1
  rw [Nested, h.chain hf]
  intro g hg
  rcases hnested g hg with ⟨hlt, hsuffix⟩
  rw [h.chain hlt]
  exact ⟨Nat.lt_of_lt_of_le hlt h.size, hsuffix⟩

/-- A frame inside another one. -/
theorem nested_push (h : s.Grows t) (hnested : s.Nested f) (hinside : g < t.frames.size)
    (hchain : t.chain g = g :: s.chain f) : t.Nested g := by
  have hf : f < s.frames.size := (hnested f List.mem_cons_self).1
  have hnested' : t.Nested f := h.nested hnested
  intro g' hg'
  rw [hchain] at hg'
  rcases List.mem_cons.mp hg' with rfl | hg'
  · exact ⟨hinside, List.suffix_refl _⟩
  · rw [← h.chain hf] at hg'
    rcases hnested' g' hg' with ⟨hlt, hsuffix⟩
    rw [hchain, ← h.chain hf]
    exact ⟨hlt, hsuffix.trans (List.suffix_cons _ _)⟩

/-- The value of a reserved word never changes. -/
theorem reserved (h : s.Grows t) (f : FrameId) (name : String) (value : Value)
    (hname : Keyword.ofText? name ≠ none) (hvalue : s.value? f name = some value) :
    t.value? f name = some value := by
  rw [Store.value?, h.sealed f (not_open hname hvalue)]
  exact hvalue

/-- A frame that binds one reserved word and nothing else stays as it is. -/
theorem single (h : s.Grows t) (hname : Keyword.ofText? name ≠ none)
    (hbindings : s.bindings f = [(name, value)]) : t.bindings f = [(name, value)] := by
  have hvalue : s.value? f name = some value := by
    rw [Store.value?, hbindings, Bindings.value?, if_pos rfl]
  rw [h.sealed f (not_open hname hvalue), hbindings]

/-- A store that has the same frames, and no fewer instances. -/
theorem of_frames (h : t.frames = s.frames) (hfields : s.fields.size ≤ t.fields.size) :
    s.Grows t := by
  have hbindings : ∀ f, t.bindings f = s.bindings f := by
    intro f
    simp only [Store.bindings, h]
  refine ⟨Nat.le_of_eq (congrArg Array.size h.symm), ?_, ?_, ?_, ?_, hfields⟩
  · intro f _
    simp only [Store.outer, h]
  · intro f name hbound
    rwa [Store.value?, hbindings]
  · intro f _
    exact hbindings f
  · intro f _ hopen
    exact hopen.of_bindings (hbindings f)

theorem fresh : s.Grows s.fresh.2 :=
  of_frames rfl (Nat.le_refl _)

theorem newInstance {cls : Class} : s.Grows (s.newInstance cls).2 :=
  of_frames rfl (by simp [Store.newInstance])

theorem setField {object : Instance} : s.Grows (s.setField object name value) :=
  of_frames rfl (by simp [Store.setField])

theorem define (hname : Keyword.ofText? name = none) (hopen : s.Open f) :
    s.Grows (s.define f name value) := by
  refine ⟨by simp, by simp, ?_, ?_, ?_, Nat.le_refl _⟩
  · intro g other h
    rw [value?_define]
    split
    · rfl
    · exact h
  · intro g hclosed
    rw [bindings_define, if_neg]
    rintro ⟨rfl, -⟩
    exact hclosed hopen
  · intro g _ hg other hother
    rw [value?_define, if_neg]
    · exact hg other hother
    · rintro ⟨-, -, rfl⟩
      exact hother hname

theorem addFrame {outer : List FrameId} : s.Grows (s.addFrame outer).2 := by
  refine ⟨by simp, ?_, ?_, ?_, ?_, Nat.le_refl _⟩
  · intro g hg
    rw [outer_addFrame, if_neg (Nat.ne_of_lt hg)]
  · intro g other h
    rwa [value?_addFrame]
  · intro g _
    exact bindings_addFrame
  · intro g _ hopen
    exact hopen.of_bindings bindings_addFrame

/-- A new frame may bind any name, if it binds it from the beginning. -/
theorem newBound : s.Grows (s.newBound f name value) := by
  have hbindings : ∀ g, g ≠ s.frames.size →
      (s.newBound f name value).bindings g = s.bindings g := by
    intro g hg
    rw [Store.newBound, bindings_define, if_neg fun h => hg h.1.symm, newScope, bindings_addFrame]
  refine ⟨by simp, ?_, ?_, ?_, ?_, Nat.le_refl _⟩
  · intro g hg
    rw [Store.newBound, outer_define, newScope, outer_addFrame, if_neg (Nat.ne_of_lt hg)]
  · intro g other h
    rw [Store.newBound, value?_define]
    split
    · rfl
    · rwa [newScope, value?_addFrame]
  · intro g hclosed
    refine hbindings g ?_
    rintro rfl
    exact hclosed (open_of_size_le (Nat.le_refl _))
  · intro g hg hopen
    exact hopen.of_bindings (hbindings g (Nat.ne_of_lt hg))

theorem assign {u : Store} (htidy : s.Tidy) (hname : Keyword.ofText? name = none)
    (h : s.assign f name value = .ok u) : s.Grows u := by
  unfold Store.assign at h
  cases hholder : s.holder? f name with
  | none =>
      rw [hholder] at h
      cases h
  | some g =>
      rw [hholder] at h
      cases h
      have hbound : (s.value? g name).isSome = true :=
        List.find?_some (p := fun g => (s.value? g name).isSome) hholder
      exact define hname (htidy.open_of_bound hname hbound)

theorem assignAt {u : Store} {d : Nat} (htidy : s.Tidy) (hname : Keyword.ofText? name = none)
    (h : s.assignAt f d name value = .ok u) : s.Grows u := by
  unfold Store.assignAt at h
  cases hholder : (s.ancestor? f d).filter fun g => (s.value? g name).isSome with
  | none =>
      rw [hholder] at h
      cases h
  | some g =>
      rw [hholder] at h
      cases h
      exact define hname (htidy.open_of_bound hname (Option.filter_eq_some_iff.mp hholder).2)

end Grows

end Store

end Lox
