import Lox.Proofs.Scope.Program
import Lox.Proofs.Store.Growth

/-!
# Frames and scopes

The frames around a place in a running program correspond to the scopes that resolution has there:
one frame for each scope, in the same order, and the globals behind them. A frame binds what is
defined in its scope; what it binds besides does not matter.

`Store.Matches` is this correspondence. `World.Stands` adds where the methods of a class find their
superclass. Both last while the store grows, and follow the scopes when they are entered and
extended.
-/

namespace Lox

/-- A value that `this` or `super` may be bound to. Any other name may be bound to any value. -/
def Value.Suits (name : String) (v : Value) : Prop :=
  (name = thisName → ∃ object, v = .instance object) ∧
    (name = superName → ∃ cls, v = .class cls)

theorem Value.suits_of_word {name : String} (h : Keyword.ofText? name = none) (v : Value) :
    v.Suits name := by
  refine ⟨?_, ?_⟩
  · intro heq
    subst heq
    exact absurd h (by decide)
  · intro heq
    subst heq
    exact absurd h (by decide)

namespace Store

variable {s t : Store} {root f g : FrameId} {scope : Scope} {scopes : Scopes}

/-- A frame binds every name that is defined in a scope. -/
def Binds (s : Store) (f : FrameId) (scope : Scope) : Prop :=
  ∀ name declared, scope.value? name = some declared → declared.defined = true →
    ∃ value, s.value? f name = some value ∧ value.Suits name

/-- The frames from `f` outwards are those of the scopes, and the root behind them. -/
structure Matches (s : Store) (root f : FrameId) (scopes : Scopes) : Prop where
  inside : f < s.frames.size
  length : (s.chain f).length = scopes.length + 1
  last : (s.chain f)[scopes.length]? = some root
  binds : ∀ (d : Nat) g scope, (s.chain f)[d]? = some g → scopes[d]? = some scope → s.Binds g scope

theorem Binds.grows (h : s.Binds f scope) (hg : s.Grows t) : t.Binds f scope := by
  intro name declared hvalue hdefined
  rcases h name declared hvalue hdefined with ⟨value, hbound, hsuits⟩
  cases hname : Keyword.ofText? name with
  | some word =>
      exact ⟨value, hg.reserved f name value (by simp [hname]) hbound, hsuits⟩
  | none =>
      have hsome := hg.bound f name (by rw [hbound]; rfl)
      rcases Option.isSome_iff_exists.mp hsome with ⟨value', hbound'⟩
      exact ⟨value', hbound', Value.suits_of_word hname value'⟩

theorem binds_nil (s : Store) (f : FrameId) : s.Binds f [] :=
  fun _ _ hvalue => nomatch hvalue

theorem Binds.single {name : String} {span : Span} {value : Value}
    (hvalue : s.value? f name = some value) (hsuits : value.Suits name) :
    s.Binds f (Scopes.single name span) := by
  intro other declared hdeclared hdefined
  rw [Scopes.single, Bindings.value?_put] at hdeclared
  split at hdeclared
  · rename_i heq
    rw [← heq]
    exact ⟨value, hvalue, hsuits⟩
  · cases hdeclared

theorem Binds.put {name : Ident} {declared : Declared} (h : s.Binds f scope) (hname : name.IsWord)
    (hbound : declared.defined = true → (s.value? f name.name).isSome = true) :
    s.Binds f (scope.put name.name declared) := by
  intro other declared' hvalue hdefined
  rw [Bindings.value?_put] at hvalue
  split at hvalue
  · rename_i heq
    cases hvalue
    rcases Option.isSome_iff_exists.mp (hbound hdefined) with ⟨value, hvalue⟩
    rw [← heq]
    exact ⟨value, hvalue, Value.suits_of_word hname value⟩
  · exact h other declared' hvalue hdefined

namespace Matches

theorem grows (h : s.Matches root f scopes) (hg : s.Grows t) : t.Matches root f scopes := by
  have hchain : t.chain f = s.chain f := hg.chain h.inside
  refine ⟨Nat.lt_of_lt_of_le h.inside hg.size, ?_, ?_, ?_⟩
  · rw [hchain]
    exact h.length
  · rw [hchain]
    exact h.last
  · intro d g scope hd hscope
    rw [hchain] at hd
    exact (h.binds d g scope hd hscope).grows hg

/-- A frame inside another one stands for one more scope. -/
theorem push (h : s.Matches root f scopes) (hg : s.Grows t) (hinside : g < t.frames.size)
    (hchain : t.chain g = g :: s.chain f) (hbinds : t.Binds g scope) :
    t.Matches root g (scope :: scopes) := by
  refine ⟨hinside, ?_, ?_, ?_⟩
  · rw [hchain, List.length_cons, List.length_cons, h.length]
  · rw [hchain, List.length_cons, List.getElem?_cons_succ]
    exact h.last
  · intro d g' scope' hd hscope
    rw [hchain] at hd
    cases d with
    | zero =>
        cases hd
        cases hscope
        exact hbinds
    | succ d =>
        rw [List.getElem?_cons_succ] at hd hscope
        exact (h.binds d g' scope' hd hscope).grows hg

theorem head (h : s.Matches root f (scope :: scopes)) : s.Binds f scope :=
  h.binds 0 f scope rfl rfl

/-- Only what the frame itself binds matters for a change of the innermost scope. -/
theorem replace {scope' : Scope} (h : s.Matches root f (scope :: scopes))
    (hbinds : s.Binds f scope') : s.Matches root f (scope' :: scopes) := by
  refine ⟨h.inside, h.length, h.last, ?_⟩
  intro d g scope'' hd hscope
  cases d with
  | zero =>
      cases hd
      cases hscope
      exact hbinds
  | succ d =>
      exact h.binds (d + 1) g scope'' hd hscope

theorem define {name : Ident} (h : s.Matches root f scopes) (hname : name.IsWord)
    (hbound : (s.value? f name.name).isSome = true) : s.Matches root f (scopes.define name) := by
  cases scopes with
  | nil =>
      exact h
  | cons scope outer =>
      exact h.replace (h.head.put hname fun _ => hbound)

theorem declare {name : Ident} (h : s.Matches root f scopes) (hname : name.IsWord) :
    s.Matches root f (scopes.declare name) := by
  cases scopes with
  | nil =>
      exact h
  | cons scope outer =>
      exact h.replace (h.head.put hname fun hdefined => nomatch hdefined)

/-- The frame that a distance leads to, and what it binds. -/
theorem exists_ancestor (h : s.Matches root f scopes) {d : Nat} (hscope : scopes[d]? = some scope) :
    ∃ g, s.ancestor? f d = some g ∧ s.Binds g scope := by
  have hd : d < (s.chain f).length := by
    have hlt : d < scopes.length := (List.getElem?_eq_some_iff.mp hscope).1
    rw [h.length]
    omega
  refine ⟨(s.chain f)[d], ?_, ?_⟩
  · rw [ancestor?_eq]
    exact List.getElem?_eq_getElem hd
  · exact h.binds d _ scope (List.getElem?_eq_getElem hd) hscope

end Matches

/-- A name that is defined in a scope is found in the frame of the scope. -/
theorem Matches.getAt (h : s.Matches root f scopes) {d : Nat} {name : String} {declared : Declared}
    (hscope : scopes[d]? = some scope) (hvalue : scope.value? name = some declared)
    (hdefined : declared.defined = true) :
    ∃ value, s.getAt f d name = .ok value ∧ value.Suits name := by
  rcases h.exists_ancestor hscope with ⟨g, hancestor, hbinds⟩
  rcases hbinds name declared hvalue hdefined with ⟨value, hbound, hsuits⟩
  refine ⟨value, ?_, hsuits⟩
  rw [Store.getAt, hancestor, Option.bind_some, hbound]
  rfl

end Store

end Lox
