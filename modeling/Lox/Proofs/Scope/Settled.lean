import Lox.Proofs.Syntax.Parts
import Lox.Scope.Resolve

/-!
# Distances and defined names

Around an expression every name is defined, with one exception: the name whose initializer is being
read.

Main statement: `Scopes.NearlySettled.defined`.
-/

namespace Lox

/-! ## Distances -/

namespace Locals

variable {xs ys : Locals} {id : Nat}

theorem distance?_append : (xs ++ ys).distance? id = (xs.distance? id).or (ys.distance? id) := by
  induction xs with
  | nil =>
      rfl
  | cons entry xs ih =>
      rcases entry with ⟨other, distance⟩
      by_cases h : other = id
      · simp [distance?, h]
      · simp [distance?, h, ih]

theorem distance?_eq_none (h : ∀ entry ∈ xs, entry.1 ≠ id) : xs.distance? id = none := by
  induction xs with
  | nil =>
      rfl
  | cons entry xs ih =>
      rw [distance?, if_neg (h entry List.mem_cons_self)]
      exact ih fun e he => h e (List.mem_cons_of_mem _ he)

end Locals

namespace Scopes

/-- The distance of a name leads to a scope that binds it. -/
theorem exists_of_distance? {scopes : Scopes} {name : String} {d : Nat} :
    scopes.distance? name = some d →
      ∃ scope declared, scopes[d]? = some scope ∧ scope.value? name = some declared := by
  induction scopes generalizing d with
  | nil =>
      intro h
      cases h
  | cons scope outer ih =>
      intro h
      rw [distance?] at h
      split at h
      · rename_i hsome
        cases h
        rcases Option.isSome_iff_exists.mp hsome with ⟨declared, hdeclared⟩
        exact ⟨scope, declared, rfl, hdeclared⟩
      · rw [Option.map_eq_some_iff] at h
        rcases h with ⟨d', hd', rfl⟩
        exact ih hd'

/-! ## Defined names -/

/-- All names of the scopes are defined. -/
def Settled (scopes : Scopes) : Prop :=
  ∀ scope ∈ scopes, ∀ name declared, scope.value? name = some declared → declared.defined = true

/-- At most one name is not defined. It belongs to the innermost scope and is no reserved word. -/
def NearlySettled : Scopes → Prop
  | [] => True
  | scope :: outer =>
      Settled outer ∧ ∀ name declared, scope.value? name = some declared →
        declared.defined = false → Keyword.ofText? name = none

variable {scopes : Scopes}

theorem settled_nil : Settled [] := by
  intro scope hscope
  cases hscope

theorem Settled.cons {scope : Scope} (h : scopes.Settled)
    (hscope : ∀ name declared, scope.value? name = some declared → declared.defined = true) :
    Settled (scope :: scopes) := by
  intro other hother
  rcases List.mem_cons.mp hother with rfl | hother
  · exact hscope
  · exact h other hother

theorem Settled.enter (h : scopes.Settled) : Settled ([] :: scopes) :=
  h.cons fun _ _ hvalue => nomatch hvalue

theorem Settled.single (h : scopes.Settled) (name : String) (span : Span) :
    Settled (Scopes.single name span :: scopes) := by
  refine h.cons ?_
  intro other declared hvalue
  rw [Scopes.single, Bindings.value?_put] at hvalue
  split at hvalue
  · cases hvalue
    rfl
  · cases hvalue

theorem Settled.define (h : scopes.Settled) (name : Ident) : (scopes.define name).Settled := by
  cases scopes with
  | nil =>
      exact settled_nil
  | cons scope outer =>
      refine Settled.cons (fun other hother => h other (List.mem_cons_of_mem _ hother)) ?_
      intro other declared hvalue
      rw [Bindings.value?_put] at hvalue
      split at hvalue
      · cases hvalue
        rfl
      · exact h scope List.mem_cons_self other declared hvalue

theorem Settled.defineAll (h : scopes.Settled) (names : List Ident) :
    (scopes.defineAll names).Settled := by
  induction names generalizing scopes with
  | nil =>
      exact h
  | cons name names ih =>
      exact ih (h.define name)

theorem Settled.enterClass (h : scopes.Settled) (name : Ident) (parent : Option Reference) :
    (scopes.enterClass name parent).Settled := by
  cases parent with
  | none => exact h.single thisName name.span
  | some parent => exact (h.single superName parent.name.span).single thisName name.span

theorem Settled.nearly (h : scopes.Settled) : scopes.NearlySettled := by
  cases scopes with
  | nil =>
      trivial
  | cons scope outer =>
      refine ⟨fun other hother => h other (List.mem_cons_of_mem _ hother), ?_⟩
      intro name declared hvalue hundefined
      have hdefined := h scope List.mem_cons_self name declared hvalue
      rw [hundefined] at hdefined
      cases hdefined

theorem Settled.declare (h : scopes.Settled) {name : Ident} (hname : name.IsWord) :
    (scopes.declare name).NearlySettled := by
  cases scopes with
  | nil =>
      trivial
  | cons scope outer =>
      refine ⟨fun other hother => h other (List.mem_cons_of_mem _ hother), ?_⟩
      intro other declared hvalue hundefined
      rw [Bindings.value?_put] at hvalue
      split at hvalue
      · rename_i heq
        rw [← heq]
        exact hname
      · have hdefined := h scope List.mem_cons_self other declared hvalue
        rw [hundefined] at hdefined
        cases hdefined

/-- A name that resolution finds is defined, unless it is pending in the innermost scope. -/
theorem NearlySettled.defined (h : scopes.NearlySettled) {name : String} {d : Nat}
    (hdistance : scopes.distance? name = some d)
    (hname : scopes.pending? name = none ∨ Keyword.ofText? name ≠ none) :
    ∃ scope declared, scopes[d]? = some scope ∧ scope.value? name = some declared ∧
      declared.defined = true := by
  rcases exists_of_distance? hdistance with ⟨scope, declared, hscope, hvalue⟩
  refine ⟨scope, declared, hscope, hvalue, ?_⟩
  cases scopes with
  | nil =>
      cases hscope
  | cons inner outer =>
      cases d with
      | succ d =>
          exact h.1 scope (List.mem_of_getElem? hscope) name declared hvalue
      | zero =>
          cases hscope
          rcases hname with hpending | hreserved
          · simpa [pending?, hvalue] using hpending
          · cases hdefined : declared.defined with
            | true => rfl
            | false => exact absurd (h.2 name declared hvalue hdefined) hreserved

end Scopes

end Lox
