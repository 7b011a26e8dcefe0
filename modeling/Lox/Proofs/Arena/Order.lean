import Lox.Proofs.Arena.Forest

/-!
# The order of the nodes

An arena records what was added to it. Each node is added once, and its parts come before it.

Main statement: `Arena.Built.ordered`.
-/

namespace Lox

/-- The place of a node in its array. -/
def Handle.number : Handle → Nat
  | .expression i => i.toNat
  | .statement i => i.toNat
  | .function i => i.toNat

namespace Arena

variable {a b : Arena} {h new : Handle} {hs : List Handle}

/-- The length of the array that a handle leads to. -/
def size (a : Arena) : Handle → Nat
  | .expression _ => a.expressions.size
  | .statement _ => a.statements.size
  | .function _ => a.functions.size

theorem has_iff : a.Has h ↔ h.number < a.size h := by
  cases h <;>
    simp [Has, children?, Handle.number, size, ← Option.isSome_iff_exists]

/-- What has been added are the nodes, each of them once, and each after its parts. -/
structure Ordered (a : Arena) : Prop where
  nodup : a.added.Nodup
  mem_iff : ∀ h, h ∈ a.added ↔ a.Has h
  before : ∀ h hs, a.children? h = some hs → ∀ h' ∈ hs, [h, h'].Sublist a.added

theorem Ordered.empty : Ordered .empty := by
  have hnone : ∀ h, Arena.empty.children? h = none := by
    intro h
    cases h <;> rfl
  refine ⟨List.nodup_nil, ?_, ?_⟩
  · intro h
    rw [Has, hnone]
    exact iff_of_false List.not_mem_nil fun hh => nomatch hh
  · intro h hs hchildren
    rw [hnone] at hchildren
    cases hchildren

theorem Ordered.push (ho : a.Ordered) (hp : a.Pushes b new hs) (hparts : ∀ h ∈ hs, a.Has h) :
    b.Ordered := by
  refine ⟨?_, ?_, ?_⟩
  · rw [hp.added, List.nodup_cons, ho.mem_iff]
    refine ⟨?_, ho.nodup⟩
    rintro ⟨hs', hold⟩
    rw [hp.fresh] at hold
    cases hold
  · intro h
    rw [hp.added, List.mem_cons, ho.mem_iff]
    by_cases heq : h = new
    · subst heq
      exact iff_of_true (.inl rfl) ⟨hs, hp.node⟩
    · rw [Has, Has, hp.others h heq]
      exact or_iff_right heq
  · intro h hs' hchildren h' hh'
    rw [hp.added]
    by_cases heq : h = new
    · subst heq
      rw [hp.node] at hchildren
      cases hchildren
      refine .cons_cons _ (List.singleton_sublist.mpr ?_)
      exact (ho.mem_iff h').mpr (hparts h' hh')
    · rw [hp.others h heq] at hchildren
      exact .cons _ (ho.before h hs' hchildren h' hh')

/-- The number of nodes. -/
def count (a : Arena) : Nat :=
  a.expressions.size + a.statements.size + a.functions.size

/-- While there are indices enough, nodes are told apart and stand behind their parts. -/
theorem Built.ordered (hb : a.Built) (hsmall : a.count < UInt32.size) : a.Ordered := by
  induction hb with
  | empty =>
      exact .empty
  | @expression a entry hb hparts ih =>
      simp only [count, pushExpression, Array.size_push] at hsmall
      refine (ih ?_).push (pushes_expression a entry (by omega)) hparts
      unfold count
      omega
  | @statement a node hb hparts ih =>
      simp only [count, pushStatement, Array.size_push] at hsmall
      refine (ih ?_).push (pushes_statement a node (by omega)) hparts
      unfold count
      omega
  | @function a routine hb hparts ih =>
      simp only [count, pushFunction, Array.size_push] at hsmall
      refine (ih ?_).push (pushes_function a routine (by omega)) ?_
      · unfold count
        omega
      · intro h hh
        rcases List.mem_map.mp hh with ⟨i, hi, rfl⟩
        exact hparts i hi

end Arena

end Lox
