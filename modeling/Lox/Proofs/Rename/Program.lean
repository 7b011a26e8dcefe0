import Lox.Proofs.Eval.Calls
import Lox.Proofs.Rename.Course

/-!
# Programs with a new name for a variable

`Alias.Suits` says what has to hold of a program for the old name to be put back in it: wherever the
new name is written resolution has found a declaration, no block and no function declares both names,
and no function or class has the new name.

Main statements: `Alias.Suits.reaches`, which says that a variable is told from the other names of the
frame it is looked for in, and `Alias.Suits.ready`, which says that the expressions of a statement can
be evaluated.
-/

namespace Lox

variable {W : World} {n : Alias} {setting : Setting} {s t : Store} {frame : FrameId}

/-- The globals have no frame around them. -/
theorem World.StoreFits.chain_root (h : W.StoreFits s) : s.chain W.root = [W.root] := by
  have hlength := h.root.length
  rw [Store.chain, List.length_cons, List.length_nil, Nat.zero_add] at hlength
  have houter : s.outer W.root = [] := List.eq_nil_of_length_eq_zero (Nat.succ.inj hlength)
  rw [Store.chain, houter]

/-- A name that resolution finds is defined, or it is that of the variable whose initializer the
expression stands in, and then it is found in the innermost scope. -/
theorem Stmt.Settles.defined_or_own {ss : List Stmt} {v : Visit} (h : Settles ss v) {name : String}
    {d : Nat} (hdistance : v.scopes.distance? name = some d) :
    (∃ scope declared, v.scopes[d]? = some scope ∧ scope.value? name = some declared ∧
        declared.defined = true) ∨
      d = 0 ∧ ∃ ident initial, .var ident (some initial) ∈ ss ∧ v.expr ∈ initial.parts ∧
        ident.name = name := by
  cases h with
  | everywhere settled =>
      have hnone : Settles [] v := .everywhere settled
      exact .inl (hnone.defined (fun _ _ hvar => nomatch hvar) hdistance)
  | @initializer ident initial around hvar hinside settled hscopes =>
      by_cases hname : ident.name = name
      · refine .inr ⟨?_, ident, initial, hvar, hinside, hname⟩
        rw [hscopes] at hdistance
        cases around with
        | nil => cases hdistance
        | cons scope outer =>
            rw [Scopes.declare, Scopes.distance?, ← hname, Bindings.value?_put_self] at hdistance
            exact (Option.some.inj hdistance).symm
      · have hown : Settles [.var ident (some initial)] v :=
          .initializer List.mem_cons_self hinside settled hscopes
        refine .inl (hown.defined ?_ hdistance)
        intro ident' initial' hvar' _
        cases List.mem_singleton.mp hvar'
        exact hname

namespace Alias

/-- A name is told from the other names of the frame it is looked for in from a frame: the one at the
recorded distance, or else the globals. -/
structure Reaches (n : Alias) (W : World) (locals : Locals) (s : Store) (frame : FrameId) (id : Nat)
    (name : String) : Prop where
  near : ∀ d g, locals.distance? id = some d → s.ancestor? frame d = some g →
    n.Tells name (s.names g)
  far : locals.distance? id = none → n.Tells name (s.names W.root)

theorem reaches_reserved {locals : Locals} {id : Nat} {name : String}
    (h : Keyword.ofText? name ≠ none) : n.Reaches W locals s frame id name :=
  ⟨fun _ _ _ _ => tells_reserved h, fun _ => tells_reserved h⟩

/-- The programs of a world are resolved, and the old name can be put back in them. -/
structure Suits (n : Alias) (W : World) (setting : Setting) : Prop where
  globals : setting.globals = W.root
  resolved : Resolved W.visits setting.locals
  settles : ∀ v ∈ W.visits, Stmt.Settles W.statements v
  /-- An expression stands in one statement only. -/
  once : ∀ s ∈ W.statements, ∀ t ∈ W.statements, ∀ e ∈ Stmt.expressions [s],
    e ∈ Stmt.expressions [t] → s = t
  bound : ∀ v ∈ W.visits, ∀ r, v.expr.reference? = some r →
    setting.locals.distance? r.id = none → r.name.name ≠ n.new
  functions : ∀ r, .function r ∈ W.statements → r.name.name ≠ n.new
  classes : ∀ d : ClassDecl, d.statement ∈ W.statements → d.name.name ≠ n.new
  blocks : ∀ body, .block body ∈ W.statements → n.Apart (Stmt.declaredAll body)
  routines : ∀ r, W.Declares r → n.Apart r.locals

namespace Suits

variable {owner : Option ClassDecl} {scopes : Scopes} {e : Expr}

/-- A variable is told from the other names of the frame it is looked for in. If it is being assigned
to in its own initializer, that frame may not bind it yet. -/
theorem reaches (h : n.Suits W setting) (hv : (⟨e, owner, scopes⟩ : Visit) ∈ W.visits)
    (hready : (Task.evaluate frame e).Ready W n s) (hgains : s.Gains t frame [])
    (hmatches : t.Matches W.root frame scopes) (hclear : n.Clear W.root t) {r : Reference}
    (hr : e.reference? = some r) : n.Reaches W setting.locals t frame r.id r.name.name := by
  have hid : e.number = r.id := Expr.number_of_reference? hr
  have hdistance : (⟨e, owner, scopes⟩ : Visit).distance? = scopes.distance? r.name.name := by
    cases e <;> cases hr <;> rfl
  refine ⟨?_, fun hnone => hclear.tells_root (h.bound _ hv r hr hnone)⟩
  intro d g hd hg
  rw [← hid, h.resolved.distance _ hv, hdistance] at hd
  rcases (h.settles _ hv).defined_or_own hd with
    ⟨scope, declared, hscope, hvalue, hdefined⟩ | ⟨rfl, ident, initial, hvar, hinside, hname⟩
  · -- A name that is defined is bound in the frame of its scope, which does not bind both names.
    rcases hmatches.exists_ancestor hscope with ⟨g', hg', hbinds⟩
    rw [hg] at hg'
    cases hg'
    rcases hbinds _ _ hvalue hdefined with ⟨value, hbound, -⟩
    refine (hclear.apart g).tells_of_mem (Store.mem_names_iff.mpr ?_)
    rw [hbound]
    rfl
  · -- The frame may not bind the variable yet, but it admits the name.
    cases hg
    have hapart := hready.initialized e e.mem_parts_self ident initial hvar hinside
    rw [hname] at hapart
    refine hapart.tells.mono ?_
    intro k hk
    rcases hgains.names frame hready.inside k hk with hold | ⟨-, hnil⟩
    · exact hold
    · cases hnil

/-- The expressions of a statement can be evaluated where the statement can be executed. -/
theorem ready (h : n.Suits W setting) {stmt : Stmt} (hs : stmt ∈ W.statements)
    (he : e ∈ stmt.operands) (hinside : frame < s.frames.size) (hclear : n.Clear W.root s)
    (hadmits : n.Admits W.root s frame stmt.declared) : (Task.evaluate frame e).Ready W n s := by
  refine ⟨hinside, hclear, hclear.admits_nil, ?_⟩
  intro part hpart name initial hvar hinitial
  have hown : part ∈ Stmt.expressions [stmt] := by
    rw [Stmt.expressions_cons, Stmt.expressions_nil, List.append_nil]
    exact List.mem_flatMap.mpr ⟨e, he, hpart⟩
  have hother : part ∈ Stmt.expressions [.var name (some initial)] := by
    simpa [Stmt.operands] using hinitial
  have heq : stmt = .var name (some initial) := h.once _ hs _ hvar part hown hother
  subst heq
  exact hadmits.apart

end Suits

end Alias

namespace Task.Ready

/-- The parts of an expression can be evaluated while nothing is gained. -/
theorem part {e sub : Expr} (h : (Task.evaluate frame e).Ready W n s) (hsub : sub.parts ⊆ e.parts)
    (hclear : n.Clear W.root t) (hgains : s.Gains t frame []) :
    (Task.evaluate frame sub).Ready W n t := by
  refine ⟨Nat.lt_of_lt_of_le h.inside hgains.size, hclear, hclear.admits_nil, ?_⟩
  intro part hpart name initial hvar hinitial
  refine (h.initialized part (hsub hpart) name initial hvar hinitial).mono ?_
  intro k hk
  rcases List.mem_cons.mp hk with rfl | hk
  · exact List.mem_cons_self
  · rcases hgains.names frame h.inside k hk with hold | ⟨-, hnil⟩
    · exact List.mem_cons_of_mem _ hold
    · cases hnil

theorem operand {e sub : Expr} (h : (Task.evaluate frame e).Ready W n s) (hsub : sub ∈ e.operands)
    (hclear : n.Clear W.root t) (hgains : s.Gains t frame []) :
    (Task.evaluate frame sub).Ready W n t :=
  h.part (Expr.parts_subset_of_mem_operands hsub) hclear hgains

/-- A task that has gained what it may gain can be done once more. -/
theorem again {task : Task} (h : task.Ready W n s) (hclear : n.Clear W.root t)
    (hgains : s.Gains t task.frame task.declared) : task.Ready W n t := by
  cases task with
  | evaluate frame e =>
      exact h.part (List.Subset.refl _) hclear hgains
  | execute frame stmt =>
      exact ⟨Nat.lt_of_lt_of_le h.inside hgains.size, hclear, h.admits.again hgains h.inside,
        fun _ hnil => nomatch hnil⟩

end Task.Ready

end Lox
