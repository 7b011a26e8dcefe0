import Mathlib.Data.List.Nodup
import Lox.Proofs.Scope.Visits

/-!
# Resolved programs

What is known of the visits to a program that was read and that violates no scope rule: every visit
finds what it should, and the distance that is recorded for an expression is the one that its visit
found.

Main statements: `Stmt.resolved_of_readAll`; `Resolved.defined`, which says that a name that is read
and for which a distance is recorded is defined in the scope the distance leads to; and
`Stmt.Settles.defined`, which says so of every name outside the initializer of its variable.
-/

namespace Lox

namespace Stmt

/-! ## Defined names at the visits -/

/-- Around an expression that is visited in statements all names are defined, except for the variable
whose initializer the expression stands in. -/
inductive Settles (ss : List Stmt) (v : Visit) : Prop
  | everywhere (settled : v.scopes.Settled) : Settles ss v
  | initializer {name : Ident} {initial : Expr} {around : Scopes}
      (declared : .var name (some initial) ∈ ss) (inside : v.expr ∈ initial.parts)
      (settled : around.Settled) (scopes : v.scopes = around.declare name) : Settles ss v

theorem Settles.mono {ss ts : List Stmt} {v : Visit} (hsub : ss ⊆ ts) : Settles ss v → Settles ts v
  | .everywhere settled => .everywhere settled
  | .initializer declared inside settled scopes =>
      .initializer (hsub declared) inside settled scopes

section Visits

variable {owner : Option ClassDecl} {scopes : Scopes} {v : Visit} {ss : List Stmt}

theorem settles_of_mem_visits (h : scopes.Settled) {e : Expr} (hv : v ∈ e.visits owner scopes) :
    Settles ss v := by
  rw [Expr.visits, List.mem_map] at hv
  rcases hv with ⟨part, -, rfl⟩
  exact .everywhere h

theorem settles_of_mem_visitsOption (h : scopes.Settled) {e? : Option Expr}
    (hv : v ∈ Expr.visitsOption owner scopes e?) : Settles ss v := by
  cases e? with
  | none => cases hv
  | some e => exact settles_of_mem_visits h hv

theorem settles_of_mem_visits_var (h : scopes.Settled) {name : Ident} {initial : Option Expr}
    (hv : v ∈ (Stmt.var name initial).visits owner scopes) :
    Settles (Stmt.var name initial).parts v := by
  cases initial with
  | none =>
      cases hv
  | some initial =>
      rw [visits, Expr.visitsOption, Expr.visits, List.mem_map] at hv
      rcases hv with ⟨part, hpart, rfl⟩
      exact .initializer (mem_parts_self _) hpart h rfl

end Visits

mutual

theorem settles_visits {owner : Option ClassDecl} {scopes : Scopes} (h : scopes.Settled) :
    (s : Stmt) → ∀ v ∈ s.visits owner scopes, Settles s.parts v
  | .expression _, _, hv => settles_of_mem_visits h hv
  | .print _, _, hv => settles_of_mem_visits h hv
  | .var _ _, _, hv => settles_of_mem_visits_var h hv
  | .block body, v, hv => (settles_visitsAll h.enter body v hv).mono (List.subset_cons_self _ _)
  | .ifElse condition consequent alternative, v, hv => by
      rw [visits, List.mem_append, List.mem_append] at hv
      rw [parts]
      rcases hv with (hv | hv) | hv
      · exact settles_of_mem_visits h hv
      · refine (settles_visits h consequent v hv).mono (List.subset_cons_of_subset _ ?_)
        exact List.subset_append_left _ _
      · refine (settles_visitsOption (settled_extend h consequent) alternative v hv).mono
          (List.subset_cons_of_subset _ ?_)
        exact List.subset_append_right _ _
  | .while condition body, v, hv => by
      rw [visits, List.mem_append] at hv
      rcases hv with hv | hv
      · exact settles_of_mem_visits h hv
      · exact (settles_visits h body v hv).mono (List.subset_cons_self _ _)
  | .function decl, v, hv =>
      (settles_visitsRoutine (h.define decl.name) decl v hv).mono (List.subset_cons_self _ _)
  | .return _ _, _, hv => settles_of_mem_visitsOption h hv
  | .class name parent methods, v, hv => by
      rw [visits, List.mem_append] at hv
      rcases hv with hv | hv
      · exact settles_of_mem_visitsOption (h.define name) hv
      · exact (settles_visitsMethods ((h.define name).enterClass name parent) methods v hv).mono
          (List.subset_cons_self _ _)

theorem settles_visitsAll {owner : Option ClassDecl} {scopes : Scopes} (h : scopes.Settled) :
    (ss : List Stmt) → ∀ v ∈ visitsAll owner scopes ss, Settles (partsAll ss) v
  | [], _, hv => nomatch hv
  | s :: ss, v, hv => by
      rw [visitsAll, List.mem_append] at hv
      rw [partsAll]
      rcases hv with hv | hv
      · exact (settles_visits h s v hv).mono (List.subset_append_left _ _)
      · exact (settles_visitsAll (settled_extend h s) ss v hv).mono (List.subset_append_right _ _)

theorem settles_visitsOption {owner : Option ClassDecl} {scopes : Scopes} (h : scopes.Settled) :
    (s? : Option Stmt) → ∀ v ∈ visitsOption owner scopes s?, Settles (partsOption s?) v
  | none, _, hv => nomatch hv
  | some s, v, hv => settles_visits h s v hv

theorem settles_visitsRoutine {owner : Option ClassDecl} {scopes : Scopes} (h : scopes.Settled) :
    (r : Routine Stmt) → ∀ v ∈ visitsRoutine owner scopes r, Settles (partsRoutine r) v
  | ⟨_, parameters, body⟩, v, hv => settles_visitsAll (h.enter.defineAll parameters) body v hv

theorem settles_visitsMethods {owner : Option ClassDecl} {scopes : Scopes} (h : scopes.Settled) :
    (methods : List (Routine Stmt)) →
      ∀ v ∈ visitsMethods owner scopes methods, Settles (partsMethods methods) v
  | [], _, hv => nomatch hv
  | method :: methods, v, hv => by
      rw [visitsMethods, List.mem_append] at hv
      rw [partsMethods]
      rcases hv with hv | hv
      · exact (settles_visitsRoutine h method v hv).mono (List.subset_append_left _ _)
      · exact (settles_visitsMethods h methods v hv).mono (List.subset_append_right _ _)

end

theorem Settles.nearlySettled {ss : List Stmt} {v : Visit} (hsound : Sound ss)
    (h : Settles ss v) : v.scopes.NearlySettled := by
  cases h with
  | everywhere settled =>
      exact settled.nearly
  | @initializer name initial around declared _ settled scopes =>
      have hname : name.IsWord := hsound.words _ declared name (by simp [idents])
      rw [scopes]
      exact settled.declare hname

/-- Outside the initializer of the variable a name that resolution finds is defined. -/
theorem Settles.defined {ss : List Stmt} {v : Visit} (h : Settles ss v) {name : String} {d : Nat}
    (houtside : ∀ ident initial, .var ident (some initial) ∈ ss → v.expr ∈ initial.parts →
      ident.name ≠ name)
    (hdistance : v.scopes.distance? name = some d) :
    ∃ scope declared, v.scopes[d]? = some scope ∧ scope.value? name = some declared ∧
      declared.defined = true := by
  rcases Scopes.exists_of_distance? hdistance with ⟨scope, declared, hscope, hvalue⟩
  refine ⟨scope, declared, hscope, hvalue, ?_⟩
  cases h with
  | everywhere settled =>
      exact settled scope (List.mem_of_getElem? hscope) name declared hvalue
  | @initializer ident initial around hvar hinside settled hscopes =>
      have hne : ident.name ≠ name := houtside ident initial hvar hinside
      rw [hscopes] at hscope
      cases around with
      | nil =>
          cases hscope
      | cons inner outer =>
          -- The declaration has changed the innermost scope, but not what it says of the name.
          cases d with
          | zero =>
              cases hscope
              rw [Bindings.value?_put_of_ne _ _ hne] at hvalue
              exact settled inner List.mem_cons_self name declared hvalue
          | succ d =>
              have hscope' : outer[d]? = some scope := hscope
              exact settled scope (List.mem_cons_of_mem _ (List.mem_of_getElem? hscope')) name
                declared hvalue

end Stmt

/-! ## Findings of single visits -/

namespace Visit

theorem locals_locate (scopes : Scopes) (id : Nat) (name : String) :
    (scopes.locate id name).locals = ((scopes.distance? name).map fun d => (id, d)).toList := by
  unfold Scopes.locate
  cases scopes.distance? name <;> rfl

theorem pending?_of_resolve {scopes : Scopes} {r : Reference}
    (h : (r.resolve scopes).errors = []) : scopes.pending? r.name.name = none := by
  unfold Reference.resolve at h
  cases hpending : scopes.pending? r.name.name with
  | none =>
      rfl
  | some declared =>
      rw [hpending] at h
      simp [Findings.error] at h

/-- A visit at which no rule is violated records the distance of its name, if it has one. -/
theorem locals_of_errors {v : Visit} (h : v.findings.errors = []) :
    v.findings.locals = (v.distance?.map fun d => (v.expr.number, d)).toList := by
  rcases v with ⟨e, owner, scopes⟩
  cases e with
  | var target =>
      have hpending : scopes.pending? target.name.name = none := pending?_of_resolve h
      simp only [findings, Reference.resolve, hpending, Findings.locals_append, locals_locate]
      rfl
  | assign target value =>
      exact locals_locate scopes target.id target.name.name
  | this node =>
      simp only [findings] at h ⊢
      split at h
      · cases h
      · exact locals_locate scopes node.id thisName
  | super node method =>
      simp only [findings] at h ⊢
      split at h
      · cases h
      · cases h
      · simp only [Findings.locals_append, locals_locate]
        rfl
  | _ =>
      rfl

/-- Outside every class there is no `super`, and in a class that names no superclass there is
none. -/
theorem parent_of_super {node : Node} {method : Ident} {owner : Option ClassDecl} {scopes : Scopes}
    (h : (findings ⟨.super node method, owner, scopes⟩).errors = []) :
    ∃ d parent, owner = some d ∧ d.parent = some parent := by
  simp only [findings] at h
  cases owner with
  | none =>
      cases h
  | some d =>
      cases hparent : d.parent with
      | none =>
          rw [ClassContext.ofOwner, hparent] at h
          cases h
      | some parent =>
          exact ⟨d, parent, rfl, hparent⟩

/-- Outside every class there is no `this` either. -/
theorem owner_of_this {v : Visit} {node : Node} (h : v.findings.errors = [])
    (hthis : v.expr = .this node) : v.owner.isSome = true := by
  rcases v with ⟨e, _ | d, scopes⟩
  · cases hthis
    cases h
  · rfl

/-! ### What is recorded -/

theorem distance?_locate (scopes : Scopes) (id : Nat) (name : String) :
    Locals.distance? (scopes.locate id name).locals id = scopes.distance? name := by
  rw [locals_locate]
  cases scopes.distance? name with
  | none => rfl
  | some d => exact if_pos rfl

/-- What is recorded under a number is what a visit finds. -/
def Recorded (locals : Locals) (id : Nat) (v : Visit) : Prop :=
  locals.distance? id = Locals.distance? v.findings.locals v.expr.number

/-- A visit finds the scope that binds its name, unless `this` stands outside every class. -/
theorem Recorded.distance {locals : Locals} {id : Nat} {v : Visit} (h : v.Recorded locals id)
    (hthis : ∀ node, v.expr = .this node → v.owner.isSome = true) :
    locals.distance? id = v.distance? := by
  refine h.trans ?_
  rcases v with ⟨e, owner, scopes⟩
  cases e with
  | var target =>
      simp only [findings, Reference.resolve, Findings.locals_append]
      cases scopes.pending? target.name.name <;> exact distance?_locate scopes _ _
  | assign target value => exact distance?_locate scopes _ _
  | this node =>
      rcases Option.isSome_iff_exists.mp (hthis node rfl) with ⟨d, rfl⟩
      rcases d with ⟨name, _ | parent, methods⟩ <;> exact distance?_locate scopes _ _
  | super node method =>
      rw [findings, Findings.locals_append]
      cases ClassContext.ofOwner owner <;> exact distance?_locate scopes _ _
  | _ => rfl

/-- What a visit finds is recorded under the number of its expression. -/
theorem number_of_mem_locals {v : Visit} {entry : Nat × Nat} (h : entry ∈ v.findings.locals) :
    entry.1 = v.expr.number := by
  have hlocate : ∀ {scopes : Scopes} {id : Nat} {name : String},
      entry ∈ (scopes.locate id name).locals → entry.1 = id := by
    intro scopes id name hentry
    rw [locals_locate, Option.mem_toList, Option.map_eq_some_iff] at hentry
    rcases hentry with ⟨d, -, rfl⟩
    rfl
  rcases v with ⟨e, owner, scopes⟩
  cases e with
  | var target =>
      simp only [findings, Reference.resolve, Findings.locals_append] at h
      cases hpending : scopes.pending? target.name.name <;> rw [hpending] at h <;> exact hlocate h
  | assign target value => exact hlocate h
  | this node =>
      rw [findings] at h
      cases howner : ClassContext.ofOwner owner <;> rw [howner] at h
      · cases h
      · exact hlocate h
      · exact hlocate h
  | super node method =>
      rw [findings, Findings.locals_append] at h
      cases howner : ClassContext.ofOwner owner <;> rw [howner] at h <;> exact hlocate h
  | _ => cases h

theorem recorded_flatMap {vs : List Visit} (h : (vs.map fun v => v.expr.number).Nodup) :
    ∀ v ∈ vs, v.Recorded (vs.flatMap fun w => w.findings.locals) v.expr.number := by
  induction vs with
  | nil =>
      intro v hv
      cases hv
  | cons w vs ih =>
      intro v hv
      rw [List.map_cons, List.nodup_cons] at h
      rw [Recorded, List.flatMap_cons, Locals.distance?_append]
      rcases List.mem_cons.mp hv with rfl | hv
      · have hrest : Locals.distance? (vs.flatMap fun w => w.findings.locals) v.expr.number = none := by
          refine Locals.distance?_eq_none ?_
          intro entry hentry heq
          rcases List.mem_flatMap.mp hentry with ⟨w, hw, hentry⟩
          exact h.1 (List.mem_map.mpr ⟨w, hw, (number_of_mem_locals hentry).symm.trans heq⟩)
        rw [hrest, Option.or_none]
      · have hfirst : Locals.distance? w.findings.locals v.expr.number = none := by
          refine Locals.distance?_eq_none ?_
          intro entry hentry heq
          exact h.1 (List.mem_map.mpr ⟨v, hv, heq.symm.trans (number_of_mem_locals hentry)⟩)
        rw [hfirst, Option.none_or]
        exact ih h.2 v hv

end Visit

/-! ## Programs -/

/-- What is known of the visits to a program that was read and that violates no scope rule. -/
structure Resolved (vs : List Visit) (locals : Locals) : Prop where
  /-- What is recorded for an expression is what its visit found. -/
  distance : ∀ v ∈ vs, locals.distance? v.expr.number = v.distance?
  errors : ∀ v ∈ vs, v.findings.errors = []
  nearlySettled : ∀ v ∈ vs, v.scopes.NearlySettled
  unique : ∀ v ∈ vs, ∀ w ∈ vs, v.expr.number = w.expr.number → v = w
  words : ∀ v ∈ vs, ∀ i ∈ v.expr.idents, i.IsWord

namespace Resolved

variable {vs : List Visit} {locals : Locals}

theorem distance?_flatMap (hnumbers : (vs.map fun v => v.expr.number).Nodup)
    (herrors : ∀ v ∈ vs, v.findings.errors = []) :
    ∀ v ∈ vs, Locals.distance? (vs.flatMap fun w => w.findings.locals) v.expr.number =
      v.distance? :=
  fun v hv => (Visit.recorded_flatMap hnumbers v hv).distance fun _ => Visit.owner_of_this (herrors v hv)

/-- A name for which a distance is recorded is defined in the scope that the distance leads to,
except for the target of an assignment. -/
theorem defined (h : Resolved vs locals) {v : Visit} (hv : v ∈ vs)
    (hread : ∀ target value, v.expr ≠ .assign target value) {d : Nat}
    (hd : locals.distance? v.expr.number = some d) :
    ∃ name scope declared, v.name? = some name ∧ v.scopes[d]? = some scope ∧
      scope.value? name = some declared ∧ declared.defined = true := by
  rw [h.distance v hv] at hd
  have hnearly := h.nearlySettled v hv
  have herrors := h.errors v hv
  rcases v with ⟨e, owner, scopes⟩
  cases e with
  | var target =>
      have hpending : scopes.pending? target.name.name = none := Visit.pending?_of_resolve herrors
      rcases hnearly.defined hd (.inl hpending) with ⟨scope, declared, hfound⟩
      exact ⟨target.name.name, scope, declared, rfl, hfound⟩
  | assign target value =>
      exact absurd rfl (hread target value)
  | this node =>
      rcases hnearly.defined hd (.inr (by decide)) with ⟨scope, declared, hfound⟩
      exact ⟨thisName, scope, declared, rfl, hfound⟩
  | super node method =>
      rcases hnearly.defined hd (.inr (by decide)) with ⟨scope, declared, hfound⟩
      exact ⟨superName, scope, declared, rfl, hfound⟩
  | _ =>
      cases hd

end Resolved

theorem Findings.append_assoc (f g h : Findings) : f ++ g ++ h = f ++ (g ++ h) :=
  congrArg₂ Findings.mk (List.append_assoc _ _ _) (List.append_assoc _ _ _)

namespace Stmt

/-- The visits to a whole program. -/
def programVisits (ss : List Stmt) : List Visit :=
  visitsAll none [] ss

/-- What resolution finds in a whole program. -/
def programFindings (ss : List Stmt) : Findings :=
  resolveAll ⟨.none, .none⟩ [] ss

theorem programVisits_append (ss ts : List Stmt) :
    programVisits (ss ++ ts) = programVisits ss ++ programVisits ts :=
  visitsAll_append none ss ts

theorem programFindings_append (ss ts : List Stmt) :
    programFindings (ss ++ ts) = programFindings ss ++ programFindings ts := by
  unfold programFindings
  induction ss with
  | nil =>
      rfl
  | cons s ss ih =>
      rw [List.cons_append, resolveAll, resolveAll, extend_nil, ih, Findings.append_assoc]

theorem resolved_of_readAll {ss : List Stmt} {low high : Nat}
    (hread : ReadAll low high (partsAll ss)) (herrors : (programFindings ss).errors = []) :
    Resolved (programVisits ss) (programFindings ss).locals := by
  have hcovers : Covers (programFindings ss) (programVisits ss) := covers_resolveAll rfl [] ss
  have hexprs : (programVisits ss).map Visit.expr = expressions (partsAll ss) :=
    map_expr_visitsAll none [] ss
  have hnumbers : ((programVisits ss).map fun v => v.expr.number).Nodup := by
    have hfresh := hread.expressions.fresh.1
    rw [← hexprs, List.map_map] at hfresh
    exact hfresh
  have hvisits : ∀ v ∈ programVisits ss, v.findings.errors = [] := by
    intro v hv
    have hsubset := hcovers.errors v hv
    rw [herrors] at hsubset
    exact List.subset_nil.mp hsubset
  refine ⟨?_, hvisits, ?_, ?_, ?_⟩
  · rw [hcovers.locals]
    exact Resolved.distance?_flatMap hnumbers hvisits
  · intro v hv
    exact (settles_visitsAll Scopes.settled_nil ss v hv).nearlySettled hread.sound
  · intro v hv w hw heq
    exact List.inj_on_of_nodup_map hnumbers hv hw heq
  · intro v hv
    refine hread.expressions.words v.expr ?_
    rw [← hexprs]
    exact List.mem_map_of_mem hv

end Stmt

theorem resolveProgram_ok {ss : List Stmt} {locals : Locals} (h : resolveProgram ss = .ok locals) :
    (Stmt.programFindings ss).errors = [] ∧ locals = (Stmt.programFindings ss).locals := by
  unfold resolveProgram at h
  dsimp only at h
  split at h
  · rename_i hempty
    cases h
    exact ⟨List.isEmpty_iff.mp hempty, rfl⟩
  · cases h

theorem resolveProgram_error {ss : List Stmt} {errors : List ScopeError}
    (h : resolveProgram ss = .error errors) :
    errors = (Stmt.programFindings ss).errors ∧ errors ≠ [] := by
  unfold resolveProgram at h
  dsimp only at h
  split at h
  · cases h
  · rename_i hsome
    cases h
    refine ⟨rfl, ?_⟩
    intro hnil
    exact hsome (List.isEmpty_iff.mpr hnil)

end Lox
