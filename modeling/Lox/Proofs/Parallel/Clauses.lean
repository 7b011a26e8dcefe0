import Lox.Proofs.Parallel.Loop
import Lox.Proofs.Parallel.Resolve
import Lox.Proofs.Rereading.Statement

/-!
# Scope resolution of a loop itself

A `for` loop has one scope of its own if it has an initializer, and none otherwise; its condition, its
body and its increment are resolved there. In the tree that is read for the loop the body and the
increment have one scope more if there is an increment.

Main statement: `Parse.ForClauses.parallels_renumber`. A copy of the loop with other numbers, whose
references are resolved as those of a loop, is parallel to the parts of the tree.
-/

namespace Lox

variable {T : Tracks} {g : Nat → Nat} {owner : Option ClassDecl}

/-- No place is changed, and scopes know nothing but places. -/
theorem Scopes.relabel_renumber (around : Scopes) : around.relabel (.renumber g) = around := by
  have hvalues : Bindings.mapValues (Declared.relabel (.renumber g)) = id :=
    funext fun scope => List.map_id scope
  rw [relabel, hvalues, List.map_id]

namespace Parse.ForClauses

variable {clauses : ForClauses} {body tree : Stmt}

/-! ## Resolution -/

/-- The scopes of a loop, when its initializer has been passed. -/
def scopes (clauses : ForClauses) (outer : Scopes) : Scopes :=
  match clauses.initializer with
  | none => outer
  | some initializer => initializer.extend ([] :: outer)

/-- Resolves a loop in the scopes around it. -/
def resolve (context : Context) (outer : Scopes) (clauses : ForClauses) (body : Stmt) : Findings :=
  Stmt.resolveOption context ([] :: outer) clauses.initializer ++
    Expr.resolveOption context.cls (clauses.scopes outer) clauses.condition ++
    body.resolve context (clauses.scopes outer) ++
    Expr.resolveOption context.cls (clauses.scopes outer) clauses.increment

theorem relabel_scopes (clauses : ForClauses) (outer : Scopes) :
    (clauses.relabel (.renumber g)).scopes outer = clauses.scopes outer := by
  unfold scopes relabel
  cases clauses.initializer with
  | none => rfl
  | some initializer =>
      have h := Stmt.extend_relabel (f := .renumber g) ([] :: outer) initializer
      rw [Scopes.relabel_renumber, Scopes.relabel_renumber] at h
      exact h

/-- A copy is resolved as the loop is. -/
theorem resolve_renumber (context : Context) (outer : Scopes) (clauses : ForClauses) (body : Stmt) :
    (clauses.relabel (.renumber g)).resolve context outer (body.relabel (.renumber g)) =
      (clauses.resolve context outer body).relabel (.renumber g) := by
  have hoption : ∀ around (s? : Option Stmt),
      Stmt.resolveOption context around (s?.map (Stmt.relabel (.renumber g))) =
        (Stmt.resolveOption context around s?).relabel (.renumber g) := by
    intro around s?
    have h := Stmt.resolveOption_relabel (f := .renumber g) context around s?
    rwa [Scopes.relabel_renumber, Stmt.relabelOption_eq] at h
  have hexpr : ∀ around (e? : Option Expr),
      Expr.resolveOption context.cls around (e?.map (Expr.relabel (.renumber g))) =
        (Expr.resolveOption context.cls around e?).relabel (.renumber g) := by
    intro around e?
    have h := Expr.resolveOption_relabel (f := .renumber g) context.cls around e?
    rwa [Scopes.relabel_renumber] at h
  have hbody := Stmt.resolve_relabel (f := .renumber g) context (clauses.scopes outer) body
  rw [Scopes.relabel_renumber] at hbody
  unfold resolve
  rw [relabel_scopes, hbody]
  simp only [relabel, Findings.relabel_append, hoption, hexpr]

/-! ## Visits -/

/-- The visits to the parts of a loop, by the scopes around the loop, those of its condition, and those
of its body and its increment. -/
def visits (owner : Option ClassDecl) (outer inner round : Scopes) (clauses : ForClauses)
    (body : Stmt) : List Visit :=
  Stmt.visitsOption owner ([] :: outer) clauses.initializer ++
    Expr.visitsOption owner inner clauses.condition ++ body.visits owner round ++
    Expr.visitsOption owner round clauses.increment

theorem covers_resolve {context : Context} (hcontext : context.cls = .ofOwner owner)
    (outer : Scopes) (clauses : ForClauses) (body : Stmt) :
    Covers (clauses.resolve context outer body)
      (clauses.visits owner outer (clauses.scopes outer) (clauses.scopes outer) body) := by
  unfold resolve visits
  rw [hcontext]
  exact (((Stmt.covers_resolveOption hcontext _ _).append (Expr.covers_resolveOption _)).append
    (Stmt.covers_resolve hcontext _ _)).append (Expr.covers_resolveOption _)

/-- The scopes of a round in the tree for a loop. -/
def roundScopes (clauses : ForClauses) (inner : Scopes) : Scopes :=
  match clauses.increment with
  | none => inner
  | some _ => [] :: inner

theorem parallels_roundScopes (clauses : ForClauses) (inner : Scopes) :
    (clauses.roundScopes inner).Parallels clauses.hollow inner := by
  unfold roundScopes hollow
  cases clauses.increment with
  | none => exact .refl inner
  | some increment => exact .hollow inner

/-- The parts of a loop have the same expressions in whatever scopes they are visited. -/
theorem map_expr_visits (clauses : ForClauses) (body : Stmt) (owner : Option ClassDecl)
    (outer inner round : Scopes) :
    (clauses.visits owner outer inner round body).map Visit.expr =
      Stmt.expressions (Stmt.partsOption clauses.initializer) ++
        clauses.condition.toList.flatMap Expr.parts ++ Stmt.expressions body.parts ++
        clauses.increment.toList.flatMap Expr.parts := by
  simp [visits, Stmt.map_expr_visitsOption, Stmt.map_expr_visits, Expr.map_expr_visitsOption]

/-! ## The tree for a loop -/

theorem parts_subset_round (clauses : ForClauses) (body : Stmt) :
    body.parts ⊆ (clauses.round body).parts := by
  unfold round
  cases clauses.increment with
  | none => exact List.Subset.refl _
  | some increment =>
      exact List.subset_cons_of_subset _ (List.subset_append_left _ _)

theorem parts_subset_around (clauses : ForClauses) (loop : Stmt) :
    Stmt.partsOption clauses.initializer ++ loop.parts ⊆ (clauses.around loop).parts := by
  unfold around
  cases clauses.initializer with
  | none => exact List.Subset.refl _
  | some initializer =>
      refine List.subset_cons_of_subset _ ?_
      simp [Stmt.partsAll, Stmt.partsOption]

/-- The body declares nothing, so what is in scope in the body is in scope in the increment. -/
theorem visits_round (hplain : body.declares? = none) (hsound : Stmt.Sound body.parts)
    (inner : Scopes) :
    (clauses.round body).visits owner inner = body.visits owner (clauses.roundScopes inner) ++
      Expr.visitsOption owner (clauses.roundScopes inner) clauses.increment := by
  unfold round roundScopes
  cases clauses.increment with
  | none => exact (List.append_nil _).symm
  | some increment =>
      have hextend : body.extend ([] :: inner) = [] :: inner := by
        rw [Stmt.extend_of_plain _ body hsound.plain, hplain]
        rfl
      simp [Stmt.visits, Stmt.visitsAll, hextend, Expr.visitsOption]

theorem visits_around (clauses : ForClauses) (loop : Stmt) (outer : Scopes) :
    (clauses.around loop).visits owner outer =
      Stmt.visitsOption owner ([] :: outer) clauses.initializer ++
        loop.visits owner (clauses.scopes outer) := by
  unfold around scopes
  cases clauses.initializer with
  | none => rfl
  | some initializer => simp [Stmt.visits, Stmt.visitsAll, Stmt.visitsOption]

section Tree

variable {p p' : ParseState}

/-- The tree holds the statements of the initializer and of the body. -/
theorem parts_subset_tree (htree : forLoop clauses body p = .ok tree p') :
    Stmt.partsOption clauses.initializer ++ body.parts ⊆ tree.parts := by
  rcases forLoop_ok htree with ⟨test, -, rfl⟩
  have hbody : body.parts ⊆ (Stmt.while test (clauses.round body)).parts :=
    List.subset_cons_of_subset _ (clauses.parts_subset_round body)
  refine List.Subset.trans ?_ (clauses.parts_subset_around _)
  exact List.append_subset.mpr
    ⟨List.subset_append_left _ _, List.subset_append_of_subset_right _ hbody⟩

/-- The visits to the parts are among those to the tree, in the same order. Only a condition that is
missing has one more there. -/
theorem sublist_visits_tree (htree : forLoop clauses body p = .ok tree p')
    (hplain : body.declares? = none) (hsound : Stmt.Sound body.parts) (owner : Option ClassDecl)
    (outer : Scopes) : (clauses.visits owner outer (clauses.scopes outer)
      (clauses.roundScopes (clauses.scopes outer)) body).Sublist (tree.visits owner outer) := by
  rcases forLoop_ok htree with ⟨test, htest, rfl⟩
  have hcondition : (Expr.visitsOption owner (clauses.scopes outer) clauses.condition).Sublist
      (test.visits owner (clauses.scopes outer)) := by
    unfold ForClauses.test at htest
    cases hcondition : clauses.condition with
    | none => exact List.nil_sublist _
    | some condition =>
        rw [hcondition] at htest
        cases htest
        exact .refl _
  rw [visits, visits_around, Stmt.visits, visits_round hplain hsound, List.append_assoc,
    List.append_assoc]
  exact (List.Sublist.refl _).append (hcondition.append (.refl _))

/-- The expressions of the parts have different numbers if those of the tree have. -/
theorem nodup_visits (htree : forLoop clauses body p = .ok tree p') (hplain : body.declares? = none)
    (hsound : Stmt.Sound body.parts)
    (hnumbers : ((Stmt.expressions tree.parts).map Expr.number).Nodup) (owner : Option ClassDecl)
    (outer inner round : Scopes) :
    ((clauses.visits owner outer inner round body).map fun v => v.expr.number).Nodup := by
  have hsublist := (sublist_visits_tree htree hplain hsound owner outer).map Visit.expr
  rw [map_expr_visits, Stmt.map_expr_visits] at hsublist
  have hnodup := hnumbers.sublist (hsublist.map Expr.number)
  rw [← map_expr_visits clauses body owner outer inner round, List.map_map] at hnodup
  exact hnodup

end Tree

/-! ## Copies -/

/-- A copy of a loop is parallel to the parts of its tree. -/
theorem parallels_renumber {outer : Scopes} (hhomes : outer.Homes owner)
    (hinitializer : Stmt.Sound (Stmt.partsOption clauses.initializer))
    (hbody : Stmt.Sound body.parts) (hplain : body.declares? = none)
    (h : T.Records g
      (clauses.visits owner outer (clauses.scopes outer)
        (clauses.roundScopes (clauses.scopes outer)) body)
      (clauses.visits owner outer (clauses.scopes outer) (clauses.scopes outer) body)) :
    clauses.Parallels T (clauses.relabel (.renumber g)) body (body.relabel (.renumber g)) := by
  have hinner : (clauses.scopes outer).Homes owner := by
    unfold scopes
    cases hs : clauses.initializer with
    | none => exact hhomes
    | some s =>
        rw [hs] at hinitializer
        exact hhomes.enter.extend hinitializer
  have hround := clauses.parallels_roundScopes (clauses.scopes outer)
  have hround' : (clauses.roundScopes (clauses.scopes outer)).Homes owner := by
    unfold roundScopes
    cases clauses.increment with
    | none => exact hinner
    | some _ => exact hinner.enter
  refine ⟨?_, ?_, ?_, ?_⟩
  · have hrecords := h.left.left.left
    rw [relabel]
    cases hs : clauses.initializer with
    | none => exact .none
    | some s =>
        rw [hs] at hinitializer hrecords
        exact .some (s.parallels_renumber (.refl _) hhomes.enter hinitializer (fun heq => nomatch heq)
          hrecords)
  · exact Expr.parallels_renumberOption (.refl _) hinner _ h.left.left.right
  · exact body.parallels_renumber hround hround' hbody (fun _ => hplain) h.left.right
  · have hrecords := h.right
    unfold hollow at hround
    rw [relabel]
    cases he : clauses.increment with
    | none => exact .none
    | some e =>
        rw [he] at hround hrecords
        exact .some (e.parallels_renumber hround hround' hrecords)

end Parse.ForClauses

end Lox
