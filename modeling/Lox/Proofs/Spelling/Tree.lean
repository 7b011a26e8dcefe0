import Lox.Proofs.Session.Identity
import Lox.Proofs.Spelling.Text
import Lox.Proofs.Syntax.Places

/-!
# The places of trees in an arena

A tree keeps the places of the nodes that stand for it in an arena, and no others.

Main statement: `Arena.Stores.placed`.
-/

namespace Lox

theorem Expr.idents_shape (e : Expr) : e.shape.idents = e.idents := by
  cases e <;> rfl

namespace Arena

variable {a : Arena} {i : Index} {P : Span → Prop}

theorem mem_toList_of_getElem? {α : Type} {xs : Array α} {n : Nat} {x : α} (h : xs[n]? = some x) :
    x ∈ xs.toList :=
  Array.mem_toList_iff.mpr (Array.mem_of_getElem? h)

/-- The parts of an expression keep places of their nodes. -/
theorem ShowsExpr.placed {e : Expr} (h : a.ShowsExpr i e) (hP : ∀ place ∈ a.places, P place) :
    ∀ part ∈ e.parts, ∀ place ∈ part.places, P place := by
  intro part hpart
  have hentry : part.entry ∈ a.expressions.toList := mem_toList_of_getElem? (h.parts part hpart)
  refine List.forall_mem_cons.mpr ⟨hP _ (places_of_entry hentry), ?_⟩
  intro place hplace
  rcases List.mem_map.mp hplace with ⟨name, hname, rfl⟩
  rw [← part.idents_shape] at hname
  exact hP _ (places_of_ident (idents_of_entry hentry hname))

/-- The names of a function are names of its node. -/
theorem ShowsRoutine.idents {f : Index} {r : FunctionDecl} (h : a.ShowsRoutine f r) :
    ∀ name ∈ Stmt.routineIdents r, name ∈ a.idents := by
  rcases r with ⟨own, parameters, body⟩
  rcases h with ⟨js, hnode, -⟩
  exact fun name hname => idents_of_function (mem_toList_of_getElem? hnode) hname

/-- The names of a statement are names of its node, and of the nodes of the functions in it. -/
theorem ShowsStmt.idents {s : Stmt} (h : a.ShowsStmt i s) : ∀ name ∈ s.idents, name ∈ a.idents := by
  intro name hname
  cases s with
  | var own initial =>
      rcases h with ⟨x?, hnode, -⟩
      exact idents_of_statement (mem_toList_of_getElem? hnode) hname
  | function r =>
      rcases h with ⟨f, -, hf⟩
      exact hf.idents name hname
  | «class» own parent methods =>
      rcases h with ⟨x?, fs, hnode, -, hfs⟩
      rcases List.mem_cons.mp hname with rfl | hname
      · exact idents_of_statement (mem_toList_of_getElem? hnode) List.mem_cons_self
      · rcases List.mem_flatMap.mp hname with ⟨r, hr, hname⟩
        rcases hfs.exists_of_mem hr with ⟨f, -, hf⟩
        exact hf.idents name hname
  | _ =>
      cases hname

theorem ShowsStmt.keywords {s : Stmt} (h : a.ShowsStmt i s) :
    ∀ place ∈ s.keyword?, place ∈ a.keywords := by
  intro place hplace
  cases s with
  | «return» keyword value =>
      cases hplace
      rcases h with ⟨x?, hnode, -⟩
      exact List.mem_filterMap.mpr ⟨_, mem_toList_of_getElem? hnode, rfl⟩
  | _ =>
      cases hplace

/-- The programs in an arena keep places of the nodes in it. -/
theorem Stores.placed {programs : List (List Stmt)} {roots : List (List Index)}
    (h : a.Stores programs roots) (hP : ∀ place ∈ a.places, P place) :
    Stmt.PlacedIn P (Stmt.partsAll programs.flatten) := by
  -- Every part of the programs is shown by a node that is met from the roots.
  rcases h.reached with ⟨met, hclosed, hroots, -⟩
  have hparts := ShowsAll.parts_met hclosed programs.flatten (showsAll_flatten h.shows) hroots
  refine ⟨?_, ?_, ?_⟩
  · intro e he
    rcases List.mem_flatMap.mp he with ⟨s, hs, he⟩
    rcases List.mem_flatMap.mp he with ⟨operand, hoperand, he⟩
    rcases hparts s hs with ⟨i, hshows, hi⟩
    rcases hshows.operands_met hclosed hi operand hoperand with ⟨x, hx, -⟩
    exact hx.placed hP e he
  · intro s hs name hname
    rcases hparts s hs with ⟨i, hshows, -⟩
    exact hP _ (places_of_ident (hshows.idents name hname))
  · intro s hs place hplace
    rcases hparts s hs with ⟨i, hshows, -⟩
    exact hP _ (places_of_keyword (hshows.keywords place hplace))

end Arena

end Lox
