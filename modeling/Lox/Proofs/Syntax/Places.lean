import Lox.Proofs.Syntax.Parts
import Lox.Report.Notice

/-!
# The places that trees keep

A tree keeps the places of its expressions, of the names that are written in it, and of the keyword of a
`return`. Reports cite places.

`Stmt.PlacedIn` says that all places of statements have a property.
-/

namespace Lox

/-- The places that a notice cites. -/
def Notice.places (n : Notice) : List Span :=
  n.span :: n.remarks.map Remark.span

/-- The places that an expression keeps itself. -/
def Expr.places (e : Expr) : List Span :=
  e.node.span :: e.idents.map Ident.span

namespace Stmt

/-- The keyword that a statement keeps the place of. -/
def keyword? : Stmt → Option Span
  | .return keyword _ => some keyword
  | _ => none

/-- All places that statements keep themselves, and those of their expressions, have a property. -/
structure PlacedIn (P : Span → Prop) (ss : List Stmt) : Prop where
  expressions : ∀ e ∈ expressions ss, ∀ place ∈ e.places, P place
  names : ∀ s ∈ ss, ∀ name ∈ s.idents, P name.span
  keywords : ∀ s ∈ ss, ∀ place ∈ s.keyword?, P place

namespace PlacedIn

variable {P : Span → Prop} {s : Stmt} {ss ts : List Stmt}

theorem subset (h : PlacedIn P ts) (hsub : ss ⊆ ts) : PlacedIn P ss := by
  refine ⟨?_, fun s hs => h.names s (hsub hs), fun s hs => h.keywords s (hsub hs)⟩
  intro e he
  rcases List.mem_flatMap.mp he with ⟨s, hs, he⟩
  exact h.expressions e (List.mem_flatMap.mpr ⟨s, hsub hs, he⟩)

theorem left (h : PlacedIn P (ss ++ ts)) : PlacedIn P ss :=
  h.subset (List.subset_append_left _ _)

theorem right (h : PlacedIn P (ss ++ ts)) : PlacedIn P ts :=
  h.subset (List.subset_append_right _ _)

theorem tail (h : PlacedIn P (s :: ss)) : PlacedIn P ss :=
  h.subset (List.subset_cons_self _ _)

/-- The parts of an expression that stands in a statement. -/
theorem operand (h : PlacedIn P ss) (hs : s ∈ ss) {e : Expr} (he : e ∈ s.operands) :
    ∀ part ∈ e.parts, ∀ place ∈ part.places, P place :=
  fun part hpart => h.expressions part
    (List.mem_flatMap.mpr ⟨s, hs, List.mem_flatMap.mpr ⟨e, he, hpart⟩⟩)

end PlacedIn

end Stmt

end Lox
