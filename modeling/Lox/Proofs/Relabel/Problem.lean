import Lox.Proofs.Relabel.Scope
import Lox.Proofs.Relabel.Token
import Lox.Proofs.Relabel.Value
import Lox.Report.Problem

/-!
# Problems at other places

A problem says the same wherever it is found.

Main statement: `Problem.relabel_wording`.
-/

namespace Lox

/-- What a notice says, apart from places. -/
structure Wording where
  code : String
  message : String
  remarks : List String
  deriving DecidableEq, Repr

def Notice.wording (n : Notice) : Wording :=
  ⟨n.code, n.message, n.remarks.map Remark.text⟩

/-- What a problem says, apart from places. -/
def Problem.wording (p : Problem) : Wording :=
  p.notice.wording

def Problem.relabel (f : Relabel) : Problem → Problem
  | .grammar e => .grammar (e.relabel f)
  | .scope e => .scope (e.relabel f)
  | .fault e => .fault (e.relabel f)

variable {f : Relabel}

/-- Whether the input ended is seen from the place of a mistake. -/
theorem SyntaxError.relabel_isAtEnd (hf : ∀ s, (f.place s).isEmpty = s.isEmpty) (e : SyntaxError) :
    (e.relabel f).isAtEnd = e.isAtEnd := by
  rcases e with ⟨cause, span⟩
  cases cause with
  | lexical cause =>
      rfl
  | _ =>
      exact hf span

theorem SyntaxError.relabel_wording (hf : ∀ s, (f.place s).isEmpty = s.isEmpty) (e : SyntaxError) :
    (e.relabel f).notice.wording = e.notice.wording := by
  have hremark : (e.relabel f).remark = e.remark := by
    unfold remark
    rw [relabel_isAtEnd hf]
    rfl
  simp only [notice, Notice.wording, relabel_code, relabel_message, hremark, List.map_cons,
    List.map_nil]

theorem ScopeError.relabel_wording (e : ScopeError) :
    (e.relabel f).notice.wording = e.notice.wording := by
  rcases e with ⟨cause, span⟩
  cases cause <;> rfl

theorem FaultCause.relabel_remark (c : FaultCause) : (c.relabel f).remark = c.remark := by
  unfold remark
  cases c <;> simp only [relabel, Value.relabel_typeName, Value.relabel_text]

theorem Fault.relabel_wording (fault : Fault) :
    (fault.relabel f).notice.wording = fault.notice.wording := by
  rcases fault with ⟨cause, span⟩
  simp only [relabel, notice, Notice.wording, FaultCause.relabel_code, FaultCause.relabel_message,
    FaultCause.relabel_remark, List.map_cons, List.map_nil]

/-- A problem says the same at another place, if the end of the input stays the end. -/
theorem Problem.relabel_wording (hf : ∀ s, (f.place s).isEmpty = s.isEmpty) (p : Problem) :
    (p.relabel f).wording = p.wording := by
  cases p with
  | grammar e =>
      exact e.relabel_wording hf
  | scope e =>
      exact e.relabel_wording
  | fault e =>
      exact e.relabel_wording

end Lox
