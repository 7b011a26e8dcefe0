import Lox.Proofs.Relabel.Tree
import Lox.Proofs.Token.Scan
import Lox.Syntax.Error

/-!
# Items of a text at another place

If a text begins later, then what is read in it is the same, and stands later.

Main statement: `scan_shift`.
-/

namespace Lox

def LexicalError.relabel (f : Relabel) (e : LexicalError) : LexicalError :=
  ⟨e.cause, f.place e.span⟩

def SyntaxError.relabel (f : Relabel) (e : SyntaxError) : SyntaxError :=
  ⟨e.cause, f.place e.span⟩

/-- A token or a mistake at another place. -/
def Item.relabel (f : Relabel) : Item → Item
  | .ok t => .ok (t.relabel f)
  | .error e => .error (e.relabel f)

variable {f : Relabel}

@[simp] theorem SyntaxError.relabel_code (e : SyntaxError) : (e.relabel f).code = e.code := by
  rcases e with ⟨cause, span⟩
  cases cause <;> rfl

@[simp] theorem SyntaxError.relabel_message (e : SyntaxError) :
    (e.relabel f).message = e.message := by
  rcases e with ⟨cause, span⟩
  cases cause <;> rfl

theorem Munch.relabel_item {distance : Nat} (hf : f.place = Span.shift distance) (m : Munch)
    (start : Nat) : Item.relabel f (m.item start) = m.item (start + distance) := by
  unfold item
  cases m.outcome <;> simp only [Item.relabel, Token.relabel, LexicalError.relabel, hf, Span.shift]

/-- A text that begins `distance` bytes later gives the same items, `distance` bytes later. -/
theorem scan_shift {distance : Nat} (hf : f.place = Span.shift distance) (offset : Nat)
    (text : List Char) :
    scan (offset + distance) text = (scan offset text).map (Item.relabel f) := by
  induction offset, text using scan_induction with
  | blank offset text hrest =>
      rw [scan_of_blank hrest, scan_of_blank hrest]
      simp only [List.map_cons, List.map_nil, Item.relabel, Token.relabel, Token.endAt, hf,
        Span.shift]
      rw [Nat.add_right_comm]
  | step offset text c cs hrest ih =>
      rw [scan_of_munch hrest, scan_of_munch hrest, List.map_cons, ← ih, Munch.relabel_item hf]
      simp only [Nat.add_right_comm _ distance]

end Lox
