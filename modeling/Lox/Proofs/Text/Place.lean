import Lox.Proofs.Text.Line
import Lox.Text.Position
import Mathlib.Data.List.DropRight

/-!
# Counting places in lines

A place for the reader is found by going through the characters of the text. If only newlines end
lines, the place after some characters can be counted: its line is one more than the number of the
newlines among them, as it is for the line table, and its column one more than the number of the
characters after the last of those.

Places never repeat. So an index too large, as a number of bytes is where a longer character stands
before it, never leads to the same place.

Main statement: `Position.ofIndex?_byteLength_iff`.
-/

namespace Lox

/-- The newline is the only character of the text that ends a line. -/
def NewlineOnly (text : List Char) : Prop :=
  ∀ c ∈ text, Position.isTerminator c = true → c = '\n'

/-- Every character of the text is one byte long. -/
def SingleByte (text : List Char) : Prop :=
  ∀ c ∈ text, c.utf8Size = 1

instance (text : List Char) : Decidable (NewlineOnly text) :=
  List.decidableBAll (fun c : Char => Position.isTerminator c = true → c = '\n') text

instance (text : List Char) : Decidable (SingleByte text) :=
  List.decidableBAll (fun c : Char => c.utf8Size = 1) text

theorem byteLength_eq_length_iff {text : List Char} :
    byteLength text = text.length ↔ SingleByte text := by
  induction text with
  | nil =>
      exact ⟨fun _ => List.forall_mem_nil _, fun _ => rfl⟩
  | cons c cs ih =>
      have hpos : 0 < c.utf8Size := c.utf8Size_pos
      have hrest : cs.length ≤ byteLength cs := length_le_byteLength cs
      rw [SingleByte, List.forall_mem_cons, ← SingleByte, ← ih, byteLength_cons, List.length_cons]
      omega

/-- The beginning of a text is in single bytes if a longer one is. -/
theorem SingleByte.of_le {before rest plain more : List Char} (hplain : SingleByte plain)
    (htext : plain ++ more = before ++ rest) (hle : byteLength before ≤ byteLength plain) :
    SingleByte before := by
  rcases List.append_eq_append_iff.mp htext with ⟨extra, rfl, -⟩ | ⟨between, rfl, -⟩
  · have hnone : extra = [] := by
      have hlength := length_le_byteLength extra
      rw [byteLength_append] at hle
      exact List.eq_nil_of_length_eq_zero (by omega)
    rw [hnone, List.append_nil]
    exact hplain
  · exact fun c hc => hplain c (List.mem_append_left _ hc)

namespace Position

/-- The place after the characters `before`, where only newlines end lines. -/
def behind (before : List Char) : Position :=
  ⟨1 + before.count '\n', (before.rtakeWhile (· != '\n')).length + 1⟩

/-- The place after one more character, where only newlines end lines. -/
def next (p : Position) (c : Char) : Position :=
  if c = '\n' then ⟨p.line + 1, 1⟩ else ⟨p.line, p.column + 1⟩

theorem behind_concat (before : List Char) (c : Char) :
    behind (before ++ [c]) = (behind before).next c := by
  by_cases hc : c = '\n'
  · subst hc
    simp [behind, next, Nat.add_assoc]
  · simp [behind, next, hc]

/-! ## The order of places -/

/-- The place is before the other one in reading order. -/
def Precedes (p q : Position) : Prop :=
  p.line < q.line ∨ p.line = q.line ∧ p.column < q.column

theorem Precedes.ne {p q : Position} (h : p.Precedes q) : p ≠ q := by
  rintro rfl
  rcases h with hline | ⟨-, hcolumn⟩
  · exact Nat.lt_irrefl _ hline
  · exact Nat.lt_irrefl _ hcolumn

theorem Precedes.trans {p q r : Position} (hpq : p.Precedes q) (hqr : q.Precedes r) :
    p.Precedes r := by
  unfold Precedes at *
  omega

theorem precedes_step (p : Position) (breaks : Bool) :
    p.Precedes (if breaks then ⟨p.line + 1, 1⟩ else ⟨p.line, p.column + 1⟩) := by
  cases breaks with
  | true => exact .inl (Nat.lt_succ_self p.line)
  | false => exact .inr ⟨rfl, Nat.lt_succ_self p.column⟩

/-- Places further on come later. -/
theorem precedes_of_advance? {n : Nat} {p q : Position} {text : List Char}
    (h : advance? (n + 1) p text = some q) : p.Precedes q := by
  induction n generalizing p text with
  | zero =>
      cases text with
      | nil =>
          cases h
      | cons c cs =>
          cases h
          exact precedes_step p (breaksLine c cs)
  | succ n ih =>
      cases text with
      | nil =>
          cases h
      | cons c cs =>
          exact (precedes_step p (breaksLine c cs)).trans (ih h)

/-! ## Going through a text -/

theorem advance?_cons {n : Nat} {p : Position} {c : Char} {rest : List Char}
    (hc : isTerminator c = true → c = '\n') (hrest : rest ≠ []) :
    advance? (n + 1) p (c :: rest) = advance? n (p.next c) rest := by
  rcases List.exists_cons_of_ne_nil hrest with ⟨d, cs, rfl⟩
  have hbreaks : breaksLine c (d :: cs) = decide (c = '\n') := by
    by_cases hnewline : c = '\n'
    · subst hnewline
      rfl
    · have hnot : isTerminator c = false := Bool.eq_false_iff.mpr fun h => hnewline (hc h)
      simp [breaksLine, hnot, hnewline]
  rw [advance?, hbreaks, next]
  simp only [decide_eq_true_eq]

/-- The place after the characters before it, and further on. -/
theorem advance?_behind {before middle rest : List Char} (hlines : NewlineOnly middle)
    (hrest : rest ≠ []) (n : Nat) :
    advance? (middle.length + n) (behind before) (middle ++ rest) =
      advance? n (behind (before ++ middle)) rest := by
  induction middle generalizing before with
  | nil =>
      rw [List.length_nil, Nat.zero_add, List.nil_append, List.append_nil]
  | cons c middle ih =>
      rcases List.forall_mem_cons.mp hlines with ⟨hc, hmiddle⟩
      have hnext : middle ++ rest ≠ [] := List.append_ne_nil_of_right_ne_nil middle hrest
      rw [List.length_cons, Nat.add_right_comm, List.cons_append, advance?_cons hc hnext,
        ← behind_concat, ih hmiddle, List.append_assoc, List.singleton_append]

/-- If the number of bytes before a character is taken for its index, the place found is the right one
exactly if all characters before it are single bytes. -/
theorem ofIndex?_byteLength_iff {before rest : List Char} (hlines : NewlineOnly before)
    (hrest : rest ≠ []) :
    ofIndex? (before ++ rest) (byteLength before) = some (behind before) ↔ SingleByte before := by
  rcases Nat.exists_eq_add_of_le (length_le_byteLength before) with ⟨extra, hextra⟩
  have hfound : ofIndex? (before ++ rest) (byteLength before) = advance? extra (behind before) rest := by
    rw [ofIndex?, hextra]
    exact @advance?_behind [] before rest hlines hrest extra
  rw [hfound, ← byteLength_eq_length_iff, hextra]
  cases extra with
  | zero =>
      exact ⟨fun _ => rfl, fun _ => rfl⟩
  | succ extra =>
      refine ⟨fun h => absurd rfl (precedes_of_advance? h).ne, fun h => ?_⟩
      omega

end Position

end Lox
