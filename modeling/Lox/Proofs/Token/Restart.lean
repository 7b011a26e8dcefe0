import Lox.Proofs.Relabel.Token
import Lox.Proofs.Token.Cut
import Lox.Proofs.Token.Tiling

/-!
# Scanning can be restarted

Scanning may begin in the middle of a text. What stands before the beginning has no influence on the
items but for their places, and it may begin again behind any item.

Main statement: `scanFrom_restart`.
-/

namespace Lox

/-- Numbers that are `count` greater, and places that stand `distance` bytes further into the text. -/
def Relabel.moved (count distance : Nat) : Relabel :=
  ⟨(· + count), Span.shift distance, []⟩

variable {before after : List Char} {start : Nat} {text : List Char} {item : Item}
  {front rest items : List Item}

/-- From a place between two characters on, what follows it is scanned. -/
theorem scanFrom_byteLength (before after : List Char) :
    scanFrom (before ++ after) (byteLength before) = scan (byteLength before) after := by
  rw [scanFrom, dropBytes?_byteLength]

/-- A text gives the same items wherever it begins, but for where they stand. -/
theorem scan_moved (start : Nat) (text : List Char) :
    scan start text = (scan 0 text).map (Item.relabel (.moved 0 start)) := by
  have hshift := scan_shift (f := .moved 0 start) rfl 0 text
  rwa [Nat.zero_add] at hshift

/-- A text with other text in front of it gives the same items, further on. -/
theorem scanFrom_moved (before after : List Char) :
    scanFrom (before ++ after) (byteLength before) =
      (scanFrom after 0).map (Item.relabel (.moved 0 (byteLength before))) := by
  calc
    scanFrom (before ++ after) (byteLength before)
        = scan (byteLength before) after := scanFrom_byteLength before after
    _ = (scan 0 after).map (Item.relabel (.moved 0 (byteLength before))) :=
          scan_moved (byteLength before) after
    _ = (scanFrom after 0).map (Item.relabel (.moved 0 (byteLength before))) := by
          rw [scanFrom, dropBytes?]

/-- Behind an item the rest of the text begins, and the items that follow tile it. Behind the end of
the input there is nothing. -/
theorem Tiles.behind (h : Tiles start text items) (hitems : items = front ++ item :: rest) :
    (rest = [] ∧ item = .ok (Token.endAt (start + byteLength text))) ∨
      rest ≠ [] ∧ ∃ left right, text = left ++ right ∧
        (Item.span item).stop = start + byteLength left ∧
          Tiles (start + byteLength left) right rest := by
  -- By induction on the tiling: the item is its first one, or it is among the others.
  induction h generalizing front with
  | @last start gap _ =>
      cases front with
      | nil =>
          cases hitems
          exact .inl ⟨rfl, rfl⟩
      | cons other front =>
          have hnil := (List.cons.inj hitems).2
          simp at hnil
  | @next start gap m items hlayout hcomment htakes htiles ih =>
      cases front with
      | nil =>
          rcases List.cons.inj hitems with ⟨rfl, rfl⟩
          refine .inr ⟨?_, gap ++ m.lexeme, m.rest, ?_, ?_, ?_⟩
          · rw [htiles.eq_scan]
            exact scan_ne_nil _ _
          · rw [List.append_assoc]
          · rw [span_item, Span.stop, byteLength_append]
            exact Nat.add_assoc _ _ _
          · rw [byteLength_append, ← Nat.add_assoc]
            exact htiles
      | cons other front =>
          rcases List.cons.inj hitems with ⟨-, hrest⟩
          rcases ih hrest with ⟨hnil, hend⟩ | ⟨hne, left, right, htext, hstop, hright⟩
          · refine .inl ⟨hnil, ?_⟩
            simp only [hend, byteLength_append, Nat.add_assoc]
          · -- Before the item there is also what the first item takes.
            refine .inr ⟨hne, gap ++ (m.lexeme ++ left), right, ?_, ?_, ?_⟩
            · simp only [htext, List.append_assoc]
            · simp only [hstop, byteLength_append, Nat.add_assoc]
            · simpa only [byteLength_append, Nat.add_assoc] using hright

/-- Scanning begins again behind an item of a text that stands at the end of another. -/
theorem scanFrom_stop (h : scan (byteLength before) after = front ++ item :: rest) :
    scanFrom (before ++ after) (Item.span item).stop = if rest = [] then [item] else rest := by
  rcases (tiles_scan (byteLength before) after).behind h with
    ⟨hnil, hend⟩ | ⟨hne, left, right, rfl, hstop, htiles⟩
  · -- Behind the end of the input, only the end is found again.
    have hstop : (Item.span item).stop = byteLength (before ++ after) := by
      rw [hend, byteLength_append]
      rfl
    have hlast := scanFrom_byteLength (before ++ after) []
    rw [List.append_nil] at hlast
    rw [if_pos hnil, hstop, hlast, scan_of_blank rfl, hend, byteLength_append]
    rfl
  · rw [if_neg hne, hstop, htiles.eq_scan, ← List.append_assoc, ← byteLength_append]
    exact scanFrom_byteLength (before ++ left) right

/-- A token stands in the text, written as its lexeme says, and takes up as much of it. -/
theorem exists_of_mem_scan {t : Token} (h : .ok t ∈ scan start text) :
    ∃ left right, text = left ++ t.lexeme.toList ++ right ∧
      t.span = ⟨start + byteLength left, byteLength t.lexeme.toList⟩ := by
  rcases (tiles_scan start text).exists_front with ⟨front, hscan, hfront⟩
  rw [hscan, List.mem_append] at h
  rcases h with hmem | hmem
  · rcases hfront _ hmem with ⟨left, m, htext, htakes, hitem⟩
    have hspan : t.span = ⟨start + byteLength left, byteLength m.lexeme⟩ :=
      (congrArg Item.span hitem).trans (span_item m _)
    rw [(htakes.token_item hitem.symm).2, String.toList_ofList]
    exact ⟨left, m.rest, by rw [htext, List.append_assoc], hspan⟩
  · -- The end of the input stands behind everything, and takes up nothing.
    rw [List.mem_singleton] at hmem
    cases hmem
    exact ⟨text, [], by simp [Token.endAt], rfl⟩

/-- A token is written in the text as its lexeme says. -/
theorem slice?_of_mem_scan {t : Token} (h : .ok t ∈ scan (byteLength before) after) :
    slice? (before ++ after) t.span = some t.lexeme.toList := by
  rcases exists_of_mem_scan h with ⟨left, right, hafter, hspan⟩
  rw [hspan, hafter, ← byteLength_append, List.append_assoc, ← List.append_assoc before,
    ← List.append_assoc]
  exact slice?_middle (before ++ left) t.lexeme.toList right

/-- Scanning a text from a place between two characters on gives the items of what follows, moved to
that place, up to the end of the whole text. It makes no difference what stands before that place, but
for how long it is. Each token is written as the whole text has it. Behind every item scanning can
begin again: it finds the items that followed, and behind the end of the input the end once more. -/
theorem scanFrom_restart (before after : List Char) :
    scanFrom (before ++ after) (byteLength before) =
        (scanFrom after 0).map (Item.relabel (.moved 0 (byteLength before))) ∧
      (scanFrom (before ++ after) (byteLength before)).getLast? =
        some (.ok (Token.endAt (byteLength (before ++ after)))) ∧
      (∀ other, byteLength other = byteLength before →
        scanFrom (other ++ after) (byteLength before) =
          scanFrom (before ++ after) (byteLength before)) ∧
      ∀ front item rest, scanFrom (before ++ after) (byteLength before) = front ++ item :: rest →
        (∀ t, item = .ok t → slice? (before ++ after) t.span = some t.lexeme.toList) ∧
          scanFrom (before ++ after) (Item.span item).stop = if rest = [] then [item] else rest := by
  refine ⟨scanFrom_moved before after, ?_, ?_, ?_⟩
  · rcases (tiles_scan (byteLength before) after).exists_front with ⟨front, hscan, -⟩
    rw [scanFrom_byteLength, hscan, List.getLast?_concat, byteLength_append]
  · intro other hlength
    rw [scanFrom_byteLength before, ← hlength, scanFrom_byteLength]
  · intro front item rest hitems
    rw [scanFrom_byteLength] at hitems
    refine ⟨?_, scanFrom_stop hitems⟩
    rintro t rfl
    apply slice?_of_mem_scan
    rw [hitems]
    simp

end Lox
