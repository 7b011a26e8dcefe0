import Lox.Text.LineTable
import Mathlib.Data.List.Basic

/-!
# Finding a line is counting newlines

The ranges of a line table follow one another from the first byte on. So a position divides them:
those that end at or before it come first, and of the others at most the first one holds it. The
bisection finds that one, and the line of a position is one more than the number of ranges that end
at or before it. Up to the end of the text those are the newlines before the position.

Main statement: `LineTable.lineAt_counts_newlines`.
-/

namespace Lox

/-! ## The bytes of a text -/

/-- The UTF-8 form of a text. -/
def utf8 (text : List Char) : List UInt8 :=
  text.flatMap String.utf8EncodeChar

/-- The byte that stands for the newline character. -/
def newline : UInt8 :=
  10

@[simp] theorem utf8_nil : utf8 [] = [] :=
  rfl

@[simp] theorem utf8_cons (c : Char) (cs : List Char) :
    utf8 (c :: cs) = String.utf8EncodeChar c ++ utf8 cs :=
  rfl

theorem utf8_append (cs ds : List Char) : utf8 (cs ++ ds) = utf8 cs ++ utf8 ds :=
  List.flatMap_append

@[simp] theorem length_utf8 (text : List Char) : (utf8 text).length = byteLength text := by
  induction text with
  | nil =>
      rfl
  | cons c cs ih =>
      rw [utf8_cons, List.length_append, String.length_utf8EncodeChar, ih, byteLength_cons]

theorem length_le_byteLength (text : List Char) : text.length ≤ byteLength text := by
  induction text with
  | nil =>
      exact Nat.le_refl 0
  | cons c cs ih =>
      have hpos : 0 < c.utf8Size := c.utf8Size_pos
      rw [List.length_cons, byteLength_cons]
      omega

theorem utf8EncodeChar_newline : String.utf8EncodeChar '\n' = [newline] := by
  decide

theorem newline_ne_ofNat {n : Nat} (hsize : n < 256) (hn : n ≠ 10) : newline ≠ UInt8.ofNat n := by
  intro h
  have hnat : 10 = n % 256 := congrArg UInt8.toNat h
  rw [Nat.mod_eq_of_lt hsize] at hnat
  exact hn hnat.symm

/-- The newline byte stands for the newline character only: the bytes of a character that takes more
than one byte are all greater. -/
theorem newline_notMem_utf8EncodeChar {c : Char} (hc : c ≠ '\n') :
    newline ∉ String.utf8EncodeChar c := by
  have hval : c.val.toNat ≠ 10 := fun h => hc (Char.ext (UInt32.toNat_inj.mp h))
  rw [String.utf8EncodeChar]
  -- One case for each number of bytes. The bytes of a longer encoding are at least 128.
  split_ifs <;> simp only [List.mem_cons, List.not_mem_nil, or_false, not_or]
  · exact newline_ne_ofNat (by omega) hval
  · exact ⟨newline_ne_ofNat (by omega) (by omega), newline_ne_ofNat (by omega) (by omega)⟩
  · exact ⟨newline_ne_ofNat (by omega) (by omega), newline_ne_ofNat (by omega) (by omega),
      newline_ne_ofNat (by omega) (by omega)⟩
  · exact ⟨newline_ne_ofNat (by omega) (by omega), newline_ne_ofNat (by omega) (by omega),
      newline_ne_ofNat (by omega) (by omega), newline_ne_ofNat (by omega) (by omega)⟩

/-- There are as many newline bytes as newline characters. -/
theorem count_newline_utf8 (text : List Char) :
    (utf8 text).count newline = text.count '\n' := by
  induction text with
  | nil =>
      rfl
  | cons c cs ih =>
      rw [utf8_cons, List.count_append, ih, List.count_cons]
      by_cases hc : c = '\n'
      · subst hc
        rw [Nat.add_comm]
        rfl
      · rw [List.count_eq_zero.mpr (newline_notMem_utf8EncodeChar hc)]
        simp [hc]

namespace LineTable

/-! ## Bisection -/

/-- A position divides the ranges at the index `k`: exactly those before it have ended, and those
after it have not begun. -/
structure Splits (ranges : Array Span) (offset k : Nat) : Prop where
  le_size : k ≤ ranges.size
  stop_le : ∀ {i : Nat} {range : Span}, ranges[i]? = some range → (range.stop ≤ offset ↔ i < k)
  start_le : ∀ {i : Nat} {range : Span}, ranges[i]? = some range → (range.start ≤ offset ↔ i ≤ k)

/-- The bisection finds the index at which the ranges are divided, if it is in the interval. -/
theorem bisect?_of_splits {ranges : Array Span} {offset k : Nat} (h : Splits ranges offset k)
    (low high : Nat) (hhigh : high ≤ ranges.size) :
    bisect? ranges offset low high = if low ≤ k ∧ k < high then some k else none := by
  -- In each round the half is kept that contains `k`, if it is in the interval at all.
  induction low, high using bisect?.induct ranges offset with
  | case1 low high hlt middle hnone =>
      have hsize : ranges.size ≤ (low + high) / 2 := Array.getElem?_eq_none_iff.mp hnone
      omega
  | case2 low high hlt middle range hrange hbefore ih =>
      have hk : k < middle := by
        have := h.start_le hrange
        omega
      have hin : (low ≤ k ∧ k < middle) ↔ (low ≤ k ∧ k < high) := by omega
      rw [bisect?, if_pos hlt]
      simp only [middle] at *
      simp only [hrange, if_pos hbefore, ih (by omega), hin]
  | case3 low high hlt middle range hrange hbefore hafter ih =>
      have hk : middle < k := (h.stop_le hrange).mp hafter
      have hin : (middle + 1 ≤ k ∧ k < high) ↔ (low ≤ k ∧ k < high) := by omega
      rw [bisect?, if_pos hlt]
      simp only [middle] at *
      simp only [hrange, if_neg hbefore, if_pos hafter, ih (by omega), hin]
  | case4 low high hlt middle range hrange hbefore hafter =>
      have hk : middle = k := by
        have := h.start_le hrange
        have := h.stop_le hrange
        omega
      have hin : low ≤ k ∧ k < high := by omega
      rw [bisect?, if_pos hlt]
      simp only [middle] at *
      simp only [hrange, if_neg hbefore, if_neg hafter]
      rw [hk, if_pos hin]
  | case5 low high hnot =>
      rw [bisect?, if_neg hnot, if_neg (by omega)]

/-- The line of a position is the one after the ranges that have ended. -/
theorem lineAt_of_splits {t : LineTable} {offset k : Nat} (h : Splits t.ranges offset k) :
    t.lineAt offset = k + 1 := by
  have hsize : k ≤ t.ranges.size := h.le_size
  rw [lineAt, bisect?_of_splits h 0 t.ranges.size (Nat.le_refl _)]
  by_cases hk : k < t.ranges.size
  · rw [if_pos ⟨Nat.zero_le k, hk⟩]
  · have hlast : k = t.ranges.size := by omega
    rw [if_neg (fun hin => hk hin.2), hlast]
    rfl

/-! ## The ranges of a text -/

/-- The ranges follow one another, and the first one begins at byte `first`. -/
def Adjoin : Nat → List Span → Prop
  | _, [] => True
  | first, range :: ranges => range.start = first ∧ Adjoin range.stop ranges

/-- The number of ranges that end at or before a position. -/
def ended (ranges : List Span) (offset : Nat) : Nat :=
  ranges.countP fun range => decide (range.stop ≤ offset)

theorem Adjoin.le_start {first : Nat} {ranges : List Span} (h : Adjoin first ranges) :
    ∀ range ∈ ranges, first ≤ range.start := by
  induction ranges generalizing first with
  | nil =>
      intro range hrange
      cases hrange
  | cons head ranges ih =>
      rcases h with ⟨hhead, hranges⟩
      intro range hrange
      rcases List.mem_cons.mp hrange with rfl | hin
      · exact Nat.le_of_eq hhead.symm
      · have hstop : head.stop ≤ range.start := ih hranges range hin
        rw [Span.stop] at hstop
        omega

/-- A position before the first range has no range ended. -/
theorem Adjoin.ended_eq_zero {first offset : Nat} {ranges : List Span} (h : Adjoin first ranges)
    (hoffset : offset < first) : ended ranges offset = 0 := by
  rw [ended, List.countP_eq_zero]
  intro range hrange hstop
  have hfirst : first ≤ range.start := h.le_start range hrange
  rw [decide_eq_true_iff, Span.stop] at hstop
  omega

theorem Adjoin.divides {first offset : Nat} {ranges : List Span} (h : Adjoin first ranges)
    (hfirst : first ≤ offset) {i : Nat} {range : Span} (hrange : ranges[i]? = some range) :
    (range.stop ≤ offset ↔ i < ended ranges offset) ∧
      (range.start ≤ offset ↔ i ≤ ended ranges offset) := by
  induction ranges generalizing first i with
  | nil =>
      cases hrange
  | cons head ranges ih =>
      rcases h with ⟨hhead, hranges⟩
      rw [ended, List.countP_cons]
      -- If the first range has not ended at the position, no later one has begun there.
      by_cases hstop : head.stop ≤ offset
      · rw [if_pos (decide_eq_true hstop)]
        cases i with
        | zero =>
            cases hrange
            rw [Span.stop] at *
            omega
        | succ i =>
            have hlater := ih hranges hstop hrange
            rw [ended] at hlater
            omega
      · have hzero := hranges.ended_eq_zero (Nat.lt_of_not_le hstop)
        rw [ended] at hzero
        rw [if_neg (by simpa using hstop), hzero]
        cases i with
        | zero =>
            cases hrange
            omega
        | succ i =>
            have hstart := hranges.le_start range (List.mem_of_getElem? hrange)
            rw [Span.stop] at *
            omega

theorem splits_of_adjoin {offset : Nat} {ranges : List Span} (h : Adjoin 0 ranges) :
    Splits ranges.toArray offset (ended ranges offset) where
  le_size := List.countP_le_length
  stop_le hrange := (h.divides (Nat.zero_le offset) (by simpa using hrange)).1
  start_le hrange := (h.divides (Nat.zero_le offset) (by simpa using hrange)).2

theorem adjoin_rangesFrom {first offset : Nat} (closed : Bool) (text : List Char)
    (h : first ≤ offset) : Adjoin first (rangesFrom first offset closed text) := by
  induction text generalizing first offset closed with
  | nil =>
      cases closed with
      | true => exact trivial
      | false => exact ⟨rfl, trivial⟩
  | cons c cs ih =>
      rw [rangesFrom]
      split_ifs
      · have hstop : first + (offset + c.utf8Size - first) = offset + c.utf8Size := by omega
        refine ⟨rfl, ?_⟩
        rw [Span.stop, hstop]
        exact ih true (Nat.le_refl _)
      · exact ih false (by omega)

/-- The line of a position is one more than the number of ranges that end at or before it. -/
theorem lineAt_ofText (text : List Char) (offset : Nat) :
    (ofText text).lineAt offset = ended (rangesFrom 0 0 false text) offset + 1 :=
  lineAt_of_splits (splits_of_adjoin (adjoin_rangesFrom false text (Nat.le_refl 0)))

theorem ended_mono (ranges : List Span) {a b : Nat} (h : a ≤ b) :
    ended ranges a ≤ ended ranges b := by
  apply List.countP_mono_left
  intro range _ hstop
  rw [decide_eq_true_iff] at *
  exact Nat.le_trans hstop h

/-- Within the text, the ranges that have ended are the newlines that have been passed. -/
theorem ended_rangesFrom {first start offset : Nat} (closed : Bool) (text : List Char)
    (hfirst : first ≤ start) (hoffset : offset ≤ start + byteLength text) :
    ended (rangesFrom first start closed text) offset =
      ((utf8 text).take (offset - start)).count newline := by
  -- Both sides lose one at a newline that has been passed, and nothing at any other character.
  induction text generalizing first start closed with
  | nil =>
      rw [byteLength_nil] at hoffset
      have hstop : ¬first + (start + 1 - first) ≤ offset := by omega
      cases closed with
      | true => simp [rangesFrom, ended]
      | false => simp [rangesFrom, ended, Span.stop, hstop]
  | cons c cs ih =>
      rw [byteLength_cons] at hoffset
      rw [rangesFrom, utf8_cons, List.take_append, List.count_append,
        String.length_utf8EncodeChar, Nat.sub_sub]
      split_ifs with hc
      · subst hc
        have hstop : first + (start + '\n'.utf8Size - first) = start + '\n'.utf8Size := by omega
        rw [ended, List.countP_cons, ← ended, ih true (Nat.le_refl _) (by omega), Span.stop, hstop,
          Nat.add_comm]
        congr 1
        have hsize : '\n'.utf8Size = 1 := rfl
        rw [utf8EncodeChar_newline]
        cases hpassed : offset - start with
        | zero =>
            rw [if_neg (by rw [decide_eq_true_iff]; omega)]
            rfl
        | succ passed =>
            rw [if_pos (by rw [decide_eq_true_iff]; omega), List.take_succ_cons, List.take_nil]
            rfl
      · have hnone : newline ∉ (String.utf8EncodeChar c).take (offset - start) :=
          fun hin => newline_notMem_utf8EncodeChar hc (List.mem_of_mem_take hin)
        rw [ih false (by omega) (by omega), List.count_eq_zero.mpr hnone, Nat.zero_add]

theorem lineAt_of_le {text : List Char} {offset : Nat} (h : offset ≤ byteLength text) :
    (ofText text).lineAt offset = 1 + ((utf8 text).take offset).count newline := by
  have hended := ended_rangesFrom false text (Nat.le_refl 0) (by omega : offset ≤ 0 + byteLength text)
  rw [lineAt_ofText, hended, Nat.sub_zero, Nat.add_comm]

/-- The line on which what follows a beginning of the text begins. -/
theorem lineAt_byteLength (before rest : List Char) :
    (ofText (before ++ rest)).lineAt (byteLength before) = 1 + before.count '\n' := by
  rw [lineAt_of_le (byteLength_le_append before rest), utf8_append, List.take_left' (length_utf8 before),
    count_newline_utf8]

/-! ## 32 bits suffice -/

theorem stop_rangesFrom_le {first start : Nat} (closed : Bool) (text : List Char)
    (hfirst : first ≤ start) :
    ∀ range ∈ rangesFrom first start closed text, range.stop ≤ start + byteLength text + 1 := by
  induction text generalizing first start closed with
  | nil =>
      cases closed with
      | true => simp [rangesFrom]
      | false =>
          simp only [rangesFrom, Bool.false_eq_true, if_false, List.mem_singleton, forall_eq,
            Span.stop, byteLength_nil]
          omega
  | cons c cs ih =>
      intro range hrange
      rw [byteLength_cons]
      rw [rangesFrom] at hrange
      split_ifs at hrange
      · rcases List.mem_cons.mp hrange with rfl | hin
        · show first + (start + c.utf8Size - first) ≤ _
          omega
        · have hstop := ih true (Nat.le_refl _) range hin
          omega
      · have hstop := ih false (by omega) range hrange
        omega

theorem length_rangesFrom_le (first start : Nat) (closed : Bool) (text : List Char) :
    (rangesFrom first start closed text).length ≤
      if closed then text.length else max 1 text.length := by
  induction text generalizing first start closed with
  | nil =>
      cases closed <;> exact Nat.le_refl _
  | cons c cs ih =>
      -- One range for each newline, and one more for what is behind the last of them.
      have hrest : (rangesFrom first start closed (c :: cs)).length ≤ cs.length + 1 := by
        rw [rangesFrom]
        split_ifs
        · exact Nat.succ_le_succ (ih _ _ true)
        · exact Nat.le_trans (ih _ _ false) (by rw [if_neg Bool.false_ne_true]; omega)
      rw [List.length_cons]
      split_ifs <;> omega

/-- Finding a line by bisection is counting newlines. The line of a position, from the first byte of
the text to its end, is one more than the number of newline bytes before it, and no position has a
lesser line than an earlier one, even beyond the end. All ranges and lines of a text of fewer than
`2 ^ 32 - 1` bytes are numbers of 32 bits. -/
theorem lineAt_counts_newlines (text : List Char) (hsize : byteLength text < UInt32.size - 1) :
    (∀ offset ≤ byteLength text,
        (ofText text).lineAt offset = 1 + ((utf8 text).take offset).count newline) ∧
      (∀ a b : Nat, a ≤ b → (ofText text).lineAt a ≤ (ofText text).lineAt b) ∧
        (∀ range ∈ (ofText text).ranges, range.stop < UInt32.size) ∧
          (ofText text).lastLine < UInt32.size := by
  refine ⟨fun offset => lineAt_of_le, ?_, ?_, ?_⟩
  · intro a b hab
    rw [lineAt_ofText, lineAt_ofText]
    exact Nat.succ_le_succ (ended_mono _ hab)
  · intro range hrange
    have hstop := stop_rangesFrom_le false text (Nat.le_refl 0) range (List.mem_toArray.mp hrange)
    omega
  · have hlength := length_rangesFrom_le 0 0 false text
    have hbytes := length_le_byteLength text
    have hword : UInt32.size = 4294967296 := rfl
    rw [if_neg Bool.false_ne_true] at hlength
    rw [lastLine, ofText, List.size_toArray]
    omega

theorem lineAt_counts_newlines_twoLines :
    byteLength ['a', '\n', 'b', 'c', '\n'] < UInt32.size - 1 ∧
      (ofText ['a', '\n', 'b', 'c', '\n']).lineAt 0 = 1 ∧
        (ofText ['a', '\n', 'b', 'c', '\n']).lineAt 2 = 2 ∧
          (ofText ['a', '\n', 'b', 'c', '\n']).lineAt 5 = 3 := by
  have h := lineAt_counts_newlines ['a', '\n', 'b', 'c', '\n'] (by decide)
  exact ⟨by decide, h.1 0 (by decide), h.1 2 (by decide), h.1 5 (by decide)⟩

end LineTable

end Lox
