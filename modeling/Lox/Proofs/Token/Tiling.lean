import Lox.Proofs.Token.Lexeme

/-!
# Items tile the text

A text is divided into items from left to right. Between two items there is nothing but white space
and comments, and each item takes as much as it may. `Tiles` says this without the reader.

Main statement: `scan_tiles`.
-/

namespace Lox

/-- White space and comments, and what follows them. A comment runs from two slashes up to the newline
or the end of the text. -/
inductive Layout : List Char → List Char → Prop
  | nil {after : List Char} : Layout [] after
  | blank {c : Char} {gap after : List Char} :
      isBlank c = true → Layout gap after → Layout (c :: gap) after
  | comment {body gap after : List Char} :
      '\n' ∉ body → (∀ c ∈ (gap ++ after).head?, c = '\n') → Layout gap after →
        Layout ('/' :: '/' :: (body ++ gap)) after

/-- The items of a text that begins at byte `start`. Each takes what may be taken where no comment
begins, and the last one is the end of the input. -/
inductive Tiles : Nat → List Char → List Item → Prop
  | last {start : Nat} {gap : List Char} :
      Layout gap [] → Tiles start gap [.ok (Token.endAt (start + byteLength gap))]
  | next {start : Nat} {gap : List Char} {m : Munch} {items : List Item} :
      Layout gap (m.lexeme ++ m.rest) → ¬['/', '/'] <+: m.lexeme ++ m.rest → m.Takes →
        Tiles (start + byteLength gap + byteLength m.lexeme) m.rest items →
          Tiles start (gap ++ (m.lexeme ++ m.rest)) (m.item (start + byteLength gap) :: items)

/-- The bytes that an item covers. -/
def Item.span : Item → Span
  | .ok token => token.span
  | .error e => e.span

/-! ## What is skipped -/

section Skipped

variable {gap after body tail : List Char} {c : Char} {cs : List Char}

theorem splitBlank_comment (hbody : '\n' ∉ body) (htail : ∀ c ∈ tail.head?, c = '\n') :
    splitBlank true (body ++ tail) = (body ++ (splitBlank false tail).1, (splitBlank false tail).2) := by
  induction body with
  | nil =>
      cases tail with
      | nil =>
          rfl
      | cons c cs =>
          have hc : c = '\n' := htail c rfl
          subst hc
          rfl
  | cons c body ih =>
      rw [List.mem_cons, not_or] at hbody
      have hc : (c != '\n') = true := by simpa using fun heq => hbody.1 heq.symm
      rw [List.cons_append, splitBlank, hc, ih hbody.2]
      rfl

/-- Nothing is skipped at a character that is neither white space nor the beginning of a comment. -/
theorem splitBlank_of_not_blank (hblank : isBlank c = false) (hcomment : ¬['/', '/'] <+: c :: cs) :
    splitBlank false (c :: cs) = ([], c :: cs) := by
  have hslash : (c == '/' && cs.head? == some '/') = false := by
    rw [← Bool.not_eq_true]
    intro h
    simp only [Bool.and_eq_true, beq_iff_eq] at h
    rcases h with ⟨rfl, hhead⟩
    rcases List.head?_eq_some_iff.mp hhead with ⟨ds, rfl⟩
    exact hcomment ⟨ds, rfl⟩
  simp [splitBlank, hblank, hslash]

theorem splitBlank_of_layout (h : Layout gap after)
    (hafter : splitBlank false after = ([], after)) :
    splitBlank false (gap ++ after) = (gap, after) := by
  induction h with
  | nil =>
      exact hafter
  | blank hc _ ih =>
      rw [List.cons_append, splitBlank, if_pos hc, ih hafter]
  | @comment body gap after hbody hend _ ih =>
      -- The second slash is skipped as a part of the comment.
      have hslash : '\n' ∉ '/' :: body := by
        rw [List.mem_cons, not_or]
        exact ⟨by decide, hbody⟩
      have hskip := splitBlank_comment hslash hend
      rw [ih hafter] at hskip
      have htext : ('/' :: '/' :: (body ++ gap)) ++ after =
          '/' :: (('/' :: body) ++ (gap ++ after)) := by simp
      rw [htext, splitBlank, hskip]
      rfl

/-- What is skipped is white space and comments, also behind the beginning of a comment. -/
theorem layout_splitBlank (text : List Char) :
    Layout (splitBlank false text).1 (splitBlank false text).2 ∧
      ∃ body gap, (splitBlank true text).1 = body ++ gap ∧ '\n' ∉ body ∧
        (∀ c ∈ (gap ++ (splitBlank true text).2).head?, c = '\n') ∧
          Layout gap (splitBlank true text).2 := by
  induction text with
  | nil =>
      exact ⟨.nil, [], [], rfl, List.not_mem_nil, (fun c hc => nomatch hc), .nil⟩
  | cons c cs ih =>
      rcases ih with ⟨houtside, body, gap, hsplit, hbody, hend, hlayout⟩
      refine ⟨?_, ?_⟩
      · rw [splitBlank]
        split
        · rename_i hc
          exact .blank hc houtside
        · split
          · rename_i hslash
            simp only [Bool.and_eq_true, beq_iff_eq] at hslash
            rcases hslash with ⟨rfl, hhead⟩
            rcases List.head?_eq_some_iff.mp hhead with ⟨ds, rfl⟩
            -- The comment begins with the second slash, for the line does not end there.
            have htext := splitBlank_append true ('/' :: ds)
            rw [hsplit, List.append_assoc] at htext
            cases body with
            | nil =>
                rw [List.nil_append] at htext
                have hnewline : '/' = '\n' := hend '/' (by rw [htext]; rfl)
                exact absurd hnewline (by decide)
            | cons d body =>
                have hd : d = '/' := (List.cons.inj htext).1
                subst hd
                simp only [hsplit, List.cons_append]
                exact .comment (fun hmem => hbody (List.mem_cons_of_mem _ hmem)) hend hlayout
          · exact .nil
      · rw [splitBlank]
        by_cases hc : c = '\n'
        · subst hc
          refine ⟨[], '\n' :: (splitBlank false cs).1, rfl, List.not_mem_nil, ?_, ?_⟩
          · intro c hc
            exact (Option.some.inj hc).symm
          · exact .blank (by decide) houtside
        · have hne : (c != '\n') = true := by simpa using hc
          rw [hne]
          refine ⟨c :: body, gap, by rw [hsplit]; rfl, ?_, hend, hlayout⟩
          rw [List.mem_cons, not_or]
          exact ⟨fun heq => hc heq.symm, hbody⟩

/-- Behind what is skipped there is nothing more to skip. -/
theorem not_blank_of_splitBlank {inside : Bool} {text : List Char}
    (h : (splitBlank inside text).2 = c :: cs) :
    isBlank c = false ∧ ¬['/', '/'] <+: c :: cs := by
  induction text generalizing inside with
  | nil =>
      cases inside <;> cases h
  | cons d ds ih =>
      cases inside with
      | true =>
          exact ih h
      | false =>
          rw [splitBlank] at h
          split at h
          · exact ih h
          · rename_i hblank
            split at h
            · exact ih h
            · rename_i hslash
              cases h
              refine ⟨by simpa using hblank, ?_⟩
              rintro ⟨tail, htail⟩
              cases htail
              exact hslash rfl

end Skipped

/-! ## The tiling of a text -/

variable {start : Nat} {text : List Char} {items : List Item}

theorem tiles_scan (start : Nat) (text : List Char) : Tiles start text (scan start text) := by
  induction start, text using scan_induction with
  | blank start text hrest =>
      have hlayout := (layout_splitBlank text).1
      have htext := splitBlank_append false text
      rw [hrest] at hlayout htext
      rw [List.append_nil] at htext
      have hlast : Tiles start (splitBlank false text).1 _ := .last hlayout
      rw [← scan_of_blank hrest] at hlast
      rwa [htext] at hlast
  | step start text c cs hrest ih =>
      rcases not_blank_of_splitBlank hrest with ⟨hblank, hcomment⟩
      have hlayout := (layout_splitBlank text).1
      have htext := splitBlank_append false text
      rw [hrest, ← munch_append c cs] at hlayout htext
      rw [← munch_append c cs] at hcomment
      have hnext := Tiles.next hlayout hcomment (takes_munch cs hblank) ih
      rw [← scan_of_munch hrest] at hnext
      rwa [htext] at hnext

/-- A text is tiled in one way only. -/
theorem Tiles.eq_scan (h : Tiles start text items) : items = scan start text := by
  induction h with
  | @last start gap hlayout =>
      have hsplit := splitBlank_of_layout hlayout rfl
      rw [List.append_nil] at hsplit
      rw [scan_of_blank (by rw [hsplit]), hsplit]
  | @next start gap m items hlayout hcomment htakes _ ih =>
      rcases List.exists_cons_of_ne_nil (List.append_ne_nil_of_left_ne_nil htakes.ne_nil m.rest) with
        ⟨c, cs, htext⟩
      have hblank : isBlank c = false := htakes.isBlank_head htext
      -- The reader takes what may be taken, and there is no choice.
      have hmunch : munch c cs = m :=
        (takes_munch cs hblank).unique htakes ((munch_append c cs).trans htext.symm)
      rw [htext] at hlayout hcomment ⊢
      have hsplit := splitBlank_of_layout hlayout (splitBlank_of_not_blank hblank hcomment)
      rw [scan_of_munch (by rw [hsplit]), hsplit, hmunch, ih]

theorem tiles_iff : Tiles start text items ↔ items = scan start text := by
  refine ⟨Tiles.eq_scan, ?_⟩
  rintro rfl
  exact tiles_scan start text

/-! ## Where the items stand -/

@[simp] theorem span_item (m : Munch) (start : Nat) :
    Item.span (m.item start) = ⟨start, byteLength m.lexeme⟩ := by
  rcases m with ⟨outcome, lexeme, rest⟩
  cases outcome <;> rfl

theorem byteLength_pos {cs : List Char} (h : cs ≠ []) : 0 < byteLength cs := by
  rcases List.exists_cons_of_ne_nil h with ⟨c, cs, rfl⟩
  exact Nat.lt_of_lt_of_le c.utf8Size_pos (Nat.le_add_right _ _)

/-- The kind of a token that is taken, and how it is written. -/
theorem Munch.Takes.token_item {m : Munch} (h : m.Takes) {start : Nat} {t : Token}
    (ht : m.item start = .ok t) : Longest t.kind m.lexeme m.rest ∧ t.lexeme = String.ofList m.lexeme := by
  cases h with
  | token hlongest =>
      cases ht
      exact ⟨hlongest, rfl⟩
  | unrecognized =>
      cases ht
  | unclosedString =>
      cases ht

namespace Tiles

theorem length_le (h : Tiles start text items) : items.length ≤ text.length + 1 := by
  induction h with
  | last =>
      exact Nat.le_add_left _ _
  | next _ _ htakes _ ih =>
      have hpos := List.length_pos_iff.mpr htakes.ne_nil
      simp only [List.length_cons, List.length_append]
      omega

/-- The end of the input comes last. Every other item takes characters of the text. -/
theorem exists_front (h : Tiles start text items) :
    ∃ front, items = front ++ [.ok (Token.endAt (start + byteLength text))] ∧
      ∀ item ∈ front, ∃ (left : List Char) (m : Munch), text = left ++ (m.lexeme ++ m.rest) ∧ m.Takes ∧
        item = m.item (start + byteLength left) := by
  induction h with
  | last =>
      exact ⟨[], rfl, fun item hitem => nomatch hitem⟩
  | @next start gap m items _ _ htakes _ ih =>
      rcases ih with ⟨front, rfl, hfront⟩
      refine ⟨m.item (start + byteLength gap) :: front, ?_, ?_⟩
      · simp only [byteLength_append, List.cons_append, Nat.add_assoc]
      · intro item hitem
        rcases List.mem_cons.mp hitem with rfl | hitem
        · exact ⟨gap, m, rfl, htakes, rfl⟩
        · rcases hfront item hitem with ⟨left, m', hrest, htakes', rfl⟩
          -- Before a later item there is also what stands before and in the first one.
          refine ⟨gap ++ (m.lexeme ++ left), m', ?_, htakes', ?_⟩
          · rw [hrest]
            simp only [List.append_assoc]
          · simp only [byteLength_append, Nat.add_assoc]

theorem le_start (h : Tiles start text items) : ∀ item ∈ items, start ≤ (Item.span item).start := by
  induction h with
  | last =>
      intro item hitem
      rw [List.mem_singleton] at hitem
      subst hitem
      exact Nat.le_add_right _ _
  | next _ _ _ _ ih =>
      intro item hitem
      rcases List.mem_cons.mp hitem with rfl | hitem
      · rw [span_item]
        exact Nat.le_add_right _ _
      · have hle := ih item hitem
        omega

/-- The spans follow each other. -/
theorem pairwise (h : Tiles start text items) :
    items.Pairwise fun a b => (Item.span a).start < (Item.span b).start ∧
      (Item.span a).stop ≤ (Item.span b).start := by
  induction h with
  | last =>
      exact List.pairwise_singleton _ _
  | @next start gap m items _ _ htakes htiles ih =>
      refine List.pairwise_cons.mpr ⟨?_, ih⟩
      intro item hitem
      -- The other items begin behind the first one, which takes at least one byte.
      have hle := htiles.le_start item hitem
      have hpos := byteLength_pos htakes.ne_nil
      rw [span_item, Span.stop]
      dsimp only
      omega

end Tiles

/-- Scanning tiles a text, and there is no other way to tile it. There is at most one item for each
character, and the end of the input; the spans of the items follow each other between characters of
the text, and only the end is empty. Every other item takes what may be taken at its place, and it is
a reserved word exactly if it is written as one. -/
theorem scan_tiles (start : Nat) (text : List Char) :
    (∀ items, Tiles start text items ↔ items = scan start text) ∧
      (scan start text).length ≤ text.length + 1 ∧
      (scan start text).Pairwise (fun a b => (Item.span a).start < (Item.span b).start ∧
        (Item.span a).stop ≤ (Item.span b).start) ∧
      ∃ front, scan start text = front ++ [.ok (Token.endAt (start + byteLength text))] ∧
        ∀ item ∈ front, ∃ (left : List Char) (m : Munch), text = left ++ (m.lexeme ++ m.rest) ∧ m.Takes ∧
          item = m.item (start + byteLength left) ∧
          Item.span item = ⟨start + byteLength left, byteLength m.lexeme⟩ ∧
          0 < byteLength m.lexeme ∧
          ∀ t, item = .ok t → Longest t.kind m.lexeme m.rest ∧
            t.lexeme = String.ofList m.lexeme ∧ t.kind ≠ .eof ∧
            ∀ word, t.kind = .keyword word ↔ t.lexeme = word.text := by
  have htiles := tiles_scan start text
  rcases htiles.exists_front with ⟨front, hscan, hfront⟩
  refine ⟨fun items => tiles_iff, htiles.length_le, htiles.pairwise, front, hscan, ?_⟩
  intro item hitem
  rcases hfront item hitem with ⟨left, m, htext, htakes, rfl⟩
  refine ⟨left, m, htext, htakes, rfl, span_item m _, byteLength_pos htakes.ne_nil, ?_⟩
  intro t ht
  rcases htakes.token_item ht with ⟨hlongest, hlexeme⟩
  refine ⟨hlongest, hlexeme, hlongest.written.ne_eof, ?_⟩
  intro word
  rw [hlexeme]
  exact hlongest.written.keyword_iff word

end Lox
