import Lox.Proofs.Token.Scan

/-!
# Cutting a text behind a newline

No token, no mistake but an unclosed string, and no comment goes on behind a newline. So a text whose
first part ends with a newline and has no mistake gives the items of its two parts.

Main statement: `scan_append`.
-/

namespace Lox

/-- A text that is empty or ends with a newline. -/
def EndsLine (text : List Char) : Prop :=
  text = [] ∨ text.getLast? = some '\n'

namespace EndsLine

variable {c : Char} {cs ds : List Char}

theorem nil : EndsLine [] :=
  .inl rfl

theorem ne_nil (h : EndsLine (c :: cs)) (hc : c ≠ '\n') : cs ≠ [] := by
  intro hnil
  subst hnil
  rcases h with h | h
  · cases h
  · exact hc (by simpa using h)

theorem tail (h : EndsLine (c :: cs)) : EndsLine cs := by
  cases cs with
  | nil =>
      exact .nil
  | cons d ds =>
      rcases h with h | h
      · cases h
      · exact .inr (by simpa using h)

theorem right (h : EndsLine (cs ++ ds)) : EndsLine ds := by
  induction cs with
  | nil =>
      exact h
  | cons c cs ih =>
      exact ih h.tail

theorem newline_mem (h : EndsLine cs) (hne : cs ≠ []) : '\n' ∈ cs :=
  List.mem_of_getLast? (h.resolve_left hne)

end EndsLine

/-! ## Parts of a text -/

section Split

variable {p : Char → Bool} {xs : List Char}

theorem takeWhile_append_of_rest (ys : List Char) (h : xs.dropWhile p ≠ []) :
    (xs ++ ys).takeWhile p = xs.takeWhile p := by
  rw [List.takeWhile_append, if_neg]
  intro hlength
  have hall := congrArg List.length (List.takeWhile_append_dropWhile (p := p) (l := xs))
  rw [List.length_append] at hall
  exact h (List.eq_nil_of_length_eq_zero (by omega))

theorem dropWhile_append_of_rest (ys : List Char) (h : xs.dropWhile p ≠ []) :
    (xs ++ ys).dropWhile p = xs.dropWhile p ++ ys := by
  rw [List.dropWhile_append, if_neg]
  simpa using h

theorem dropWhile_ne_nil {x : Char} (hx : x ∈ xs) (hp : p x = false) : xs.dropWhile p ≠ [] := by
  induction xs with
  | nil =>
      cases hx
  | cons z zs ih =>
      rw [List.dropWhile_cons]
      split
      · rename_i hz
        rcases List.mem_cons.mp hx with rfl | hx
        · rw [hp] at hz
          cases hz
        · exact ih hx
      · exact List.cons_ne_nil z zs

theorem head?_append_of_ne_nil (ys : List Char) (hne : xs ≠ []) :
    (xs ++ ys).head? = xs.head? := by
  cases xs with
  | nil =>
      exact absurd rfl hne
  | cons z zs =>
      rfl

end Split

/-! ## White space and comments -/

/-- A comment is closed by the newline, so what is skipped ends with the text. -/
theorem splitBlank_append_of_blank {inside : Bool} {xs : List Char} (ys : List Char)
    (hline : EndsLine xs) (hinside : xs = [] → inside = false)
    (hblank : (splitBlank inside xs).2 = []) :
    splitBlank inside (xs ++ ys) = (xs ++ (splitBlank false ys).1, (splitBlank false ys).2) := by
  induction xs generalizing inside with
  | nil =>
      rw [hinside rfl]
      rfl
  | cons c cs ih =>
      cases inside with
      | true =>
          simp only [splitBlank, List.cons_append] at hblank ⊢
          rw [ih hline.tail ?_ hblank]
          intro hnil
          -- The text ends with a newline, so a comment does not reach its end.
          by_cases hc : c = '\n'
          · simp [hc]
          · exact absurd hnil (hline.ne_nil hc)
      | false =>
          simp only [splitBlank, List.cons_append] at hblank ⊢
          split
          · rename_i hc
            rw [if_pos hc] at hblank
            rw [ih hline.tail (fun _ => rfl) hblank]
          · rename_i hc
            rw [if_neg hc] at hblank
            split at hblank
            · rename_i hslash
              -- Two slashes were seen, so the second one is there before the text goes on.
              have hne : cs ≠ [] := by
                intro hnil
                simp [hnil] at hslash
              rw [head?_append_of_ne_nil ys hne, if_pos hslash]
              rw [ih hline.tail (fun hnil => absurd hnil hne) hblank]
            · cases hblank

theorem splitBlank_append_of_rest {inside : Bool} {xs cs : List Char} {c : Char} (ys : List Char)
    (hcs : cs ≠ []) (hrest : (splitBlank inside xs).2 = c :: cs) :
    splitBlank inside (xs ++ ys) = ((splitBlank inside xs).1, c :: (cs ++ ys)) := by
  induction xs generalizing inside with
  | nil =>
      cases inside <;> cases hrest
  | cons d ds ih =>
      cases inside with
      | true =>
          simp only [splitBlank, List.cons_append] at hrest ⊢
          rw [ih hrest]
      | false =>
          simp only [splitBlank, List.cons_append] at hrest ⊢
          split
          · rename_i hblank
            rw [if_pos hblank] at hrest
            rw [ih hrest]
          · rename_i hblank
            rw [if_neg hblank] at hrest
            split at hrest
            · rename_i hslash
              have hne : ds ≠ [] := by
                intro hnil
                simp [hnil] at hslash
              rw [head?_append_of_ne_nil ys hne, if_pos hslash, if_pos hslash, ih hrest]
            · rename_i hslash
              have hds : ds = cs := (List.cons.inj hrest).2
              have hdc : d = c := (List.cons.inj hrest).1
              subst hds hdc
              rw [head?_append_of_ne_nil ys hcs, if_neg hslash, if_neg hslash]

/-! ## Tokens -/

theorem endsLine_dropWhile {xs : List Char} (h : EndsLine xs) (p : Char → Bool) :
    EndsLine (xs.dropWhile p) := by
  rw [← List.takeWhile_append_dropWhile (p := p) (l := xs)] at h
  exact h.right

theorem splitNumber_append_of_newline {xs : List Char} (ys : List Char) (hline : EndsLine xs)
    (hne : xs ≠ []) :
    splitNumber (xs ++ ys) = ((splitNumber xs).1, (splitNumber xs).2 ++ ys) := by
  have hmem : '\n' ∈ xs := hline.newline_mem hne
  have hdigit : Char.isDigit '\n' = false := by decide
  have hrest : EndsLine (xs.dropWhile Char.isDigit) := endsLine_dropWhile hline Char.isDigit
  have hrest' : xs.dropWhile Char.isDigit ≠ [] := dropWhile_ne_nil hmem hdigit
  unfold splitNumber
  rw [takeWhile_append_of_rest ys hrest', dropWhile_append_of_rest ys hrest']
  generalize xs.dropWhile Char.isDigit = rest at hrest hrest'
  -- Behind a point there is one more character, for the text ends with a newline.
  rcases rest with _ | ⟨x, _ | ⟨d, rest⟩⟩
  · exact absurd rfl hrest'
  · have hx : x = '\n' := Decidable.byContradiction fun hx => hrest.ne_nil hx rfl
    subst hx
    cases ys <;> rfl
  · by_cases hx : x = '.'
    · subst hx
      simp only [List.cons_append]
      split
      · have hd : (d :: rest).dropWhile Char.isDigit ≠ [] :=
          dropWhile_ne_nil (hrest.tail.newline_mem (List.cons_ne_nil d rest)) hdigit
        rw [← List.cons_append, takeWhile_append_of_rest ys hd, dropWhile_append_of_rest ys hd]
      · rfl
    · simp only [List.cons_append]
      split
      · rename_i heq
        exact absurd (List.cons.inj heq).1 hx
      · split
        · rename_i heq
          exact absurd (List.cons.inj heq).1 hx
        · rfl

theorem munchString_append_of_ok {xs : List Char} (ys : List Char) {kind : Kind}
    (hok : (munchString xs).outcome = .ok kind) :
    munchString (xs ++ ys) = { munchString xs with rest := (munchString xs).rest ++ ys } := by
  -- A string that is accepted has its closing quote in the first part.
  have hrest : xs.dropWhile (· != '"') ≠ [] := by
    intro hnil
    unfold munchString at hok
    rw [hnil] at hok
    cases hok
  unfold munchString
  rw [takeWhile_append_of_rest ys hrest, dropWhile_append_of_rest ys hrest]
  cases hquote : xs.dropWhile (· != '"') with
  | nil =>
      exact absurd hquote hrest
  | cons quote rest =>
      rfl

theorem munchSign_append_of_ne_nil (c : Char) {xs : List Char} (ys : List Char) (hne : xs ≠ []) :
    munchSign c (xs ++ ys) = { munchSign c xs with rest := (munchSign c xs).rest ++ ys } := by
  rcases xs with _ | ⟨x, xs⟩
  · exact absurd rfl hne
  · unfold munchSign
    split
    · rfl
    · rename_i kind hkind
      rw [List.cons_append]
      cases kind.withEqual? with
      | none =>
          rfl
      | some longer =>
          by_cases hx : x = '='
          · subst hx
            rfl
          · split
            · rename_i heq
              exact absurd (List.cons.inj heq).1 hx
            · split
              · rename_i heq
                exact absurd (List.cons.inj heq).1 hx
              · rfl

theorem munch_append_of_newline {c : Char} {xs : List Char} (ys : List Char) (hline : EndsLine xs)
    (hne : xs ≠ []) {kind : Kind} (hok : (munch c xs).outcome = .ok kind) :
    munch c (xs ++ ys) = { munch c xs with rest := (munch c xs).rest ++ ys } := by
  unfold munch at hok ⊢
  split
  · rename_i hquote
    rw [if_pos hquote] at hok
    exact munchString_append_of_ok ys hok
  · rename_i hquote
    rw [if_neg hquote] at hok
    split
    · have hline' : EndsLine (c :: xs) := by
        rcases hline with hnil | hlast
        · exact absurd hnil hne
        · refine .inr ?_
          rw [List.getLast?_cons, hlast]
          rfl
      have hnumber := splitNumber_append_of_newline ys hline' (List.cons_ne_nil c xs)
      rw [List.cons_append] at hnumber
      simp only [hnumber]
    · split
      · have hrest : xs.dropWhile isWordPart ≠ [] :=
          dropWhile_ne_nil (hline.newline_mem hne) (by decide)
        simp only [takeWhile_append_of_rest ys hrest, dropWhile_append_of_rest ys hrest]
      · exact munchSign_append_of_ne_nil c ys hne

/-! ## The whole text -/

variable {offset : Nat} {xs : List Char}

theorem item_outcome {m : Munch} {start : Nat} (h : ∀ e, m.item start ≠ .error e) :
    ∃ kind, m.outcome = .ok kind := by
  unfold Munch.item at h
  cases houtcome : m.outcome with
  | ok kind =>
      exact ⟨kind, rfl⟩
  | error cause =>
      rw [houtcome] at h
      exact absurd rfl (h _)

theorem isBlank_of_splitBlank {inside : Bool} {c : Char} {cs : List Char}
    (h : (splitBlank inside xs).2 = c :: cs) : isBlank c = false := by
  induction xs generalizing inside with
  | nil =>
      cases inside <;> cases h
  | cons d ds ih =>
      cases inside with
      | true =>
          exact ih h
      | false =>
          simp only [splitBlank] at h
          split at h
          · exact ih h
          · rename_i hblank
            split at h
            · exact ih h
            · have hdc : d = c := (List.cons.inj h).1
              subst hdc
              simpa using hblank

theorem scan_ne_nil (offset : Nat) (xs : List Char) : scan offset xs ≠ [] := by
  intro hnil
  rcases exists_getLast?_scan offset xs with ⟨stop, hlast⟩
  rw [hnil] at hlast
  cases hlast

theorem byteLength_splitBlank (inside : Bool) (xs : List Char) :
    byteLength (splitBlank inside xs).1 + byteLength (splitBlank inside xs).2 = byteLength xs := by
  rw [← byteLength_append, splitBlank_append]

theorem byteLength_munch (c : Char) (cs : List Char) :
    byteLength (munch c cs).lexeme + byteLength (munch c cs).rest = byteLength (c :: cs) := by
  rw [← byteLength_append, munch_append]

/-- A text whose first part ends a line and has no mistake in its characters gives the items of the
first part, its end apart, and then those of the second. -/
theorem scan_append (ys : List Char) : EndsLine xs → (∀ e, .error e ∉ scan offset xs) →
    scan offset (xs ++ ys) =
      (scan offset xs).dropLast ++ scan (offset + byteLength xs) ys := by
  induction offset, xs using scan_induction with
  | blank offset xs hrest =>
      intro hline _
      have hsplit := splitBlank_append_of_blank ys hline (fun _ => rfl) hrest
      have hall : byteLength (xs ++ (splitBlank false ys).1) =
          byteLength xs + byteLength (splitBlank false ys).1 := byteLength_append _ _
      rw [scan_of_blank hrest]
      cases hys : (splitBlank false ys).2 with
      | nil =>
          rw [scan_of_blank (by rw [hsplit, hys]), scan_of_blank hys, hsplit, hall]
          simp [Nat.add_assoc]
      | cons c cs =>
          rw [scan_of_munch (by rw [hsplit, hys]), scan_of_munch hys, hsplit, hall]
          simp [Nat.add_assoc]
  | step offset xs c cs hrest ih =>
      intro hline hok
      have hsplit : EndsLine (c :: cs) := by
        rw [← splitBlank_append false xs, hrest] at hline
        exact hline.right
      have hblank : isBlank c = false := isBlank_of_splitBlank hrest
      -- The character begins a token, so it is not the newline at the end.
      have hne : cs ≠ [] := by
        apply hsplit.ne_nil
        intro heq
        subst heq
        cases hblank
      rw [scan_of_munch hrest] at hok ⊢
      -- The first token is no mistake, so it ends in the first part.
      have hitem : ∀ e, (munch c cs).item (offset + byteLength (splitBlank false xs).1) ≠
          .error e := by
        intro e he
        exact hok e (by simp [he])
      rcases item_outcome hitem with ⟨kind, hkind⟩
      have hmunch := munch_append_of_newline ys hsplit.tail hne hkind
      have hrest' : EndsLine (munch c cs).rest := by
        rw [← munch_append c cs] at hsplit
        exact hsplit.right
      have hxs := splitBlank_append_of_rest ys hne hrest
      have hlength := byteLength_splitBlank false xs
      rw [hrest, ← byteLength_munch] at hlength
      rw [scan_of_munch (by rw [hxs]), hxs, hmunch,
        List.dropLast_cons_of_ne_nil (scan_ne_nil _ _), List.cons_append]
      have htail := ih hrest' (fun e he => hok e (List.mem_cons_of_mem _ he))
      rw [show offset + byteLength (splitBlank false xs).1 + byteLength (munch c cs).lexeme +
        byteLength (munch c cs).rest = offset + byteLength xs by omega] at htail
      exact congrArg (List.cons _) htail

end Lox
