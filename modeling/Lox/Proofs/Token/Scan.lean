import Lox.Token.Lexer

/-!
# What scanning gives

One step of `scan`, the token it ends with, and the spelling of identifiers.

Main statement: `proper_of_mem_scan`.
-/

namespace Lox

variable {offset : Nat} {text : List Char}

/-! ## One step -/

theorem scan_of_blank (h : (splitBlank false text).2 = []) :
    scan offset text = [.ok (Token.endAt (offset + byteLength (splitBlank false text).1))] := by
  rw [scan]
  split
  · rfl
  · rename_i c cs hrest
    rw [h] at hrest
    cases hrest

theorem scan_of_munch {c : Char} {cs : List Char} (h : (splitBlank false text).2 = c :: cs) :
    scan offset text =
      (munch c cs).item (offset + byteLength (splitBlank false text).1) ::
        scan (offset + byteLength (splitBlank false text).1 + byteLength (munch c cs).lexeme)
          (munch c cs).rest := by
  rw [scan]
  split
  · rename_i hrest
    rw [h] at hrest
    cases hrest
  · rename_i d ds hrest
    rw [h] at hrest
    cases hrest
    rfl

/-- A property of all texts holds if it holds of white space and, behind white space, of a token and
what follows it. -/
theorem scan_induction {P : Nat → List Char → Prop}
    (blank : ∀ offset text, (splitBlank false text).2 = [] → P offset text)
    (step : ∀ offset text c cs, (splitBlank false text).2 = c :: cs →
      P (offset + byteLength (splitBlank false text).1 + byteLength (munch c cs).lexeme)
        (munch c cs).rest → P offset text) (offset : Nat) (text : List Char) : P offset text := by
  induction offset, text using scan.induct with
  | case1 offset text hrest =>
      exact blank offset text hrest
  | case2 offset text start c cs hrest ih =>
      exact step offset text c cs hrest ih

/-- The last item is the end of the input. -/
theorem exists_getLast?_scan (offset : Nat) (text : List Char) :
    ∃ stop, (scan offset text).getLast? = some (.ok (Token.endAt stop)) := by
  induction offset, text using scan_induction with
  | blank offset text hrest =>
      exact ⟨_, by rw [scan_of_blank hrest]; rfl⟩
  | step offset text c cs hrest ih =>
      rcases ih with ⟨stop, ih⟩
      refine ⟨stop, ?_⟩
      rw [scan_of_munch hrest, List.getLast?_cons, ih]
      rfl

/-! ## Identifiers -/

/-- A token that is an identifier is not written as a reserved word. -/
def Token.Proper (t : Token) : Prop :=
  t.kind = .identifier → Keyword.ofText? t.lexeme = none

theorem Kind.ofText?_of_ofWord {s : String} (h : Kind.ofWord s = .identifier) :
    Keyword.ofText? s = none := by
  unfold Kind.ofWord at h
  cases hs : Keyword.ofText? s with
  | none =>
      rfl
  | some word =>
      rw [hs] at h
      cases h

theorem Kind.ofChar?_ne_identifier (c : Char) : Kind.ofChar? c ≠ some .identifier := by
  unfold Kind.ofChar?
  split <;> simp

theorem Kind.withEqual?_ne_identifier (kind : Kind) : kind.withEqual? ≠ some .identifier := by
  cases kind <;> simp [Kind.withEqual?]

/-- Only a word is an identifier. -/
theorem ofText?_of_munch {c : Char} {cs : List Char} (h : (munch c cs).outcome = .ok .identifier) :
    Keyword.ofText? (String.ofList (munch c cs).lexeme) = none := by
  unfold munch at h ⊢
  split at h
  · unfold munchString at h
    split at h <;> cases h
  · rename_i hquote
    rw [if_neg hquote]
    split at h
    · cases h
    · rename_i hdigit
      rw [if_neg hdigit]
      split at h
      · rename_i hword
        rw [if_pos hword]
        exact Kind.ofText?_of_ofWord (Except.ok.inj h)
      · unfold munchSign at h
        split at h
        · cases h
        · rename_i kind hkind
          split at h
          · rename_i longer rest hlonger
            rw [Except.ok.inj h] at hlonger
            exact absurd hlonger (Kind.withEqual?_ne_identifier kind)
          · rw [Except.ok.inj h] at hkind
            exact absurd hkind (Kind.ofChar?_ne_identifier c)

theorem proper_of_item {c : Char} {cs : List Char} {start : Nat} {t : Token}
    (h : (munch c cs).item start = .ok t) : t.Proper := by
  intro hkind
  unfold Munch.item at h
  cases houtcome : (munch c cs).outcome with
  | error cause =>
      rw [houtcome] at h
      cases h
  | ok kind =>
      rw [houtcome] at h
      cases h
      rw [show kind = .identifier from hkind] at houtcome
      exact ofText?_of_munch houtcome

theorem proper_of_mem_scan {t : Token} : .ok t ∈ scan offset text → t.Proper := by
  induction offset, text using scan_induction with
  | blank offset text hrest =>
      intro h
      rw [scan_of_blank hrest, List.mem_singleton] at h
      cases h
      intro hkind
      cases hkind
  | step offset text c cs hrest ih =>
      intro h
      rw [scan_of_munch hrest, List.mem_cons] at h
      rcases h with h | h
      · exact proper_of_item h.symm
      · exact ih h

end Lox
