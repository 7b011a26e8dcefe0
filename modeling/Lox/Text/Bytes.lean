import Lox.Text.Span

/-!
# Byte positions in a text

A text is a list of characters, while spans count the bytes of its UTF-8 form. This module measures
a text in bytes and cuts it at byte positions. A cut succeeds only between two characters.

Main statements: `byteLength_append`, and `dropBytes?_byteLength` and `takeBytes?_byteLength`, which
say that cutting after a beginning of the text gives back the two parts.
-/

namespace Lox

/-- The number of bytes of the UTF-8 form of a text. -/
def byteLength : List Char → Nat
  | [] => 0
  | c :: cs => c.utf8Size + byteLength cs

/-- What follows the first `n` bytes, if they end between two characters of the text. -/
def dropBytes? : Nat → List Char → Option (List Char)
  | 0, cs => some cs
  | _ + 1, [] => none
  | n + 1, c :: cs => if c.utf8Size ≤ n + 1 then dropBytes? (n + 1 - c.utf8Size) cs else none

/-- The first `n` bytes, if they end between two characters of the text. -/
def takeBytes? : Nat → List Char → Option (List Char)
  | 0, _ => some []
  | _ + 1, [] => none
  | n + 1, c :: cs =>
      if c.utf8Size ≤ n + 1 then (takeBytes? (n + 1 - c.utf8Size) cs).map (c :: ·) else none

/-- The characters a span covers, if it begins and ends between two characters of the text. -/
def slice? (text : List Char) (s : Span) : Option (List Char) := do
  let rest ← dropBytes? s.start text
  takeBytes? s.length rest

@[simp] theorem byteLength_nil : byteLength [] = 0 :=
  rfl

@[simp] theorem byteLength_cons (c : Char) (cs : List Char) :
    byteLength (c :: cs) = c.utf8Size + byteLength cs :=
  rfl

@[simp] theorem byteLength_append (cs ds : List Char) :
    byteLength (cs ++ ds) = byteLength cs + byteLength ds := by
  induction cs with
  | nil => simp
  | cons c cs ih => simp [ih, Nat.add_assoc]

theorem byteLength_le_append (cs ds : List Char) : byteLength cs ≤ byteLength (cs ++ ds) := by
  rw [byteLength_append]
  exact Nat.le_add_right _ _

theorem dropBytes?_byteLength (cs ds : List Char) :
    dropBytes? (byteLength cs) (cs ++ ds) = some ds := by
  induction cs with
  | nil => simp [dropBytes?]
  | cons c cs ih =>
      have hpos : 0 < c.utf8Size := c.utf8Size_pos
      rcases Nat.exists_eq_add_one_of_ne_zero (by omega) with
        ⟨k, hk⟩ : ∃ k, c.utf8Size + byteLength cs = k + 1
      have hle : c.utf8Size ≤ k + 1 := by omega
      have hsub : k + 1 - c.utf8Size = byteLength cs := by omega
      simp [hk, dropBytes?, hle, hsub, ih]

theorem exists_of_dropBytes? {start : Nat} {text rest : List Char}
    (h : dropBytes? start text = some rest) : ∃ before, text = before ++ rest ∧ byteLength before = start := by
  induction text generalizing start with
  | nil =>
      cases start with
      | zero =>
          cases h
          exact ⟨[], rfl, rfl⟩
      | succ n =>
          cases h
  | cons c cs ih =>
      cases start with
      | zero =>
          cases h
          exact ⟨[], rfl, rfl⟩
      | succ n =>
          rw [dropBytes?] at h
          split at h
          · rename_i hle
            rcases ih h with ⟨before, rfl, hbefore⟩
            refine ⟨c :: before, rfl, ?_⟩
            rw [byteLength_cons, hbefore]
            omega
          · cases h

theorem takeBytes?_byteLength (cs ds : List Char) :
    takeBytes? (byteLength cs) (cs ++ ds) = some cs := by
  induction cs with
  | nil => simp [takeBytes?]
  | cons c cs ih =>
      have hpos : 0 < c.utf8Size := c.utf8Size_pos
      rcases Nat.exists_eq_add_one_of_ne_zero (by omega) with
        ⟨k, hk⟩ : ∃ k, c.utf8Size + byteLength cs = k + 1
      have hle : c.utf8Size ≤ k + 1 := by omega
      have hsub : k + 1 - c.utf8Size = byteLength cs := by omega
      simp [hk, takeBytes?, hle, hsub, ih]

/-- A span that covers a middle part of the text cuts out that part. -/
theorem slice?_middle (before middle after : List Char) :
    slice? (before ++ middle ++ after) ⟨byteLength before, byteLength middle⟩ = some middle := by
  simp [slice?, List.append_assoc, dropBytes?_byteLength, takeBytes?_byteLength]

theorem exists_of_takeBytes? {n : Nat} {text taken : List Char} (h : takeBytes? n text = some taken) :
    ∃ after, text = taken ++ after ∧ byteLength taken = n := by
  induction text generalizing n taken with
  | nil =>
      cases n with
      | zero =>
          cases h
          exact ⟨[], rfl, rfl⟩
      | succ n =>
          cases h
  | cons c cs ih =>
      cases n with
      | zero =>
          cases h
          exact ⟨c :: cs, rfl, rfl⟩
      | succ n =>
          rw [takeBytes?] at h
          split at h
          · rename_i hle
            rcases Option.map_eq_some_iff.mp h with ⟨others, hothers, rfl⟩
            rcases ih hothers with ⟨after, rfl, hlength⟩
            refine ⟨after, rfl, ?_⟩
            rw [byteLength_cons, hlength]
            omega
          · cases h

/-- A span cuts out a middle part of the text. -/
theorem exists_of_slice? {text covered : List Char} {s : Span} (h : slice? text s = some covered) :
    ∃ before after, text = before ++ covered ++ after ∧ byteLength before = s.start ∧
      byteLength covered = s.length := by
  rcases Option.bind_eq_some_iff.mp h with ⟨rest, hrest, htaken⟩
  rcases exists_of_dropBytes? hrest with ⟨before, rfl, hbefore⟩
  rcases exists_of_takeBytes? htaken with ⟨after, rfl, hcovered⟩
  exact ⟨before, after, (List.append_assoc before covered after).symm, hbefore, hcovered⟩

/-! ## More text -/

theorem takeBytes?_append {n : Nat} {cs taken : List Char} (more : List Char)
    (h : takeBytes? n cs = some taken) : takeBytes? n (cs ++ more) = some taken := by
  induction cs generalizing n taken with
  | nil =>
      cases n with
      | zero =>
          cases h
          exact takeBytes?_byteLength [] more
      | succ n =>
          cases h
  | cons c cs ih =>
      cases n with
      | zero =>
          cases h
          rfl
      | succ n =>
          rw [takeBytes?] at h
          rw [List.cons_append, takeBytes?]
          split at h
          · rename_i hle
            rcases Option.map_eq_some_iff.mp h with ⟨others, hothers, rfl⟩
            rw [if_pos hle, ih hothers]
            rfl
          · cases h

/-- What a span covers stays as it is while text is added at the end. -/
theorem slice?_append {text covered : List Char} {s : Span} (more : List Char)
    (h : slice? text s = some covered) : slice? (text ++ more) s = some covered := by
  rcases Option.bind_eq_some_iff.mp h with ⟨rest, hrest, htaken⟩
  rcases exists_of_dropBytes? hrest with ⟨before, rfl, hbefore⟩
  refine Option.bind_eq_some_iff.mpr ⟨rest ++ more, ?_, takeBytes?_append more htaken⟩
  rw [List.append_assoc, ← hbefore]
  exact dropBytes?_byteLength before (rest ++ more)

end Lox
