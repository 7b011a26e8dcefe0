import Lox.Text.Blank
import Lox.Token.Basic
import Lox.Token.Error

/-!
# From characters to tokens

A text is read from left to right. White space and comments are skipped, and at every other
character the longest token that begins there is taken. A mistake takes up some characters as well,
and reading goes on behind them, so one pass finds every mistake.

Main statements: `splitBlank_append` and `munch_append` say that no character is lost.
-/

namespace Lox

/-- One result of reading: a token, or a mistake in its place. -/
abbrev Item := Except LexicalError Token

/-! ## What is skipped -/

/-- Splits off the white space and the comments at the beginning of a text. A comment runs from two
slashes up to the newline; the flag says that the text begins inside one. -/
def splitBlank : Bool → List Char → List Char × List Char
  | _, [] => ([], [])
  | true, c :: cs =>
      let r := splitBlank (c != '\n') cs
      (c :: r.1, r.2)
  | false, c :: cs =>
      if isBlank c then
        let r := splitBlank false cs
        (c :: r.1, r.2)
      else if c == '/' && cs.head? == some '/' then
        let r := splitBlank true cs
        (c :: r.1, r.2)
      else ([], c :: cs)

theorem splitBlank_append (inside : Bool) (cs : List Char) :
    (splitBlank inside cs).1 ++ (splitBlank inside cs).2 = cs := by
  induction cs generalizing inside with
  | nil => cases inside <;> rfl
  | cons c cs ih =>
      cases inside with
      | true => simp [splitBlank, ih]
      | false =>
          simp only [splitBlank]
          split
          · simp [ih]
          · split
            · simp [ih]
            · rfl

theorem length_splitBlank (inside : Bool) (cs : List Char) :
    (splitBlank inside cs).2.length ≤ cs.length := by
  have h := congrArg List.length (splitBlank_append inside cs)
  simp only [List.length_append] at h
  omega

/-! ## The longest token -/

/-- The characters that can begin a word. -/
def isWordStart (c : Char) : Bool :=
  c.isAlpha || c == '_'

/-- The characters that can continue a word. -/
def isWordPart (c : Char) : Bool :=
  c.isAlphanum || c == '_'

/-- What was read at one place: its kind or the mistake, its characters and what follows them. -/
structure Munch where
  outcome : Except LexicalCause Kind
  lexeme : List Char
  rest : List Char

/-- Splits off digits and, if a digit follows the point after them, the point and the digits behind
it. -/
def splitNumber (cs : List Char) : List Char × List Char :=
  let whole := cs.takeWhile Char.isDigit
  match cs.dropWhile Char.isDigit with
  | '.' :: d :: rest =>
      if d.isDigit then
        (whole ++ '.' :: (d :: rest).takeWhile Char.isDigit, (d :: rest).dropWhile Char.isDigit)
      else (whole, '.' :: d :: rest)
  | rest => (whole, rest)

/-- Reads a string whose opening quote has been passed. -/
def munchString (cs : List Char) : Munch :=
  let body := cs.takeWhile (· != '"')
  match cs.dropWhile (· != '"') with
  | [] => ⟨.error .unclosedString, '"' :: body, []⟩
  | quote :: rest => ⟨.ok .string, '"' :: (body ++ [quote]), rest⟩

/-- Reads a sign that begins with `c`. An equals sign belongs to the sign before it if the two can
make one. -/
def munchSign (c : Char) (cs : List Char) : Munch :=
  match Kind.ofChar? c with
  | none => ⟨.error (.unrecognized c), [c], cs⟩
  | some kind =>
      match kind.withEqual?, cs with
      | some longer, '=' :: rest => ⟨.ok longer, [c, '='], rest⟩
      | _, _ => ⟨.ok kind, [c], cs⟩

/-- Reads the longest token that begins with `c` and goes on in `cs`. -/
def munch (c : Char) (cs : List Char) : Munch :=
  if c == '"' then munchString cs
  else if c.isDigit then
    let r := splitNumber (c :: cs)
    ⟨.ok .number, r.1, r.2⟩
  else if isWordStart c then
    let lexeme := c :: cs.takeWhile isWordPart
    ⟨.ok (Kind.ofWord (String.ofList lexeme)), lexeme, cs.dropWhile isWordPart⟩
  else munchSign c cs

theorem splitNumber_append (cs : List Char) : (splitNumber cs).1 ++ (splitNumber cs).2 = cs := by
  have h : cs.takeWhile Char.isDigit ++ cs.dropWhile Char.isDigit = cs :=
    List.takeWhile_append_dropWhile
  simp only [splitNumber]
  split
  · rename_i d rest hd
    rw [hd] at h
    split
    · simpa [List.append_assoc] using h
    · exact h
  · exact h

theorem munchString_append (cs : List Char) :
    (munchString cs).lexeme ++ (munchString cs).rest = '"' :: cs := by
  have h : cs.takeWhile (· != '"') ++ cs.dropWhile (· != '"') = cs :=
    List.takeWhile_append_dropWhile
  simp only [munchString]
  split
  · rename_i hd
    rw [hd] at h
    simpa using h
  · rename_i quote rest hd
    rw [hd] at h
    simpa using h

theorem munchSign_append (c : Char) (cs : List Char) :
    (munchSign c cs).lexeme ++ (munchSign c cs).rest = c :: cs := by
  simp only [munchSign]
  split
  · rfl
  · split <;> rfl

theorem munch_append (c : Char) (cs : List Char) :
    (munch c cs).lexeme ++ (munch c cs).rest = c :: cs := by
  simp only [munch]
  split
  · rename_i h
    rw [beq_iff_eq] at h
    rw [h]
    exact munchString_append cs
  · split
    · exact splitNumber_append (c :: cs)
    · split
      · simp
      · exact munchSign_append c cs

theorem munch_lexeme_ne_nil (c : Char) (cs : List Char) : (munch c cs).lexeme ≠ [] := by
  simp only [munch]
  split
  · simp only [munchString]
    split <;> simp
  · split
    · rename_i hd
      simp only [splitNumber]
      split
      · split <;> simp [hd]
      · simp [hd]
    · split
      · simp
      · simp only [munchSign]
        split
        · simp
        · split <;> simp

theorem length_munch_rest (c : Char) (cs : List Char) :
    (munch c cs).rest.length ≤ cs.length := by
  have h := congrArg List.length (munch_append c cs)
  have hpos : 0 < (munch c cs).lexeme.length :=
    List.length_pos_iff.mpr (munch_lexeme_ne_nil c cs)
  simp only [List.length_append, List.length_cons] at h
  omega

/-! ## The whole text -/

/-- The item that was read at byte `start`. -/
def Munch.item (m : Munch) (start : Nat) : Item :=
  let span : Span := ⟨start, byteLength m.lexeme⟩
  match m.outcome with
  | .ok kind => .ok ⟨kind, span, String.ofList m.lexeme⟩
  | .error cause => .error ⟨cause, span⟩

/-- Reads a text that begins at byte `offset`. The last item is the end of the input. -/
def scan (offset : Nat) (text : List Char) : List Item :=
  let start := offset + byteLength (splitBlank false text).1
  match _h : (splitBlank false text).2 with
  | [] => [.ok (Token.endAt start)]
  | c :: cs =>
      (munch c cs).item start ::
        scan (start + byteLength (munch c cs).lexeme) (munch c cs).rest
termination_by text.length
decreasing_by
  have hblank := length_splitBlank false text
  have hmunch := length_munch_rest c cs
  rw [_h, List.length_cons] at hblank
  omega

/-- Reads what follows the first `start` bytes of a text, with the places of the whole text. A start
past the end stands for the end. -/
def scanFrom (text : List Char) (start : Nat) : List Item :=
  match dropBytes? start text with
  | some rest => scan start rest
  | none => scan (byteLength text) []

end Lox
