import Mathlib.Data.List.Forall2
import Lox.Proofs.Token.Tiling

/-!
# Scanning undoes printing

Tokens are printed one behind the other, each with a separator behind it that begins with white space.
A separator is white space and comments, and each comment is closed by the end of its line. Neither
what a comment says nor what stands in a string matters, and no token grows or falls apart: a white
space character can only be inside a string, and a string ends at its second quote.

Main statement: `scanFrom_print`.
-/

namespace Lox

/-- White space and comments that end with their line. -/
inductive Separator : List Char → Prop
  | nil : Separator []
  | blank {c : Char} {gap : List Char} : isBlank c = true → Separator gap → Separator (c :: gap)
  | comment {body gap : List Char} :
      '\n' ∉ body → Separator gap → Separator ('/' :: '/' :: (body ++ '\n' :: gap))

/-- A token as it is printed: its kind, how it is written, and the separator behind it, which begins
with white space. -/
structure Printed where
  kind : Kind
  lexeme : List Char
  space : Char
  gap : List Char
  written : Lexeme kind lexeme
  isBlank_space : isBlank space = true
  separator : Separator gap

namespace Printed

/-- The separator behind a token. -/
def behind (w : Printed) : List Char :=
  w.space :: w.gap

/-- All that is printed for some tokens. -/
def text (ws : List Printed) : List Char :=
  ws.flatMap fun w => w.lexeme ++ w.behind

/-- The tokens of a text that is printed from byte `start` on. -/
def tokens : Nat → List Printed → List Token
  | _, [] => []
  | start, w :: ws =>
      ⟨w.kind, ⟨start, byteLength w.lexeme⟩, String.ofList w.lexeme⟩ ::
        tokens (start + byteLength w.lexeme + byteLength w.behind) ws

theorem text_cons (w : Printed) (ws : List Printed) :
    text (w :: ws) = w.lexeme ++ (w.behind ++ text ws) := by
  simp [text]

theorem separator_behind (w : Printed) : Separator w.behind :=
  .blank w.isBlank_space w.separator

end Printed

variable {kind : Kind} {lexeme gap : List Char} {c : Char}

theorem Separator.layout (h : Separator gap) (after : List Char) : Layout gap after := by
  induction h with
  | nil =>
      exact .nil
  | blank hc _ ih =>
      exact .blank hc ih
  | comment hbody _ ih =>
      refine .comment hbody ?_ (.blank (by decide) ih)
      intro c hc
      exact (Option.some.inj hc).symm

/-! ## White space in tokens -/

theorem isBlank_of_isWordPart (h : isWordPart c = true) : isBlank c = false := by
  simp only [isWordPart, Char.isAlphanum, Bool.or_eq_true] at h
  rcases h with (halpha | hdigit) | hline
  · exact isBlank_of_isWordStart (by simp [isWordStart, halpha])
  · exact isBlank_of_isDigit hdigit
  · exact isBlank_of_isWordStart (by simp [isWordStart, hline])

theorem Numeral.isBlank_of_mem (h : Numeral lexeme) (hc : c ∈ lexeme) : isBlank c = false := by
  cases h with
  | whole hdigits =>
      exact isBlank_of_isDigit (hdigits.2 c hc)
  | fraction hwhole hdigits =>
      rcases List.mem_append.mp hc with hc | hc
      · exact isBlank_of_isDigit (hwhole.2 c hc)
      · rcases List.mem_cons.mp hc with rfl | hc
        · decide
        · exact isBlank_of_isDigit (hdigits.2 c hc)

/-- White space stands in strings only. -/
theorem Lexeme.string_of_blank (h : Lexeme kind lexeme) (hmem : c ∈ lexeme)
    (hc : isBlank c = true) : ∃ body, '"' ∉ body ∧ lexeme = '"' :: (body ++ ['"']) := by
  -- Every other token consists of characters that are no white space.
  have hno : (∀ d ∈ lexeme, isBlank d = false) → False := by
    intro hall
    rw [hall c hmem] at hc
    cases hc
  cases h with
  | sign hkind =>
      refine (hno ?_).elim
      intro d hd
      rw [List.mem_singleton.mp hd]
      exact (plain_of_ofChar? hkind).2.2.2
  | signEqual hkind _ =>
      refine (hno ?_).elim
      intro d hd
      rcases List.mem_cons.mp hd with rfl | hd
      · exact (plain_of_ofChar? hkind).2.2.2
      · rw [List.mem_singleton.mp hd]
        decide
  | number hnumeral =>
      exact (hno fun d hd => hnumeral.isBlank_of_mem hd).elim
  | string hbody =>
      exact ⟨_, hbody, rfl⟩
  | word hstart hparts =>
      refine (hno ?_).elim
      intro d hd
      rcases List.mem_cons.mp hd with rfl | hd
      · exact isBlank_of_isWordStart hstart
      · exact isBlank_of_isWordPart (hparts d hd)

/-! ## A token before white space -/

/-- No string begins with another one and goes on behind it. -/
theorem quote_mem_of_longer {body inner more : List Char}
    (h : body ++ ['"'] = inner ++ '"' :: c :: more) : '"' ∈ body := by
  have hinit := congrArg List.dropLast h
  rw [List.dropLast_concat, List.dropLast_append_of_ne_nil (List.cons_ne_nil _ _),
    List.dropLast_cons_cons] at hinit
  rw [hinit]
  simp

/-- Before white space every token is the longest one. -/
theorem Longest.of_blank (h : Lexeme kind lexeme) (hc : isBlank c = true) (rest : List Char) :
    Longest kind lexeme (c :: rest) := by
  refine ⟨h, ?_⟩
  intro other longer hprefix hlonger
  by_contra hlt
  rw [Nat.not_le] at hlt
  -- A longer one would go on with the white space, and so it would be a string.
  have hthrough : lexeme ++ [c] <+: longer := by
    refine List.prefix_of_prefix_length_le ⟨rest, by simp⟩ hprefix ?_
    rw [List.length_append, List.length_singleton]
    exact hlt
  rcases hthrough with ⟨more, hmore⟩
  have hmem : c ∈ longer := by
    rw [← hmore]
    simp
  rcases hlonger.string_of_blank hmem hc with ⟨body, hbody, hstring⟩
  rw [hstring] at hmore
  rcases List.exists_cons_of_ne_nil h.ne_nil with ⟨d, ds, rfl⟩
  simp only [List.cons_append, List.append_assoc, List.cons.injEq] at hmore
  rcases hmore with ⟨rfl, hmore⟩
  rcases h.of_quote with ⟨-, inner, -, rfl⟩
  rw [List.append_assoc] at hmore
  exact hbody (quote_mem_of_longer hmore.symm)

/-- No comment begins with a token that has white space behind it. -/
theorem Lexeme.not_comment (h : Lexeme kind lexeme) (hc : isBlank c = true) (rest : List Char) :
    ¬['/', '/'] <+: lexeme ++ c :: rest := by
  rintro ⟨tail, htail⟩
  rcases List.exists_cons_of_ne_nil h.ne_nil with ⟨d, ds, rfl⟩
  simp only [List.cons_append, List.nil_append, List.cons.injEq] at htail
  rcases htail with ⟨rfl, htail⟩
  -- The token would begin with a slash, and a slash stands alone.
  have hslash : Kind.ofChar? '/' = some .slash := rfl
  rcases h.of_sign hslash with ⟨rfl, -⟩ | ⟨-, hlonger⟩
  · simp only [List.nil_append, List.cons.injEq] at htail
    rw [← htail.1] at hc
    exact absurd hc (by decide)
  · cases hlonger

/-! ## The printed text -/

open Printed

theorem tiles_print (start : Nat) {lead : List Char} (hlead : Separator lead) (ws : List Printed) :
    Tiles start (lead ++ text ws)
      ((tokens (start + byteLength lead) ws).map .ok ++
        [.ok (Token.endAt (start + byteLength (lead ++ text ws)))]) := by
  -- The separator in front varies: behind a token it is the one that the token brings.
  induction ws generalizing start lead with
  | nil =>
      rw [show text [] = [] from rfl, List.append_nil]
      exact .last (hlead.layout [])
  | cons w ws ih =>
      have htiles := ih (start + byteLength lead + byteLength w.lexeme) w.separator_behind
      have hnext := Tiles.next (m := ⟨.ok w.kind, w.lexeme, w.behind ++ text ws⟩)
        (hlead.layout _) (w.written.not_comment w.isBlank_space _)
        (.token (Longest.of_blank w.written w.isBlank_space _)) htiles
      rw [← text_cons] at hnext
      convert hnext using 1
      simp [tokens, text_cons, Munch.item, Nat.add_assoc]

/-- What a printed token says about the token that is read for it, in a text. -/
def Printed.ReadAs (text : List Char) (t : Token) (w : Printed) : Prop :=
  t.kind = w.kind ∧ t.lexeme = String.ofList w.lexeme ∧ slice? text t.span = some w.lexeme

theorem readAs_tokens (before : List Char) (ws : List Printed) :
    List.Forall₂ (ReadAs (before ++ text ws)) (tokens (byteLength before) ws) ws := by
  induction ws generalizing before with
  | nil =>
      exact .nil
  | cons w ws ih =>
      refine .cons ⟨rfl, rfl, ?_⟩ ?_
      · rw [text_cons, ← List.append_assoc]
        exact slice?_middle before w.lexeme _
      · have hrest := ih (before ++ (w.lexeme ++ w.behind))
        simpa [text_cons, Nat.add_assoc] using hrest

/-- Scanning undoes printing. However the separators are chosen, and whatever stands in the buffer
before the printed text, there is no mistake: there is one token for each that was printed, in the same
order, of its kind and written as it, and then the end of the input. -/
theorem scanFrom_print {lead : List Char} (hlead : Separator lead) (ws : List Printed)
    (before : List Char) :
    scanFrom (before ++ lead ++ text ws) (byteLength before) =
        (tokens (byteLength (before ++ lead)) ws).map .ok ++
          [.ok (Token.endAt (byteLength (before ++ lead ++ text ws)))] ∧
      List.Forall₂ (ReadAs (before ++ lead ++ text ws)) (tokens (byteLength (before ++ lead)) ws)
        ws := by
  refine ⟨?_, readAs_tokens (before ++ lead) ws⟩
  rw [List.append_assoc, scanFrom, dropBytes?_byteLength]
  dsimp only
  rw [← (tiles_print (byteLength before) hlead ws).eq_scan]
  simp only [byteLength_append]

theorem Digits.single {d : Char} (h : d.isDigit = true) : Digits [d] :=
  ⟨List.cons_ne_nil d [], List.forall_mem_singleton.mpr h⟩

/-- A number before a point, signs that could be one, a comment that could be a sign, a comment in a
string, and a reserved word. -/
def Printed.sample : List Printed :=
  [⟨.number, "1.5".toList, ' ', [],
      .number (@Numeral.fraction ['1'] ['5'] (.single rfl) (.single rfl)), rfl, .nil⟩,
    ⟨.dot, ['.'], ' ', [], .sign rfl, rfl, .nil⟩,
    ⟨.bang, ['!'], ' ', "// =\n".toList, .sign rfl, rfl, @Separator.comment [' ', '='] [] (by decide) .nil⟩,
    ⟨.equal, ['='], ' ', [], .sign rfl, rfl, .nil⟩,
    ⟨.string, "\"// b\nc\"".toList, '\t', [], @Lexeme.string "// b\nc".toList (by decide), rfl, .nil⟩,
    ⟨.keyword .if, "if".toList, ' ', [], @Lexeme.word 'i' ['f'] rfl (List.forall_mem_singleton.mpr rfl), rfl,
      .nil⟩]

/-- Behind the text of an earlier program and a comment with a quote and code in it. -/
theorem scanFrom_print_sample :
    Separator "// \" 1 +\n".toList ∧
      scanFrom "a;\n// \" 1 +\n1.5 . ! // =\n= \"// b\nc\"\tif ".toList 3 =
        [.ok ⟨.number, ⟨12, 3⟩, "1.5"⟩, .ok ⟨.dot, ⟨16, 1⟩, "."⟩, .ok ⟨.bang, ⟨18, 1⟩, "!"⟩,
          .ok ⟨.equal, ⟨25, 1⟩, "="⟩, .ok ⟨.string, ⟨27, 8⟩, "\"// b\nc\""⟩,
          .ok ⟨.keyword .if, ⟨36, 2⟩, "if"⟩, .ok (Token.endAt 39)] := by
  have hlead : Separator "// \" 1 +\n".toList := @Separator.comment " \" 1 +".toList [] (by decide) .nil
  refine ⟨hlead, ?_⟩
  have hscan := (scanFrom_print hlead sample "a;\n".toList).1
  have htext : "a;\n".toList ++ "// \" 1 +\n".toList ++ text sample =
      "a;\n// \" 1 +\n1.5 . ! // =\n= \"// b\nc\"\tif ".toList := by decide
  rw [htext] at hscan
  exact hscan.trans (by decide)

end Lox
