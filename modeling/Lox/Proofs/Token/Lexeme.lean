import Lox.Proofs.Token.Scan

/-!
# The lexical grammar

How tokens are written, said without the reader: which texts are tokens, of which kind, and which of
them is the longest one at a place. `Munch.Takes` says what may be taken at a place where something
stands that is not skipped: the longest token, a character that can begin nothing, or a string that
is never closed.

Main statements: `takes_munch`, and `Munch.Takes.unique`, which says that there is no choice.
-/

namespace Lox

/-- Digits, at least one of them. -/
def Digits (cs : List Char) : Prop :=
  cs ≠ [] ∧ ∀ d ∈ cs, d.isDigit = true

/-- How numbers are written: digits, and perhaps a point with digits behind it. -/
inductive Numeral : List Char → Prop
  | whole {cs : List Char} : Digits cs → Numeral cs
  | fraction {whole digits : List Char} :
      Digits whole → Digits digits → Numeral (whole ++ '.' :: digits)

/-- How the tokens of a kind are written. -/
inductive Lexeme : Kind → List Char → Prop
  | sign {c : Char} {kind : Kind} : Kind.ofChar? c = some kind → Lexeme kind [c]
  | signEqual {c : Char} {kind longer : Kind} :
      Kind.ofChar? c = some kind → kind.withEqual? = some longer → Lexeme longer [c, '=']
  | number {cs : List Char} : Numeral cs → Lexeme .number cs
  | string {body : List Char} : '"' ∉ body → Lexeme .string ('"' :: (body ++ ['"']))
  | word {c : Char} {cs : List Char} :
      isWordStart c = true → (∀ d ∈ cs, isWordPart d = true) →
        Lexeme (Kind.ofWord (String.ofList (c :: cs))) (c :: cs)

/-- The longest token that a text begins with, its kind and what follows it. -/
structure Longest (kind : Kind) (lexeme rest : List Char) : Prop where
  written : Lexeme kind lexeme
  longest : ∀ other longer, longer <+: lexeme ++ rest → Lexeme other longer →
    longer.length ≤ lexeme.length

/-- A character that is not skipped and that no token begins with. -/
def BeginsNothing (c : Char) : Prop :=
  isBlank c = false ∧ ∀ kind cs, ¬Lexeme kind (c :: cs)

/-- What may be taken at a place of a text. -/
inductive Munch.Takes : Munch → Prop
  | token {kind : Kind} {lexeme rest : List Char} :
      Longest kind lexeme rest → Takes ⟨.ok kind, lexeme, rest⟩
  | unrecognized {c : Char} {rest : List Char} :
      BeginsNothing c → Takes ⟨.error (.unrecognized c), [c], rest⟩
  | unclosedString {body : List Char} :
      '"' ∉ body → Takes ⟨.error .unclosedString, '"' :: body, []⟩

/-! ## Classes of characters -/

theorem isDigit_iff {c : Char} : c.isDigit = true ↔ 48 ≤ c.toNat ∧ c.toNat ≤ 57 :=
  Bool.and_eq_true_iff.trans (and_congr decide_eq_true_iff decide_eq_true_iff)

theorem isAlpha_iff {c : Char} : c.isAlpha = true ↔
    (65 ≤ c.toNat ∧ c.toNat ≤ 90) ∨ 97 ≤ c.toNat ∧ c.toNat ≤ 122 :=
  Bool.or_eq_true_iff.trans (or_congr decide_eq_true_iff
    (Bool.and_eq_true_iff.trans (and_congr decide_eq_true_iff decide_eq_true_iff)))

theorem isWordStart_iff {c : Char} : isWordStart c = true ↔
    ((65 ≤ c.toNat ∧ c.toNat ≤ 90) ∨ 97 ≤ c.toNat ∧ c.toNat ≤ 122) ∨ c = '_' :=
  Bool.or_eq_true_iff.trans (or_congr isAlpha_iff beq_iff_eq)

theorem isWordStart_of_isDigit {c : Char} (h : c.isDigit = true) : isWordStart c = false := by
  rw [isDigit_iff] at h
  rw [← Bool.not_eq_true, isWordStart_iff]
  rintro (hword | rfl)
  · omega
  · exact absurd h (by decide)

theorem isBlank_of_isDigit {c : Char} (h : c.isDigit = true) : isBlank c = false := by
  rw [isDigit_iff] at h
  simp only [isBlank, Bool.or_eq_false_iff, Bool.and_eq_false_iff, decide_eq_false_iff_not,
    beq_eq_false_iff_ne]
  omega

theorem isBlank_of_isWordStart {c : Char} (h : isWordStart c = true) : isBlank c = false := by
  rw [isWordStart_iff] at h
  rcases h with h | rfl
  · simp only [isBlank, Bool.or_eq_false_iff, Bool.and_eq_false_iff, decide_eq_false_iff_not,
      beq_eq_false_iff_ne]
    omega
  · decide

/-- A sign belongs to no other class. -/
theorem plain_of_ofChar? {c : Char} {kind : Kind} (h : Kind.ofChar? c = some kind) :
    c ≠ '"' ∧ c.isDigit = false ∧ isWordStart c = false ∧ isBlank c = false := by
  unfold Kind.ofChar? at h
  split at h <;> first | decide | cases h

theorem Numeral.isDigit_head {c : Char} {cs : List Char} (h : Numeral (c :: cs)) :
    c.isDigit = true := by
  generalize htext : c :: cs = text at h
  cases h with
  | whole hdigits =>
      subst htext
      exact hdigits.2 c List.mem_cons_self
  | @fraction whole digits hwhole hdigits =>
      rcases List.exists_cons_of_ne_nil hwhole.1 with ⟨d, ds, rfl⟩
      cases htext
      exact hwhole.2 c List.mem_cons_self

/-! ## Reserved words -/

theorem isWordStart_of_text {word : Keyword} {c : Char} {cs : List Char}
    (h : String.ofList (c :: cs) = word.text) : isWordStart c = true := by
  have hhead : word.text.toList.head? = some c := by
    rw [← h, String.toList_ofList]
    rfl
  have hall : ∀ word : Keyword, word.text.toList.head?.all isWordStart = true := by
    intro word
    cases word <;> decide
  have hword := hall word
  rw [hhead] at hword
  exact hword

theorem Kind.text_of_ofWord {s : String} {word : Keyword} (h : Kind.ofWord s = .keyword word) :
    s = word.text := by
  unfold Kind.ofWord at h
  cases hs : Keyword.ofText? s with
  | none =>
      rw [hs] at h
      cases h
  | some word' =>
      rw [hs] at h
      cases h
      exact (Keyword.text_of_ofText? hs).symm

/-- The kinds of signs. -/
def Kind.isSign : Kind → Bool
  | .number | .string | .identifier | .keyword _ | .eof => false
  | _ => true

theorem Kind.isSign_of_ofChar? {c : Char} {kind : Kind} (h : Kind.ofChar? c = some kind) :
    kind.isSign = true := by
  unfold Kind.ofChar? at h
  split at h <;> cases h <;> rfl

theorem Kind.isSign_of_withEqual? {kind longer : Kind} (h : kind.withEqual? = some longer) :
    longer.isSign = true := by
  cases kind <;> cases h <;> rfl

namespace Lexeme

variable {kind other : Kind} {c : Char} {cs : List Char}

/-! ## The first character decides -/

theorem cases_head (h : Lexeme kind (c :: cs)) :
    (∃ single, Kind.ofChar? c = some single ∧
      (cs = [] ∧ kind = single ∨ cs = ['='] ∧ single.withEqual? = some kind)) ∨
    (c.isDigit = true ∧ kind = .number ∧ Numeral (c :: cs)) ∨
    (c = '"' ∧ kind = .string ∧ ∃ body, '"' ∉ body ∧ cs = body ++ ['"']) ∨
    (isWordStart c = true ∧ kind = Kind.ofWord (String.ofList (c :: cs)) ∧
      ∀ d ∈ cs, isWordPart d = true) := by
  -- The text has to be a variable for the cases of the grammar.
  generalize htext : c :: cs = text at h
  cases h with
  | sign hkind =>
      cases htext
      exact .inl ⟨_, hkind, .inl ⟨rfl, rfl⟩⟩
  | signEqual hkind hlonger =>
      cases htext
      exact .inl ⟨_, hkind, .inr ⟨rfl, hlonger⟩⟩
  | number hnumeral =>
      subst htext
      exact .inr (.inl ⟨hnumeral.isDigit_head, rfl, hnumeral⟩)
  | string hbody =>
      cases htext
      exact .inr (.inr (.inl ⟨rfl, rfl, _, hbody, rfl⟩))
  | word hstart hparts =>
      cases htext
      exact .inr (.inr (.inr ⟨hstart, rfl, hparts⟩))

theorem of_sign {single : Kind} (hc : Kind.ofChar? c = some single) (h : Lexeme kind (c :: cs)) :
    cs = [] ∧ kind = single ∨ cs = ['='] ∧ single.withEqual? = some kind := by
  rcases plain_of_ofChar? hc with ⟨hquote, hdigit, hword, -⟩
  rcases h.cases_head with ⟨single', hc', hcs⟩ | ⟨hd, -⟩ | ⟨hq, -⟩ | ⟨hw, -⟩
  · rw [hc] at hc'
    cases hc'
    exact hcs
  · exact absurd hd (by simp [hdigit])
  · exact absurd hq hquote
  · exact absurd hw (by simp [hword])

theorem of_digit (hc : c.isDigit = true) (h : Lexeme kind (c :: cs)) :
    kind = .number ∧ Numeral (c :: cs) := by
  rcases h.cases_head with ⟨single, hs, -⟩ | ⟨-, hnumber⟩ | ⟨rfl, -⟩ | ⟨hw, -⟩
  · exact absurd hc (by simp [(plain_of_ofChar? hs).2.1])
  · exact hnumber
  · exact absurd hc (by decide)
  · exact absurd hw (by simp [isWordStart_of_isDigit hc])

theorem of_quote (h : Lexeme kind ('"' :: cs)) :
    kind = .string ∧ ∃ body, '"' ∉ body ∧ cs = body ++ ['"'] := by
  rcases h.cases_head with ⟨single, hs, -⟩ | ⟨hd, -⟩ | ⟨-, hstring⟩ | ⟨hw, -⟩
  · exact absurd rfl (plain_of_ofChar? hs).1
  · exact absurd hd (by decide)
  · exact hstring
  · exact absurd hw (by decide)

theorem of_wordStart (hc : isWordStart c = true) (h : Lexeme kind (c :: cs)) :
    kind = Kind.ofWord (String.ofList (c :: cs)) ∧ ∀ d ∈ cs, isWordPart d = true := by
  rcases h.cases_head with ⟨single, hs, -⟩ | ⟨hd, -⟩ | ⟨rfl, -⟩ | ⟨-, hword⟩
  · exact absurd hc (by simp [(plain_of_ofChar? hs).2.2.1])
  · exact absurd hc (by simp [isWordStart_of_isDigit hd])
  · exact absurd hc (by decide)
  · exact hword

theorem ne_nil (h : Lexeme kind cs) : cs ≠ [] := by
  cases h with
  | number hnumeral =>
      cases hnumeral with
      | whole hdigits => exact hdigits.1
      | fraction => simp
  | _ =>
      simp

theorem isBlank_head (h : Lexeme kind (c :: cs)) : isBlank c = false := by
  rcases h.cases_head with ⟨single, hs, -⟩ | ⟨hd, -⟩ | ⟨rfl, -⟩ | ⟨hw, -⟩
  · exact (plain_of_ofChar? hs).2.2.2
  · exact isBlank_of_isDigit hd
  · decide
  · exact isBlank_of_isWordStart hw

/-- A text is a token of one kind only. -/
theorem kind_unique (h : Lexeme kind cs) (hother : Lexeme other cs) : kind = other := by
  rcases List.exists_cons_of_ne_nil h.ne_nil with ⟨c, cs, rfl⟩
  rcases h.cases_head with ⟨single, hs, hcs⟩ | ⟨hd, hkind, -⟩ | ⟨rfl, hkind, -⟩ | ⟨hw, hkind, -⟩
  · rcases hcs with ⟨rfl, hkind⟩ | ⟨rfl, hkind⟩
    · rcases of_sign hs hother with ⟨-, hkind'⟩ | ⟨heq, -⟩
      · exact hkind.trans hkind'.symm
      · cases heq
    · rcases of_sign hs hother with ⟨heq, -⟩ | ⟨-, hkind'⟩
      · cases heq
      · exact Option.some.inj (hkind.symm.trans hkind')
  · exact hkind.trans (of_digit hd hother).1.symm
  · exact hkind.trans (of_quote hother).1.symm
  · exact hkind.trans (of_wordStart hw hother).1.symm

/-- No text is written for the end of the input. -/
theorem ne_eof (h : Lexeme kind cs) : kind ≠ .eof := by
  intro heq
  cases h with
  | sign hc =>
      subst heq
      cases Kind.isSign_of_ofChar? hc
  | signEqual _ hlonger =>
      subst heq
      cases Kind.isSign_of_withEqual? hlonger
  | word =>
      unfold Kind.ofWord at heq
      split at heq <;> cases heq
  | _ =>
      cases heq

/-- A token is a reserved word exactly if it is written as one. -/
theorem keyword_iff (h : Lexeme kind cs) (word : Keyword) :
    kind = .keyword word ↔ String.ofList cs = word.text := by
  rcases List.exists_cons_of_ne_nil h.ne_nil with ⟨c, cs, rfl⟩
  -- What is no word begins otherwise, and its kind is no reserved word.
  have hother : isWordStart c = false → kind ≠ .keyword word →
      (kind = .keyword word ↔ String.ofList (c :: cs) = word.text) := by
    intro hstart hkind
    refine ⟨fun heq => absurd heq hkind, ?_⟩
    intro htext
    have hword : isWordStart c = true := isWordStart_of_text htext
    rw [hstart] at hword
    cases hword
  rcases h.cases_head with ⟨single, hs, hcs⟩ | ⟨hd, rfl, -⟩ | ⟨rfl, rfl, -⟩ | ⟨-, rfl, -⟩
  · have hsign : kind.isSign = true := by
      rcases hcs with ⟨-, rfl⟩ | ⟨-, hlonger⟩
      · exact Kind.isSign_of_ofChar? hs
      · exact Kind.isSign_of_withEqual? hlonger
    refine hother (plain_of_ofChar? hs).2.2.1 ?_
    rintro rfl
    cases hsign
  · exact hother (isWordStart_of_isDigit hd) Kind.noConfusion
  · exact hother (by decide) Kind.noConfusion
  · refine ⟨Kind.text_of_ofWord, ?_⟩
    intro htext
    rw [htext, Kind.ofWord, Keyword.ofText?_text]

end Lexeme

/-! ## What is taken -/

section Prefix

variable {p : Char → Bool} {xs ys zs : List Char} {c : Char}

theorem of_mem_takeWhile {x : Char} (h : x ∈ zs.takeWhile p) : p x = true :=
  List.all_eq_true.mp List.all_takeWhile x h

theorem length_le_takeWhile (h : xs <+: zs) (hall : ∀ x ∈ xs, p x = true) :
    xs.length ≤ (zs.takeWhile p).length := by
  rcases h with ⟨ys, rfl⟩
  rw [List.takeWhile_append_of_pos hall, List.length_append]
  exact Nat.le_add_right _ _

theorem takeWhile_stop (hall : ∀ x ∈ xs, p x = true) (hc : p c = false) :
    (xs ++ c :: ys).takeWhile p = xs := by
  rw [List.takeWhile_append_of_pos hall, List.takeWhile_cons_of_neg (by simp [hc]), List.append_nil]

theorem dropWhile_stop (hall : ∀ x ∈ xs, p x = true) (hc : p c = false) :
    (xs ++ c :: ys).dropWhile p = c :: ys := by
  rw [List.dropWhile_append_of_pos hall, List.dropWhile_cons_of_neg (by simp [hc])]

end Prefix

/-- The longest token that begins with a character, compared with those that begin with it. -/
theorem Longest.of_head {kind : Kind} {lexeme rest cs : List Char} {c : Char}
    (hwritten : Lexeme kind lexeme) (htext : lexeme ++ rest = c :: cs)
    (hlongest : ∀ other ds, c :: ds <+: c :: cs → Lexeme other (c :: ds) →
      ds.length < lexeme.length) : Longest kind lexeme rest := by
  refine ⟨hwritten, ?_⟩
  intro other longer hprefix hlonger
  rw [htext] at hprefix
  rcases List.exists_cons_of_ne_nil hlonger.ne_nil with ⟨d, ds, rfl⟩
  have hd : d = c := by
    rcases hprefix with ⟨tail, heq⟩
    exact (List.cons.inj heq).1
  subst hd
  exact hlongest other ds hprefix hlonger

theorem takes_munchString (cs : List Char) : (munchString cs).Takes := by
  have hbody : '"' ∉ cs.takeWhile (· != '"') := by
    intro hmem
    have hne := of_mem_takeWhile hmem
    simp at hne
  have htext := munchString_append cs
  unfold munchString at htext ⊢
  cases hdrop : cs.dropWhile (· != '"') with
  | nil =>
      exact .unclosedString hbody
  | cons quote rest =>
      have hquote : quote = '"' := by
        have hhead := List.head?_dropWhile_not (· != '"') cs
        rw [hdrop] at hhead
        simpa using hhead
      subst hquote
      rw [hdrop] at htext
      refine .token (Longest.of_head (.string hbody) htext ?_)
      intro other ds hprefix hother
      rcases hother.of_quote with ⟨-, body, hbody', rfl⟩
      -- Both bodies end at the first quote.
      have hfirst : cs.takeWhile (· != '"') = body := by
        rcases hprefix with ⟨tail, heq⟩
        have hcs : body ++ '"' :: tail = cs := by simpa using heq
        rw [← hcs]
        exact takeWhile_stop (fun x hx => by simpa using ne_of_mem_of_not_mem hx hbody') rfl
      rw [hfirst]
      simp

/-- The number that is split off from a text that begins with a number with a point. -/
theorem splitNumber_fraction {whole digits : List Char} (hwhole : Digits whole)
    (hdigits : Digits digits) (tail : List Char) :
    (splitNumber (whole ++ '.' :: (digits ++ tail))).1 =
      whole ++ '.' :: (digits ++ tail).takeWhile Char.isDigit := by
  rcases List.exists_cons_of_ne_nil hdigits.1 with ⟨d, ds, rfl⟩
  have hd : d.isDigit = true := hdigits.2 d List.mem_cons_self
  have hpoint : Char.isDigit '.' = false := by decide
  unfold splitNumber
  rw [takeWhile_stop hwhole.2 hpoint, dropWhile_stop hwhole.2 hpoint]
  simp only [List.cons_append, hd, if_true]

theorem numeral_splitNumber {c : Char} {cs : List Char} (hc : c.isDigit = true) :
    Numeral (splitNumber (c :: cs)).1 := by
  have hdigits : ∀ {x : Char} {xs : List Char}, x.isDigit = true →
      Digits ((x :: xs).takeWhile Char.isDigit) := by
    intro x xs hx
    refine ⟨?_, fun y hy => of_mem_takeWhile hy⟩
    rw [List.takeWhile_cons_of_pos hx]
    exact List.cons_ne_nil _ _
  unfold splitNumber
  dsimp only
  split
  · rename_i d rest hdrop
    split
    · rename_i hd
      exact .fraction (hdigits hc) (hdigits hd)
    · exact .whole (hdigits hc)
  · exact .whole (hdigits hc)

theorem length_takeWhile_le_splitNumber (cs : List Char) :
    (cs.takeWhile Char.isDigit).length ≤ (splitNumber cs).1.length := by
  unfold splitNumber
  dsimp only
  split
  · split
    · rw [List.length_append]
      exact Nat.le_add_right _ _
    · exact Nat.le_refl _
  · exact Nat.le_refl _

theorem longest_splitNumber {c : Char} {cs : List Char} (hc : c.isDigit = true) :
    Longest .number (splitNumber (c :: cs)).1 (splitNumber (c :: cs)).2 := by
  refine Longest.of_head (.number (numeral_splitNumber hc)) (splitNumber_append _) ?_
  intro other ds hprefix hother
  have hnumeral := (hother.of_digit hc).2
  refine Nat.lt_of_lt_of_le (Nat.lt_succ_self ds.length) ?_
  change (c :: ds).length ≤ _
  generalize c :: ds = longer at hprefix hnumeral
  generalize c :: cs = text at hprefix
  cases hnumeral with
  | whole hdigits =>
      exact Nat.le_trans (length_le_takeWhile hprefix hdigits.2) (length_takeWhile_le_splitNumber _)
  | @fraction whole digits hwhole hdigits =>
      -- Then the text goes on with a point and a digit, and both are taken.
      rcases hprefix with ⟨tail, rfl⟩
      rw [List.append_assoc, List.cons_append, splitNumber_fraction hwhole hdigits]
      have hle := length_le_takeWhile (List.prefix_append digits tail) hdigits.2
      simp only [List.length_append, List.length_cons]
      omega

theorem longest_word {c : Char} {cs : List Char} (hc : isWordStart c = true) :
    Longest (Kind.ofWord (String.ofList (c :: cs.takeWhile isWordPart)))
      (c :: cs.takeWhile isWordPart) (cs.dropWhile isWordPart) := by
  have htext : (c :: cs.takeWhile isWordPart) ++ cs.dropWhile isWordPart = c :: cs := by simp
  refine Longest.of_head (.word hc fun d hd => of_mem_takeWhile hd) htext ?_
  intro other ds hprefix hother
  have hall := (hother.of_wordStart hc).2
  rw [List.prefix_cons_inj] at hprefix
  exact Nat.lt_succ_of_le (length_le_takeWhile hprefix hall)

/-- A sign takes in the equals sign behind it if the two can make one. -/
theorem takes_munchSign {c : Char} {cs : List Char} (hblank : isBlank c = false) (hquote : c ≠ '"')
    (hdigit : c.isDigit = false) (hword : isWordStart c = false) : (munchSign c cs).Takes := by
  unfold munchSign
  split
  · rename_i hnone
    refine .unrecognized ⟨hblank, ?_⟩
    intro kind tail h
    rcases h.cases_head with ⟨single, hs, -⟩ | ⟨hd, -⟩ | ⟨hq, -⟩ | ⟨hw, -⟩
    · rw [hnone] at hs
      cases hs
    · exact absurd hd (by simp [hdigit])
    · exact absurd hq hquote
    · exact absurd hw (by simp [hword])
  · rename_i single hs
    split
    · rename_i longer rest hlonger
      refine .token (Longest.of_head (.signEqual hs hlonger) rfl ?_)
      intro other ds _ hother
      rcases hother.of_sign hs with ⟨rfl, -⟩ | ⟨rfl, -⟩
      · exact Nat.zero_lt_two
      · exact Nat.one_lt_two
    · rename_i hno
      -- The longer sign would need an equals sign here.
      refine .token (Longest.of_head (.sign hs) rfl ?_)
      intro other ds hprefix hother
      rcases hother.of_sign hs with ⟨rfl, -⟩ | ⟨rfl, hlonger⟩
      · exact Nat.zero_lt_one
      · rcases hprefix with ⟨tail, heq⟩
        exact absurd (List.cons.inj heq).2.symm (hno other tail hlonger)

/-- What is taken is what may be taken. -/
theorem takes_munch {c : Char} (cs : List Char) (hblank : isBlank c = false) :
    (munch c cs).Takes := by
  unfold munch
  split
  · exact takes_munchString cs
  · rename_i hquote
    split
    · rename_i hdigit
      exact .token (longest_splitNumber hdigit)
    · rename_i hdigit
      split
      · rename_i hword
        exact .token (longest_word hword)
      · rename_i hword
        exact takes_munchSign hblank (by simpa using hquote) (by simpa using hdigit)
          (by simpa using hword)

/-! ## There is no choice -/

section Choice

variable {kind : Kind} {lexeme rest tail body : List Char} {c : Char}

theorem BeginsNothing.not_lexeme (h : BeginsNothing c) (htext : lexeme ++ rest = c :: tail) :
    ¬Lexeme kind lexeme := by
  intro hlexeme
  rcases List.exists_cons_of_ne_nil hlexeme.ne_nil with ⟨d, ds, rfl⟩
  have hd : d = c := (List.cons.inj htext).1
  subst hd
  exact h.2 kind ds hlexeme

theorem BeginsNothing.ne_quote (h : BeginsNothing c) : c ≠ '"' := by
  rintro rfl
  exact h.2 .string _ (Lexeme.string (List.not_mem_nil))

theorem not_lexeme_of_unclosed (hbody : '"' ∉ body) (htext : lexeme ++ rest = '"' :: body) :
    ¬Lexeme kind lexeme := by
  intro hlexeme
  rcases List.exists_cons_of_ne_nil hlexeme.ne_nil with ⟨d, ds, rfl⟩
  have hd : d = '"' := (List.cons.inj htext).1
  subst hd
  rcases hlexeme.of_quote with ⟨-, inner, -, rfl⟩
  refine hbody ?_
  rw [← (List.cons.inj htext).2]
  simp

theorem Longest.unique {kind' : Kind} {lexeme' rest' : List Char} (h : Longest kind lexeme rest)
    (h' : Longest kind' lexeme' rest') (htext : lexeme ++ rest = lexeme' ++ rest') :
    kind = kind' ∧ lexeme = lexeme' ∧ rest = rest' := by
  -- Each of the two is a token that the text begins with, so none is longer than the other.
  have hle : lexeme'.length ≤ lexeme.length := by
    refine h.longest kind' lexeme' ?_ h'.written
    rw [htext]
    exact List.prefix_append lexeme' rest'
  have hge : lexeme.length ≤ lexeme'.length := by
    refine h'.longest kind lexeme ?_ h.written
    rw [← htext]
    exact List.prefix_append lexeme rest
  rcases List.append_inj htext (Nat.le_antisymm hge hle) with ⟨rfl, hrest⟩
  exact ⟨h.written.kind_unique h'.written, rfl, hrest⟩

end Choice

namespace Munch.Takes

variable {m m' : Munch}

theorem ne_nil (h : m.Takes) : m.lexeme ≠ [] := by
  cases h with
  | token hlongest => exact hlongest.written.ne_nil
  | _ => exact List.cons_ne_nil _ _

/-- What is taken does not begin with white space. -/
theorem isBlank_head (h : m.Takes) {c : Char} {cs : List Char}
    (htext : m.lexeme ++ m.rest = c :: cs) : isBlank c = false := by
  cases h with
  | token hlongest =>
      rcases List.exists_cons_of_ne_nil hlongest.written.ne_nil with ⟨d, ds, rfl⟩
      cases htext
      exact hlongest.written.isBlank_head
  | unrecognized hnothing =>
      cases htext
      exact hnothing.1
  | unclosedString =>
      cases htext
      decide

/-- At one place only one thing may be taken. -/
theorem unique (h : m.Takes) (h' : m'.Takes) (htext : m.lexeme ++ m.rest = m'.lexeme ++ m'.rest) :
    m = m' := by
  cases h with
  | token hlongest =>
      cases h' with
      | token hlongest' =>
          rcases hlongest.unique hlongest' htext with ⟨rfl, rfl, rfl⟩
          rfl
      | unrecognized hnothing =>
          exact absurd hlongest.written (hnothing.not_lexeme htext)
      | unclosedString hbody =>
          rw [List.append_nil] at htext
          exact absurd hlongest.written (not_lexeme_of_unclosed hbody htext)
  | unrecognized hnothing =>
      cases h' with
      | token hlongest' =>
          exact absurd hlongest'.written (hnothing.not_lexeme htext.symm)
      | unrecognized hnothing' =>
          cases htext
          rfl
      | unclosedString hbody =>
          exact absurd (List.cons.inj htext).1 hnothing.ne_quote
  | unclosedString hbody =>
      rw [List.append_nil] at htext
      cases h' with
      | token hlongest' =>
          exact absurd hlongest'.written (not_lexeme_of_unclosed hbody htext.symm)
      | unrecognized hnothing' =>
          exact absurd (List.cons.inj htext).1.symm hnothing'.ne_quote
      | unclosedString hbody' =>
          rw [List.append_nil] at htext
          cases htext
          rfl

end Munch.Takes

end Lox
