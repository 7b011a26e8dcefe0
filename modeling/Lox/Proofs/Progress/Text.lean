import Lox.Proofs.Progress.Statement
import Lox.Proofs.Token.Tiling

/-!
# Reading a text comes to an end

Every text is read to its end, whatever is wrong with it. The tokens are written as their kinds demand,
no call is nested too deeply, each declaration passes a token, and each mistake in the grammar stands at a
token.

Main statement: `reading_total`.
-/

namespace Lox

/-! ## Tokens -/

/-- A token of a text, other than its end: where it stands and how it is written. -/
structure Token.Written (text : List Char) (t : Token) : Prop where
  kind : t.kind ≠ .eof
  slice : slice? text t.span = some t.lexeme.toList
  inside : t.span.stop ≤ byteLength text
  nonempty : t.lexeme.toList ≠ []
  keyword : ∀ word, t.kind = .keyword word → t.lexeme = word.text
  number : t.kind = .number → Numeral t.lexeme.toList
  string : t.kind = .string → ∃ body, '"' ∉ body ∧ t.lexeme.toList = '"' :: (body ++ ['"'])

theorem Lexeme.numeral {kind : Kind} {cs : List Char} (h : Lexeme kind cs) (hkind : kind = .number) :
    Numeral cs := by
  cases h with
  | sign hc =>
      subst hkind
      cases Kind.isSign_of_ofChar? hc
  | signEqual _ hlonger =>
      subst hkind
      cases Kind.isSign_of_withEqual? hlonger
  | number hnumeral =>
      exact hnumeral
  | string =>
      cases hkind
  | word =>
      unfold Kind.ofWord at hkind
      split at hkind <;> cases hkind

theorem Lexeme.quoted {kind : Kind} {cs : List Char} (h : Lexeme kind cs) (hkind : kind = .string) :
    ∃ body, '"' ∉ body ∧ cs = '"' :: (body ++ ['"']) := by
  cases h with
  | sign hc =>
      subst hkind
      cases Kind.isSign_of_ofChar? hc
  | signEqual _ hlonger =>
      subst hkind
      cases Kind.isSign_of_withEqual? hlonger
  | number =>
      cases hkind
  | string hbody =>
      exact ⟨_, hbody, rfl⟩
  | word =>
      unfold Kind.ofWord at hkind
      split at hkind <;> cases hkind

/-- The tokens among some items. -/
def tokensOf (items : List Item) : List Token :=
  items.filterMap Except.toOption

/-- The tokens of a text that begins behind other text. -/
theorem exists_tokensOf_scan (before after : List Char) :
    ∃ front, scan (byteLength before) after = front ++ [.ok (Token.endAt (byteLength (before ++ after)))] ∧
      ∀ t ∈ tokensOf front, t.Written (before ++ after) := by
  rcases (tiles_scan (byteLength before) after).exists_front with ⟨front, hscan, hfront⟩
  refine ⟨front, by rw [hscan, byteLength_append], ?_⟩
  intro t ht
  rcases List.mem_filterMap.mp ht with ⟨item, hitem, hok⟩
  rcases hfront item hitem with ⟨left, m, htext, htakes, rfl⟩
  -- A token is an item that is no mistake.
  have hitem' : m.item (byteLength before + byteLength left) = .ok t := by
    revert hok
    cases m.item (byteLength before + byteLength left) with
    | ok t' =>
        intro hok
        exact congrArg Except.ok (Option.some.inj hok)
    | error e =>
        intro hok
        cases hok
  rcases htakes.token_item hitem' with ⟨hlongest, hlexeme⟩
  have hspan : t.span = ⟨byteLength (before ++ left), byteLength m.lexeme⟩ := by
    have hspan := span_item m (byteLength before + byteLength left)
    rw [hitem'] at hspan
    rw [byteLength_append]
    exact hspan
  have hall : before ++ after = (before ++ left) ++ m.lexeme ++ m.rest := by
    rw [htext]
    simp only [List.append_assoc]
  refine ⟨hlongest.written.ne_eof, ?_, ?_, ?_, ?_, ?_, ?_⟩
  · rw [hspan, hlexeme, String.toList_ofList, hall]
    exact slice?_middle _ _ _
  · rw [hspan, hall, Span.stop]
    simp only [byteLength_append]
    omega
  · rw [hlexeme, String.toList_ofList]
    exact htakes.ne_nil
  · intro word hkind
    rw [hlexeme]
    exact (hlongest.written.keyword_iff word).mp hkind
  · intro hkind
    rw [hlexeme, String.toList_ofList]
    exact hlongest.written.numeral hkind
  · intro hkind
    rw [hlexeme, String.toList_ofList]
    exact hlongest.written.quoted hkind

/-! ## Programs -/

namespace Parse

variable {ts : List Token} {n : Nat} {s : ParseState}

/-- What reading a program does if its call is answered by `k`. -/
def programBody (k : Parse (List Stmt)) : Parse (List Stmt) := do
  if ← atEnd then return []
  else
    let first ← fuelled declaration
    let others ← k
    return first.toList ++ others

theorem program_eq_iterate (fuel : Nat) : program fuel = programBody^[fuel] (program 0) := by
  induction fuel with
  | zero =>
      rfl
  | succ fuel ih =>
      rw [Function.iterate_succ_apply', ← ih]
      rfl

theorem fuel_bound (s : ParseState) : 8 * s.rest.length + 8 ≤ s.fuel := by
  simp only [ParseState.fuel]
  omega

/-- The calls of a declaration end, and it passes a token. -/
theorem walks_declaration (k : StatementCalls) (hrest : s.rest ≠ []) (hn : s.fuel ≤ n) :
    Walks ts 1 (StatementCalls.body^[n] k).declaration (fuelled declaration) s := by
  have hwalk := StatementCalls.walk_ofFuel ts k hn (Nat.le_refl s.fuel)
  have hfuel := fuel_bound s
  exact .fuelled (hwalk.declaration s hrest (by omega))

theorem walks_fuelled_declaration (hrest : s.rest ≠ []) :
    Walks ts 1 (fuelled declaration) (fuelled declaration) s :=
  (walks_declaration (.ofFuel 0) hrest (Nat.le_refl s.fuel)).self

theorem walks_programBody (n : Nat) (k k' : Parse (List Stmt)) :
    ∀ s, s.rest.length + 1 ≤ n → Walks ts 0 (programBody^[n] k) (programBody^[n] k') s := by
  induction n with
  | zero =>
      intro s hn
      omega
  | succ n ih =>
      intro s hn
      rw [Function.iterate_succ_apply', Function.iterate_succ_apply']
      refine .atEnd (.ite (fun _ => .pure []) ?_)
      intro hmore
      have hrest : s.rest ≠ [] := by simpa using hmore
      refine (walks_fuelled_declaration hrest).bind ?_
      intro first t _ hlength
      exact (ih t (by omega)).andReturn

theorem walks_program (k : Parse (List Stmt)) {depth fuel : Nat} (hn : s.rest.length + 1 ≤ n)
    (hdepth : n ≤ depth) (hfuel : n ≤ fuel) : Walks ts 0 (programBody^[depth] k) (program fuel) s := by
  rcases Nat.exists_eq_add_of_le hdepth with ⟨d, rfl⟩
  rcases Nat.exists_eq_add_of_le hfuel with ⟨d', rfl⟩
  rw [program_eq_iterate, Function.iterate_add_apply, Function.iterate_add_apply]
  exact walks_programBody n _ _ s hn

end Parse

/-! ## Every state -/

namespace ParseState

/-- The tokens that are left, and the end of the input. -/
def tokens (s : ParseState) : List Token :=
  s.rest ++ [Token.endAt s.finish]

theorem among_tokens (s : ParseState) : s.Among s.tokens :=
  ⟨fun _ ht => List.mem_append_left _ ht, List.mem_append_right _ List.mem_cons_self⟩

/-- What reading does at a state, whatever the tokens are that are left. -/
structure Progresses (s : ParseState) : Prop where
  /-- An expression nests its calls less deeply than the fuel allows. -/
  expression : ∀ n k, s.fuel ≤ n →
    (Parse.ExpressionCalls.body^[n] k).expressionAt 0 s = Parse.expression s
  /-- So do the parameters of a routine. -/
  parameters : ∀ n k, s.fuel ≤ n →
    Parse.parameterBody^[n] k 0 s = Parse.fuelled (fun fuel => Parse.moreParameters fuel 0) s
  /-- So does a declaration. -/
  declaration : s.rest ≠ [] → ∀ n k, s.fuel ≤ n →
    (Parse.StatementCalls.body^[n] k).declaration s = Parse.fuelled Parse.declaration s
  /-- So does a program. -/
  program : ∀ n k, s.fuel ≤ n → Parse.programBody^[n] k s = Parse.fuelled Parse.program s
  /-- A declaration passes a token, and after a mistake reading goes on at the end, behind a semicolon
  or where a statement begins. -/
  advances : s.rest ≠ [] → ∃ first t, Parse.fuelled Parse.declaration s = .ok first t ∧
    s.Onward s.tokens 1 t ∧ (first = none → Resumes s.rest t.rest)
  /-- A program is read to the end of the tokens. -/
  ends : ∃ ss t, Parse.fuelled Parse.program s = .ok ss t ∧ s.Onward s.tokens 0 t ∧ t.rest = []

open Parse in
theorem exists_advances {s : ParseState} (hrest : s.rest ≠ []) :
    ∃ first t, fuelled declaration s = .ok first t ∧ s.Onward s.tokens 1 t ∧
      (first = none → Resumes s.rest t.rest) := by
  rcases fuelled_declaration hrest with ⟨first, t, hrun, -⟩
  refine ⟨first, t, hrun, (walks_fuelled_declaration hrest).onward s.among_tokens hrun, ?_⟩
  rintro rfl
  -- The declaration is taken from its first call on, so that its mistake can be seen.
  have hwalk := StatementCalls.walk_ofFuel s.tokens (.ofFuel 0)
    (Nat.le_refl (8 * s.rest.length + 7)) (Nat.le_refl _)
  have hdeclared : Walks s.tokens 1 _ (StatementCalls.ofFuel (8 * s.rest.length + 7)).declared s :=
    hwalk.declared (by omega)
  rw [fuelled_succ] at hrun
  exact hdeclared.resumes s.among_tokens hrun

open Parse in
/-- Reading makes progress at every state. -/
theorem progresses (s : ParseState) : s.Progresses where
  expression _ k hn := by
    have hfuel := fuel_bound s
    have hwalk := ExpressionCalls.walk_ofFuel s.tokens k hn (Nat.le_refl s.fuel)
    exact (hwalk.expressionAt 0 s (by omega)).eq s.among_tokens
  parameters _ k hn := by
    have hfuel := fuel_bound s
    exact (walks_moreParameters k 0 (by omega) hn (Nat.le_refl s.fuel)).eq s.among_tokens
  declaration hrest _ k hn := (walks_declaration k hrest hn).eq s.among_tokens
  program _ k hn := by
    have hfuel := fuel_bound s
    exact (walks_program k (by omega) hn (Nat.le_refl s.fuel)).eq s.among_tokens
  advances hrest := exists_advances hrest
  ends := by
    have hfuel := fuel_bound s
    rcases program_ok s.fuel s (by omega) with ⟨ss, t, hrun, -, hend⟩
    have hwalks : Walks s.tokens 0 _ (Parse.program s.fuel) s :=
      walks_program (Parse.program 0) (by omega) (Nat.le_refl s.fuel) (Nat.le_refl s.fuel)
    exact ⟨ss, t, hrun, hwalks.onward s.among_tokens hrun, hend⟩

end ParseState

/-! ## Texts -/

/-- The mistakes that are recorded before anything is read are mistakes in the characters. -/
theorem ParseState.lexical_of_mem_mistakes {items : List Item} {e : SyntaxError}
    (h : e ∈ mistakes items) : ∃ cause, e.cause = .lexical cause := by
  rcases List.mem_filterMap.mp h with ⟨item, -, hitem⟩
  cases item with
  | ok t =>
      cases hitem
  | error mistake =>
      cases hitem
      exact ⟨mistake.cause, rfl⟩

/-- A mistake in the grammar stands at a token that was left when reading began. -/
theorem Reading.span_of_error {items : List Item} {nextId : Nat} {errors : List SyntaxError}
    {e : SyntaxError} (herrors : (ofItems items nextId).outcome = .error errors) (he : e ∈ errors)
    (hgrammar : e ∉ (ParseState.start items nextId).errors) :
    e.span ∈ (ParseState.start items nextId).tokens.map Token.span := by
  rcases (ParseState.start items nextId).progresses.ends with ⟨ss, t, hrun, honward, -⟩
  rcases honward.errors with ⟨more, hmore, hspans⟩
  have hmem : e ∈ t.errors := by
    simp only [ofItems, hrun] at herrors
    split at herrors
    · cases herrors
    · cases herrors
      exact he
  rw [hmore] at hmem
  exact hspans e ((List.mem_append.mp hmem).resolve_left hgrammar)

/-- Every text is read to its end, from any place between two of its characters. The end of the input is
the last token and no other token is one; the others are cut out of the text, numbers are digits with
perhaps a fraction, and strings have both their quotes. At every state reading makes progress and comes
to an end, so no token behind the last one is asked for. A mistake that is not one in the characters
stands at one of the tokens. -/
theorem reading_total {start : Nat} {text rest : List Char} (hstart : dropBytes? start text = some rest)
    (nextId : Nat) :
    ∃ front, tokensOf (scanFrom text start) = front ++ [Token.endAt (byteLength text)] ∧
      (ParseState.start (scanFrom text start) nextId).tokens = tokensOf (scanFrom text start) ∧
      (∀ t ∈ front, t.Written text) ∧ (∀ s : ParseState, s.Progresses) ∧
      ∀ errors e, (Reading.ofItems (scanFrom text start) nextId).outcome = .error errors →
        e ∈ errors → (∀ cause, e.cause ≠ .lexical cause) →
          ∃ t ∈ tokensOf (scanFrom text start), e.span = t.span := by
  rcases exists_of_dropBytes? hstart with ⟨before, rfl, rfl⟩
  rcases exists_tokensOf_scan before rest with ⟨items, hscan, hwritten⟩
  have hitems : scanFrom (before ++ rest) (byteLength before) =
      items ++ [.ok (Token.endAt (byteLength (before ++ rest)))] := by
    rw [scanFrom, hstart]
    exact hscan
  have htokens : tokensOf (scanFrom (before ++ rest) (byteLength before)) =
      tokensOf items ++ [Token.endAt (byteLength (before ++ rest))] := by
    rw [hitems, tokensOf, List.filterMap_append]
    rfl
  have hbegin : (ParseState.start (scanFrom (before ++ rest) (byteLength before)) nextId).tokens =
      tokensOf (scanFrom (before ++ rest) (byteLength before)) := by
    rw [htokens, hitems, ParseState.start_append_end]
    rfl
  refine ⟨tokensOf items, htokens, hbegin, hwritten, ParseState.progresses, ?_⟩
  intro errors e herrors he hcause
  have hspan : e.span ∈ (ParseState.start (scanFrom (before ++ rest) (byteLength before))
      nextId).tokens.map Token.span := by
    -- What was recorded before reading began is a mistake in the characters.
    refine Reading.span_of_error herrors he ?_
    rw [hitems, ParseState.start_append_end]
    intro hmistake
    rcases ParseState.lexical_of_mem_mistakes hmistake with ⟨cause, hlexical⟩
    exact hcause cause hlexical
  rw [hbegin] at hspan
  rcases List.mem_map.mp hspan with ⟨t, ht, heq⟩
  exact ⟨t, ht, heq.symm⟩

/-- Behind a character of two bytes: a declaration that stops at its end, where the mistake stands. -/
theorem reading_total_unfinished :
    dropBytes? 2 "é var a = 1.5 * ".toList = some " var a = 1.5 * ".toList ∧
      ∀ errors, (Reading.ofItems (scanFrom "é var a = 1.5 * ".toList 2) 0).outcome = .error errors →
        errors = [⟨.expectedExpression, ⟨17, 0⟩⟩] ∧
          ∃ t ∈ tokensOf (scanFrom "é var a = 1.5 * ".toList 2), ⟨17, 0⟩ = t.span := by
  have hstart : dropBytes? 2 "é var a = 1.5 * ".toList = some " var a = 1.5 * ".toList := by decide
  refine ⟨hstart, ?_⟩
  intro errors herrors
  have houtcome : (Reading.ofItems (scanFrom "é var a = 1.5 * ".toList 2) 0).outcome =
      .error [⟨.expectedExpression, ⟨17, 0⟩⟩] := by with_unfolding_all rfl
  rw [houtcome] at herrors
  cases herrors
  rcases reading_total hstart 0 with ⟨front, -, -, -, -, hspans⟩
  exact ⟨rfl, hspans _ _ houtcome List.mem_cons_self fun cause => SyntaxCause.noConfusion⟩

end Lox
