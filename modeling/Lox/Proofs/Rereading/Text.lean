import Lox.Proofs.Rereading.Statement
import Lox.Proofs.Token.Cut
import Lox.Syntax.Program

/-!
# Reading texts once more

* `Reading.ofItems_relabel`: items at other places read the same.
* `Reading.ofText_shift`: a text that begins later, and whose expressions are numbered from another
  number on, reads the same.
* `Reading.ofText_behind`: a text of two parts reads as its first part and then its second part, if
  the first part has no mistake and ends a line, and the second does not go on with `else`.
* `Reading.ofText_append`: so it does if neither part has a mistake.
-/

namespace Lox

namespace Rereading

/-- Reading the same once more, up to byte `stop`. -/
def same (stop : Nat) : Rereading where
  change := .printing []
  recorded := []
  behind := []
  stop
  whole := True
  low := 0
  number_succ := fun _ _ => rfl
  noElse := by simp
  nothing := fun _ => rfl

theorem matches_same (s : ParseState) : (same s.finish).Matches s s := by
  refine ⟨?_, rfl, ?_, rfl, fun _ => rfl⟩
  · change s.rest = s.rest.map id ++ []
    rw [List.map_id, List.append_nil]
  · exact (List.map_id s.errors).symm

theorem eq_of_matches_same {s s' : ParseState} {stop : Nat} (h : (same stop).Matches s s') :
    s' = s := by
  have hrest : s'.rest = s.rest := by
    rw [h.rest]
    exact (List.append_nil _).trans (List.map_id s.rest)
  have herrors : s'.errors = s.errors := h.errors.trans (List.map_id s.errors)
  have hfinish : s'.finish = s.finish :=
    h.finish.trans (congrArg Span.start (h.stop trivial)).symm
  rcases s' with ⟨rest, finish, nextId, errors⟩
  exact ParseState.mk.injEq .. |>.mpr ⟨hrest, hfinish, h.nextId, herrors⟩

end Rereading

namespace Parse

variable {k : Rereading}

/-! ## Programs -/

theorem recover_ne_error {α : Type} (p : Parse α) (s : ParseState) (e : SyntaxError)
    (t : ParseState) : recover p s ≠ .error e t := by
  unfold recover
  cases p s <;> simp

/-- A declaration always gives a state to go on in, and a token at least is used up. -/
theorem fuelled_declaration {s : ParseState} (hrest : s.rest ≠ []) :
    ∃ first t, fuelled declaration s = .ok first t ∧ s.Passes 1 t := by
  have hagree := repeats_fuelled_declaration trivial s s (Rereading.matches_same s)
    (Nat.zero_le _) (Nat.le_refl _) fun _ => hrest
  cases hrun : fuelled declaration s with
  | ok first t =>
      rw [hrun] at hagree
      exact ⟨first, t, rfl, hagree.1⟩
  | error e t =>
      exact absurd hrun (recover_ne_error _ s e t)

theorem program_succ_of_nil {fuel : Nat} {s : ParseState} (hrest : s.rest = []) :
    program (fuel + 1) s = .ok [] s := by
  rw [program]
  change EStateM.bind atEnd _ s = _
  simp only [EStateM.bind, atEnd, hrest]
  rfl

theorem program_succ_of_ok {fuel : Nat} {s t w : ParseState} {first : Option Stmt}
    {others : List Stmt} (hrest : s.rest ≠ []) (hfirst : fuelled declaration s = .ok first t)
    (hothers : program fuel t = .ok others w) :
    program (fuel + 1) s = .ok (first.toList ++ others) w := by
  have hnonempty : s.rest.isEmpty = false := by simpa using hrest
  rw [program]
  change EStateM.bind atEnd _ s = _
  simp only [EStateM.bind, atEnd, hnonempty]
  change EStateM.bind (fuelled declaration) _ s = _
  simp only [EStateM.bind, hfirst]
  change EStateM.bind (program fuel) _ t = _
  simp only [EStateM.bind, hothers]
  rfl

/-- Reading a program always comes to the end of the tokens. -/
theorem program_ok (fuel : Nat) : ∀ s : ParseState, s.rest.length < fuel →
    ∃ ss t, program fuel s = .ok ss t ∧ s.Passes 0 t ∧ t.rest = [] := by
  induction fuel with
  | zero =>
      intro s hlength
      omega
  | succ fuel ih =>
      intro s hlength
      by_cases hrest : s.rest = []
      · exact ⟨[], s, program_succ_of_nil hrest, .refl s, hrest⟩
      · rcases fuelled_declaration hrest with ⟨first, t, hfirst, hpasses⟩
        have hshorter := hpasses.length
        rcases ih t (by omega) with ⟨ss, w, hothers, hpasses', hend⟩
        exact ⟨first.toList ++ ss, w, program_succ_of_ok hrest hfirst hothers,
          (hpasses.trans hpasses').less (Nat.zero_le _), hend⟩

/-- A program without mistakes reads the same once more, and then what stands behind it is read. -/
theorem program_reread (fuel : Nat) : ∀ {fuel' : Nat} {s s' t : ParseState} {ss : List Stmt},
    k.Matches s s' → k.low ≤ s.nextId → s.rest.length < fuel → s'.rest.length < fuel' →
      program fuel s = .ok ss t → k.Settles true t →
        ∃ t' fuel'' more w, k.Matches t t' ∧ t'.rest.length < fuel'' ∧
          program fuel'' t' = .ok more w ∧
            program fuel' s' = .ok (Stmt.relabelAll k.change ss ++ more) w := by
  induction fuel with
  | zero =>
      intro fuel' s s' t ss _ _ hlength
      omega
  | succ fuel ih =>
      intro fuel' s s' t ss hs hlow hlength hlength' hrun hsettles
      by_cases hrest : s.rest = []
      · -- The second reading has come to what stands behind.
        rw [program_succ_of_nil hrest] at hrun
        cases hrun
        rcases program_ok fuel' s' hlength' with ⟨more, w, hmore, -⟩
        exact ⟨s', fuel', more, w, hs, hlength', hmore, hmore⟩
      · rcases fuelled_declaration hrest with ⟨first, v, hfirst, hpasses⟩
        have hshorter := hpasses.length
        rcases program_ok fuel v (by omega) with ⟨others, t₁, hothers, hpasses', -⟩
        rw [program_succ_of_ok hrest hfirst hothers] at hrun
        cases hrun
        have hagree := repeats_fuelled_declaration trivial s s' hs hlow (Nat.le_refl _)
          fun _ => hrest
        rw [hfirst] at hagree
        rcases hagree.2 (hsettles.before hpasses' rfl) with ⟨v', hfirst', hv⟩
        have hrest' : s'.rest ≠ [] := by
          rw [hs.rest]
          simp [hrest]
        rcases fuelled_declaration hrest' with ⟨first₁, v₁, hfirst₁, hpasses₁⟩
        rw [hfirst'] at hfirst₁
        cases hfirst₁
        have hshorter' := hpasses₁.length
        rcases fuel' with _ | fuel'
        · omega
        · have hlength₁ : v'.rest.length < fuel' := by omega
          rcases ih hv (Nat.le_trans hlow hpasses.nextId) (by omega) hlength₁ hothers hsettles
            with ⟨t', fuel'', more, w, ht, hlength'', hmore, hall⟩
          refine ⟨t', fuel'', more, w, ht, hlength'', hmore, ?_⟩
          rw [program_succ_of_ok hrest' hfirst' hall, ← List.append_assoc, relabelAll_toList]

/-- A program reads the same once more if it is read as a whole. -/
theorem program_whole (hwhole : k.whole) {fuel fuel' : Nat} {s s' t : ParseState}
    {ss : List Stmt} (hs : k.Matches s s') (hlow : k.low ≤ s.nextId)
    (hfuel : s.rest.length < fuel) (hfuel' : s'.rest.length < fuel')
    (hrun : program fuel s = .ok ss t) :
    ∃ t', k.Matches t t' ∧ program fuel' s' = .ok (Stmt.relabelAll k.change ss) t' := by
  rcases program_ok fuel s hfuel with ⟨ss₁, t₁, hrun₁, -, hend⟩
  rw [hrun] at hrun₁
  cases hrun₁
  rcases program_reread fuel hs hlow hfuel hfuel' hrun (.inl hwhole) with
    ⟨t', fuel'', more, w, ht, hlength, hmore, hall⟩
  have hend' : t'.rest = [] := by
    rw [ht.rest, hend, k.nothing hwhole]
    rfl
  rcases fuel'' with _ | fuel''
  · omega
  · rw [program_succ_of_nil hend'] at hmore
    cases hmore
    rw [List.append_nil] at hall
    exact ⟨t', ht, hall⟩

/-- How much fuel there is makes no difference. -/
theorem program_fuel {fuel fuel' : Nat} {s : ParseState} (hfuel : s.rest.length < fuel)
    (hfuel' : s.rest.length < fuel') : program fuel' s = program fuel s := by
  rcases program_ok fuel s hfuel with ⟨ss, t, hrun, -⟩
  rcases program_whole (k := .same s.finish) trivial (Rereading.matches_same s) (Nat.zero_le _) hfuel hfuel'
    hrun with ⟨t', ht, hrun'⟩
  rw [hrun, hrun', Rereading.eq_of_matches_same ht]
  exact congrArg (EStateM.Result.ok · t) (Stmt.relabelAll_printing [] ss)

/-! ## A program does not begin with `else` -/

/-- A step stops at once. -/
def Stops {α : Type} (p : Parse α) (s : ParseState) : Prop :=
  ∃ e, p s = .error e s

section Else

variable {α β : Type} {s : ParseState}

theorem Stops.bind {p : Parse α} (q : α → Parse β) (h : Stops p s) : Stops (p >>= q) s := by
  rcases h with ⟨e, h⟩
  refine ⟨e, ?_⟩
  change EStateM.bind p q s = _
  simp only [EStateM.bind, h]

theorem Stops.peek {q : Token → Parse β} (h : Stops (q s.current) s) : Stops (peek >>= q) s :=
  h

theorem Stops.recover {p : Parse α} (h : Stops p s) :
    ∃ t, recover p s = .ok none t ∧ t.errors ≠ [] := by
  rcases h with ⟨e, h⟩
  refine ⟨(s.record e).synchronize, ?_, ?_⟩
  · simp only [Parse.recover, h]
  · unfold ParseState.synchronize
    split <;> simp [ParseState.record]

theorem expression_apply (s : ParseState) : expression s = expressionAt s.fuel 0 s :=
  rfl

theorem fuelled_apply (step : Nat → Parse α) (s : ParseState) : fuelled step s = step s.fuel s :=
  rfl

/-- A step never begins without fuel. -/
theorem fuelled_succ (step : Nat → Parse α) (s : ParseState) :
    fuelled step s = step (8 * s.rest.length + 7 + 1) s :=
  rfl

variable (helse : s.current.kind = .keyword .else)

include helse

theorem stops_operand (fuel : Nat) : Stops (operand fuel) s := by
  cases fuel with
  | zero =>
      exact ⟨_, rfl⟩
  | succ fuel =>
      rw [operand]
      refine Stops.peek ?_
      simp only [helse, UnaryOp.ofKind?, atom, Literal.ofToken?]
      exact ⟨_, rfl⟩

theorem stops_expression : Stops expression s := by
  unfold Stops
  rw [expression_apply]
  cases s.fuel with
  | zero =>
      exact ⟨_, rfl⟩
  | succ fuel =>
      rw [expressionAt]
      exact (stops_operand helse fuel).bind (continueFrom fuel 0)

theorem stops_statement (fuel : Nat) : Stops (statement fuel) s := by
  cases fuel with
  | zero =>
      exact ⟨_, rfl⟩
  | succ fuel =>
      rw [statement]
      refine Stops.peek ?_
      simp only [helse]
      exact (stops_expression helse).bind _

theorem declaration_of_else : ∃ t, fuelled declaration s = .ok none t ∧ t.errors ≠ [] := by
  rw [fuelled_succ, declaration]
  refine Stops.recover (Stops.peek ?_)
  simp only [helse]
  exact stops_statement helse _

end Else

/-- A program that begins with `else` has a mistake. -/
theorem errors_of_else {s t : ParseState} {fuel : Nat} {ss : List Stmt}
    (helse : ∃ u ∈ s.rest.head?, u.kind = .keyword .else) (hfuel : s.rest.length < fuel)
    (hrun : program fuel s = .ok ss t) : t.errors ≠ [] := by
  rcases helse with ⟨u, hu, hkind⟩
  have hrest : s.rest ≠ [] := by
    intro hnil
    rw [hnil] at hu
    cases hu
  have hcurrent : s.current.kind = .keyword .else := by
    rw [ParseState.current, List.headD_eq_head?_getD, Option.mem_def.mp hu]
    exact hkind
  rcases declaration_of_else hcurrent with ⟨w, hfirst, herrors⟩
  rcases fuelled_declaration hrest with ⟨first₁, w₁, hfirst₁, hpasses⟩
  rw [hfirst] at hfirst₁
  cases hfirst₁
  rcases fuel with _ | fuel
  · omega
  · have hshorter := hpasses.length
    rcases program_ok fuel w (by omega) with ⟨others, t₁, hothers, hpasses', -⟩
    rw [program_succ_of_ok hrest hfirst hothers] at hrun
    cases hrun
    exact fun hnone => herrors (hpasses'.errors hnone)

end Parse

/-! ## Texts -/

theorem Token.relabel_endAt {f : Relabel} {stop stop' : Nat}
    (hplace : f.place ⟨stop, 0⟩ = ⟨stop', 0⟩) : (endAt stop).relabel f = endAt stop' :=
  congrArg (fun place => Token.mk .eof place "") hplace

/-- The items of a text are tokens and mistakes, and then the end. -/
theorem exists_scan_eq (offset : Nat) (text : List Char) :
    ∃ items stop, scan offset text = items ++ [.ok (Token.endAt stop)] := by
  rcases exists_getLast?_scan offset text with ⟨stop, hlast⟩
  rcases List.getLast?_eq_some_iff.mp hlast with ⟨items, hitems⟩
  exact ⟨items, stop, hitems⟩

namespace ParseState

theorem length_lt_fuel (s : ParseState) : s.rest.length < s.fuel := by
  simp only [fuel]
  omega

/-- The mistakes in the characters. -/
def mistakes (items : List Item) : List SyntaxError :=
  items.filterMap fun
    | .ok _ => none
    | .error e => some (.ofLexical e)

theorem start_append_end (items : List Item) (stop nextId : Nat) :
    start (items ++ [.ok (Token.endAt stop)]) nextId =
      ⟨items.filterMap Except.toOption, stop, nextId, mistakes items⟩ := by
  simp [start, List.filterMap_append, Except.toOption, Token.endAt]
  rfl

/-- Items without mistakes in the characters. -/
theorem not_error_mem_scan {offset stop : Nat} {text : List Char} {items : List Item}
    (hscan : scan offset text = items ++ [.ok (Token.endAt stop)]) (hmistakes : mistakes items = [])
    (e : LexicalError) : .error e ∉ scan offset text := by
  intro he
  rw [hscan, List.mem_append] at he
  rcases he with he | he
  · have hmem : SyntaxError.ofLexical e ∈ mistakes items := List.mem_filterMap.mpr ⟨_, he, rfl⟩
    rw [hmistakes] at hmem
    cases hmem
  · simp at he

theorem mistakes_append (items others : List Item) :
    mistakes (items ++ others) = mistakes items ++ mistakes others :=
  List.filterMap_append

theorem tokens_relabel (f : Relabel) (items : List Item) :
    (items.map (Item.relabel f)).filterMap Except.toOption =
      (items.filterMap Except.toOption).map (Token.relabel f) := by
  induction items with
  | nil =>
      rfl
  | cons item items ih =>
      cases item with
      | ok t =>
          exact congrArg (List.cons (t.relabel f)) ih
      | error e =>
          exact ih

theorem mistakes_relabel (f : Relabel) (items : List Item) :
    mistakes (items.map (Item.relabel f)) = (mistakes items).map (SyntaxError.relabel f) := by
  induction items with
  | nil =>
      rfl
  | cons item items ih =>
      cases item with
      | ok t =>
          exact ih
      | error e =>
          exact congrArg (List.cons (SyntaxError.relabel f (.ofLexical e))) ih

end ParseState

namespace Reading

/-- What is read, with other numbers and places. -/
def relabel (f : Relabel) (r : Reading) : Reading :=
  ⟨f.number r.nextId,
    match r.outcome with
    | .ok ss => .ok (Stmt.relabelAll f ss)
    | .error errors => .error (errors.map (SyntaxError.relabel f))⟩

/-- What a reading comes to that has ended in a state. -/
def ofState (ss : List Stmt) (t : ParseState) : Reading :=
  ⟨t.nextId, if t.errors.isEmpty then .ok ss else .error t.errors⟩

theorem ofState_ok {ss ss' : List Stmt} {t : ParseState}
    (h : (ofState ss t).outcome = .ok ss') : ss' = ss ∧ t.errors = [] := by
  unfold ofState at h
  dsimp only at h
  split at h
  · rename_i hempty
    exact ⟨(Except.ok.inj h).symm, List.isEmpty_iff.mp hempty⟩
  · cases h

theorem fuelled_program (s : ParseState) {fuel : Nat} (hfuel : s.rest.length < fuel) :
    Parse.fuelled Parse.program s = Parse.program fuel s :=
  Parse.program_fuel hfuel s.length_lt_fuel

theorem ofItems_of_program {nextId stop fuel : Nat} {items : List Item} {ss : List Stmt}
    {t : ParseState} (hfuel : (items.filterMap Except.toOption).length < fuel)
    (hrun : Parse.program fuel ⟨items.filterMap Except.toOption, stop, nextId,
      ParseState.mistakes items⟩ = .ok ss t) :
    ofItems (items ++ [.ok (Token.endAt stop)]) nextId = ofState ss t := by
  unfold ofItems
  rw [ParseState.start_append_end, fuelled_program _ hfuel, hrun]
  rfl

theorem ofText_of_scan {offset nextId stop fuel : Nat} {text : List Char} {items : List Item}
    (hscan : scan offset text = items ++ [.ok (Token.endAt stop)]) {ss : List Stmt}
    {t : ParseState}
    (hfuel : (items.filterMap Except.toOption).length < fuel)
    (hrun : Parse.program fuel ⟨items.filterMap Except.toOption, stop, nextId,
      ParseState.mistakes items⟩ = .ok ss t) :
    ofText offset nextId text = ofState ss t := by
  unfold ofText
  rw [hscan]
  exact ofItems_of_program hfuel hrun

variable {offset nextId distance : Nat}

/-- Items at other places, read with other numbers, give the same with these numbers and places. The
end of the input has to stay empty. -/
theorem ofItems_relabel {f : Relabel} {stop stop' : Nat}
    (hplace : f.place ⟨stop, 0⟩ = ⟨stop', 0⟩)
    (hnumber : ∀ n, nextId ≤ n → f.number (n + 1) = f.number n + 1) (items : List Item) :
    ofItems (items.map (Item.relabel f) ++ [.ok (Token.endAt stop')]) (f.number nextId) =
      (ofItems (items ++ [.ok (Token.endAt stop)]) nextId).relabel f := by
  let k : Rereading := ⟨f, [], [], stop', True, nextId, hnumber, by simp, fun _ => rfl⟩
  let s : ParseState := ⟨items.filterMap Except.toOption, stop, nextId, ParseState.mistakes items⟩
  let s' : ParseState := ⟨(items.map (Item.relabel f)).filterMap Except.toOption, stop',
    f.number nextId, ParseState.mistakes (items.map (Item.relabel f))⟩
  have hs : k.Matches s s' := by
    refine ⟨?_, rfl, ParseState.mistakes_relabel f items, rfl, fun _ => hplace⟩
    rw [List.append_nil]
    exact ParseState.tokens_relabel f items
  rcases Parse.program_ok _ s (Nat.lt_succ_self _) with ⟨ss, t, hrun, -⟩
  rcases Parse.program_whole (k := k) trivial hs (Nat.le_refl _) (Nat.lt_succ_self _)
    (Nat.lt_succ_self _) hrun with ⟨t', ht, hrun'⟩
  rw [ofItems_of_program (Nat.lt_succ_self _) hrun, ofItems_of_program (Nat.lt_succ_self _) hrun']
  unfold ofState relabel
  rw [ht.nextId, ht.errors]
  cases t.errors <;> rfl

/-- A text that begins later and whose expressions are numbered from another number on reads the
same. -/
theorem ofText_shift {f : Relabel} (hplace : f.place = Span.shift distance)
    (hnumber : ∀ n, nextId ≤ n → f.number (n + 1) = f.number n + 1) (text : List Char) :
    ofText (offset + distance) (f.number nextId) text = (ofText offset nextId text).relabel f := by
  rcases exists_scan_eq offset text with ⟨items, stop, hscan⟩
  have hstop : f.place ⟨stop, 0⟩ = ⟨stop + distance, 0⟩ := congrFun hplace ⟨stop, 0⟩
  have hscan' : scan (offset + distance) text =
      items.map (Item.relabel f) ++ [.ok (Token.endAt (stop + distance))] := by
    rw [scan_shift hplace, hscan, List.map_append, List.map_singleton, Item.relabel,
      Token.relabel_endAt hstop]
  unfold ofText
  rw [hscan, hscan']
  exact ofItems_relabel hstop hnumber items

/-- How a text without mistakes is read: up to its end, in a state without mistakes. -/
structure Clean (offset nextId : Nat) (text : List Char) (ss : List Stmt) (items : List Item)
    (stop : Nat) (t : ParseState) : Prop where
  scan : scan offset text = items ++ [.ok (Token.endAt stop)]
  mistakes : ParseState.mistakes items = []
  program : Parse.program ((items.filterMap Except.toOption).length + 1)
    ⟨items.filterMap Except.toOption, stop, nextId, []⟩ = .ok ss t
  rest : t.rest = []
  errors : t.errors = []
  nextId : t.nextId = (ofText offset nextId text).nextId

theorem exists_clean {text : List Char} {ss : List Stmt}
    (h : (ofText offset nextId text).outcome = .ok ss) :
    ∃ items stop t, Clean offset nextId text ss items stop t := by
  rcases exists_scan_eq offset text with ⟨items, stop, hscan⟩
  rcases Parse.program_ok _ ⟨items.filterMap Except.toOption, stop, nextId,
    ParseState.mistakes items⟩ (Nat.lt_succ_self _) with ⟨ss₁, t, hrun, hpasses, hrest⟩
  have hread := ofText_of_scan hscan (Nat.lt_succ_self _) hrun
  rw [hread] at h
  rcases ofState_ok h with ⟨rfl, herrors⟩
  have hmistakes : ParseState.mistakes items = [] := hpasses.errors herrors
  rw [hmistakes] at hrun
  exact ⟨items, stop, t, hscan, hmistakes, hrun, hrest, herrors, by rw [hread]; rfl⟩

/-- The mistakes of a second text are recorded from the start on, and what is read of it stands behind
what was read before. -/
theorem ofText_behind {xs ys : List Char} (hline : EndsLine xs) {ss : List Stmt}
    (hfirst : (ofText offset nextId xs).outcome = .ok ss)
    (helse : ∀ u ∈ ((scan (offset + byteLength xs) ys).filterMap Except.toOption).head?,
      u.kind ≠ .keyword .else) :
    ofText offset nextId (xs ++ ys) =
      ⟨(ofText (offset + byteLength xs) (ofText offset nextId xs).nextId ys).nextId,
        (ofText (offset + byteLength xs) (ofText offset nextId xs).nextId ys).outcome.map
          (ss ++ ·)⟩ := by
  rcases exists_clean hfirst with ⟨items, stop, t, h⟩
  rcases exists_scan_eq (offset + byteLength xs) ys with ⟨items', stop', hscan'⟩
  let tokens := items.filterMap Except.toOption
  let tokens' := items'.filterMap Except.toOption
  let mistakes' := ParseState.mistakes items'
  have hnoElse : ∀ u ∈ tokens'.head?, u.kind ≠ .keyword .else := by
    intro u hu
    apply helse u
    rw [hscan', List.filterMap_append, List.head?_append, Option.mem_def.mp hu]
    rfl
  -- The first part reads the same with the tokens of the second part behind it, and with the mistakes
  -- of its characters recorded.
  let k : Rereading :=
    ⟨.printing [], mistakes', tokens', stop', False, 0, fun _ _ => rfl, hnoElse, False.elim⟩
  have hs : k.Matches ⟨tokens, stop, nextId, []⟩ ⟨tokens ++ tokens', stop', nextId, mistakes'⟩ :=
    ⟨congrArg (· ++ tokens') (List.map_id tokens).symm, rfl, (List.append_nil _).symm, rfl,
      False.elim⟩
  rcases Parse.program_reread _ hs (Nat.zero_le _) (Nat.lt_succ_self _) (Nat.lt_succ_self _)
    h.program (.inr ⟨h.errors, .inl rfl⟩) with ⟨t', fuel', more, w, ht, hfuel', hmore, hall⟩
  -- Where it leaves off, the second part begins.
  have ht' : t' = ⟨tokens', stop', (ofText offset nextId xs).nextId, mistakes'⟩ := by
    have hrest : t'.rest = tokens' := by
      rw [ht.rest, h.rest]
      rfl
    have herrors : t'.errors = mistakes' := by
      rw [ht.errors, h.errors]
      exact List.append_nil _
    rcases t' with ⟨rest, finish, number, errors⟩
    exact ParseState.mk.injEq .. |>.mpr ⟨hrest, ht.finish, ht.nextId.trans h.nextId, herrors⟩
  subst ht'
  have hscan : scan offset (xs ++ ys) = items ++ items' ++ [.ok (Token.endAt stop')] := by
    rw [scan_append ys hline (ParseState.not_error_mem_scan h.scan h.mistakes), h.scan, hscan',
      List.dropLast_concat, List.append_assoc]
  rw [show (⟨tokens ++ tokens', stop', nextId, mistakes'⟩ : ParseState) =
    ⟨(items ++ items').filterMap Except.toOption, stop', nextId,
      ParseState.mistakes (items ++ items')⟩ by
    rw [List.filterMap_append, ParseState.mistakes_append, h.mistakes]
    rfl] at hall
  rw [ofText_of_scan hscan (Nat.lt_succ_self _) hall, ofText_of_scan hscan' hfuel' hmore,
    Stmt.relabelAll_printing]
  unfold ofState
  cases w.errors <;> rfl

/-- A text without mistakes does not begin with `else`. -/
theorem head_ne_else {text : List Char} {ss : List Stmt}
    (h : (ofText offset nextId text).outcome = .ok ss) :
    ∀ u ∈ ((scan offset text).filterMap Except.toOption).head?, u.kind ≠ .keyword .else := by
  rcases exists_clean h with ⟨items, stop, t, h⟩
  intro u hu hkind
  -- The end of the input is not an `else`, so the token is one of the program's.
  have hmem : u ∈ (items.filterMap Except.toOption).head? := by
    rw [h.scan, List.filterMap_append, List.head?_append] at hu
    cases hhead : (items.filterMap Except.toOption).head? with
    | none =>
        rw [hhead] at hu
        cases hu
        cases hkind
    | some v =>
        rw [hhead] at hu
        exact hu
  exact Parse.errors_of_else ⟨u, hmem, hkind⟩ (Nat.lt_succ_self _) h.program h.errors

/-- A text of two parts reads as its first part and then its second part, if the first part ends a
line and neither has a mistake. -/
theorem ofText_append {xs ys : List Char} (hline : EndsLine xs) {ss ss' : List Stmt}
    (hfirst : (ofText offset nextId xs).outcome = .ok ss)
    (hsecond : (ofText (offset + byteLength xs) (ofText offset nextId xs).nextId ys).outcome =
      .ok ss') :
    ofText offset nextId (xs ++ ys) =
      ⟨(ofText (offset + byteLength xs) (ofText offset nextId xs).nextId ys).nextId,
        .ok (ss ++ ss')⟩ := by
  rw [ofText_behind hline hfirst (head_ne_else hsecond), hsecond]
  rfl

end Reading

end Lox
