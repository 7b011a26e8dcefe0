import Lox.Proofs.Arena.Text
import Lox.Proofs.Rebuilding.Statement

/-!
# Texts in two parts in an arena

A first part that ends a line and has no mistake adds its nodes as if it stood alone, and what stands
behind it adds its nodes to these as if it were read next.

* `Build.program_reread` is this for the tokens of a program.
* `Arena.readText_behind` is this for texts.

Main statement: `Arena.readText_append`.
-/

namespace Lox

/-- Where reading came to its end without a mistake, the sequel begins. -/
theorem Sequel.Matches.eq_of_ended {k : Sequel} {t t' : BuildState} (h : k.Matches t t')
    (hend : t.reading.rest = []) (herrors : t.reading.errors = []) :
    t' = ⟨⟨k.behind, k.stop, t.reading.nextId, k.recorded⟩, t.arena⟩ := by
  have hrest' : t'.reading.rest = k.behind := by
    rw [h.reading.rest, hend]
    rfl
  have herrors' : t'.reading.errors = k.recorded := by
    rw [h.reading.errors, herrors]
    exact List.append_nil _
  have hnextId : t'.reading.nextId = t.reading.nextId := h.reading.nextId
  have hfinish : t'.reading.finish = k.stop := h.reading.finish
  rw [← hrest', ← herrors', ← hnextId, ← hfinish, ← h.arena]

namespace Build

variable {k : Sequel} {b t w : BuildState} {is others : List Index}

/-! ## Programs -/

theorem recover_ne_error {α : Type} (q : Build α) (b : BuildState) (e : SyntaxError)
    (t : BuildState) : recover q b ≠ .error e t := by
  unfold recover
  cases q b <;> simp

/-- A declaration always gives a state to go on in, and a token at least is used up. -/
theorem fuelled_declaration (hrest : b.reading.rest ≠ []) :
    ∃ first t, fuelled declaration b = .ok first t ∧ b.reading.Passes 1 t.reading := by
  let k : Sequel := ⟨[], [], 0, by simp⟩
  rcases k.exists_matches b with ⟨b', hb⟩
  have hagree := repeats_fuelled_declaration trivial b b' hb (Nat.le_refl _) fun _ => hrest
  cases hrun : fuelled declaration b with
  | ok first t =>
      rw [hrun] at hagree
      exact ⟨first, t, rfl, hagree.1⟩
  | error e t =>
      exact absurd hrun (recover_ne_error _ b e t)

theorem program_succ_of_nil {fuel : Nat} (hrest : b.reading.rest = []) :
    program (fuel + 1) b = .ok [] b := by
  rw [program]
  change EStateM.bind (read Parse.atEnd) _ b = _
  simp only [EStateM.bind, read, Parse.atEnd, hrest]
  rfl

theorem program_succ_of_ok {fuel : Nat} {first : Option Index} (hrest : b.reading.rest ≠ [])
    (hfirst : fuelled declaration b = .ok first t) (hothers : program fuel t = .ok others w) :
    program (fuel + 1) b = .ok (first.toList ++ others) w := by
  have hnonempty : b.reading.rest.isEmpty = false := by simpa using hrest
  rw [program]
  change EStateM.bind (read Parse.atEnd) _ b = _
  simp only [EStateM.bind, read, Parse.atEnd, hnonempty]
  change EStateM.bind (fuelled declaration) _ b = _
  simp only [EStateM.bind, hfirst]
  change EStateM.bind (program fuel) _ t = _
  simp only [EStateM.bind, hothers]
  rfl

/-- Reading a program always comes to the end of the tokens, and how much fuel there is makes no
difference. -/
theorem program_ok (fuel : Nat) : ∀ b : BuildState, b.reading.rest.length < fuel →
    ∃ is t, (∀ fuel', b.reading.rest.length < fuel' → program fuel' b = .ok is t) ∧
      b.reading.Passes 0 t.reading ∧ t.reading.rest = [] := by
  induction fuel with
  | zero =>
      intro b hlength
      omega
  | succ fuel ih =>
      intro b hlength
      by_cases hrest : b.reading.rest = []
      · refine ⟨[], b, ?_, .refl _, hrest⟩
        rintro (_ | fuel') hlength'
        · omega
        · exact program_succ_of_nil hrest
      · rcases fuelled_declaration hrest with ⟨first, t, hfirst, hpasses⟩
        have hshorter := hpasses.length
        rcases ih t (by omega) with ⟨is, w, hothers, hpasses', hend⟩
        refine ⟨first.toList ++ is, w, ?_, (hpasses.trans hpasses').less (Nat.zero_le _), hend⟩
        rintro (_ | fuel') hlength'
        · omega
        · exact program_succ_of_ok hrest hfirst (hothers fuel' (by omega))

theorem fuelled_program (b : BuildState) :
    ∃ is t, fuelled program b = .ok is t ∧ b.reading.Passes 0 t.reading ∧ t.reading.rest = [] := by
  rcases program_ok _ b (Nat.lt_succ_self _) with ⟨is, t, hrun, hpasses, hend⟩
  exact ⟨is, t, hrun _ b.reading.length_lt_fuel, hpasses, hend⟩

theorem fuelled_program_of_nil (hrest : b.reading.rest = []) : fuelled program b = .ok [] b :=
  program_succ_of_nil hrest

theorem fuelled_program_of_ok {first : Option Index} (hrest : b.reading.rest ≠ [])
    (hfirst : fuelled declaration b = .ok first t) (hothers : fuelled program t = .ok others w) :
    fuelled program b = .ok (first.toList ++ others) w := by
  rcases fuelled_declaration hrest with ⟨first', t', hfirst', hpasses⟩
  rw [hfirst] at hfirst'
  cases hfirst'
  rcases program_ok _ t (Nat.lt_succ_self _) with ⟨is, w', hall, -, -⟩
  have hsame : EStateM.Result.ok is w' = .ok others w :=
    (hall _ t.reading.length_lt_fuel).symm.trans hothers
  cases hsame
  have hshorter := hpasses.length
  have hfuel : t.reading.rest.length < 8 * b.reading.rest.length + 7 := by omega
  exact program_succ_of_ok hrest hfirst (hall _ hfuel)

/-- A program without mistakes adds the same once more, and then what stands behind it is read. -/
theorem program_reread (n : Nat) : ∀ {b b' t : BuildState} {is : List Index}, k.Matches b b' →
    b.reading.rest.length ≤ n → fuelled program b = .ok is t →
      k.rereading.Settles true t.reading → ∃ t', k.Matches t t' ∧
        ∀ more w, fuelled program t' = .ok more w → fuelled program b' = .ok (is ++ more) w := by
  induction n with
  | zero =>
      intro b b' t is hb hlength hrun _
      rw [fuelled_program_of_nil (List.eq_nil_of_length_eq_zero (Nat.le_zero.mp hlength))] at hrun
      cases hrun
      exact ⟨b', hb, fun _ _ => id⟩
  | succ n ih =>
      intro b b' t is hb hlength hrun hsettles
      by_cases hrest : b.reading.rest = []
      · -- The second reading has come to what stands behind.
        rw [fuelled_program_of_nil hrest] at hrun
        cases hrun
        exact ⟨b', hb, fun _ _ => id⟩
      · rcases fuelled_declaration hrest with ⟨first, v, hfirst, hpasses⟩
        have hshorter := hpasses.length
        rcases fuelled_program v with ⟨others, t₁, hothers, hpasses', -⟩
        rw [fuelled_program_of_ok hrest hfirst hothers] at hrun
        cases hrun
        have hagree := repeats_fuelled_declaration trivial b b' hb (Nat.le_refl _) fun _ => hrest
        rw [hfirst] at hagree
        rcases hagree.2 (hsettles.before hpasses' rfl) with ⟨v', hfirst', hv⟩
        have hrest' : b'.reading.rest ≠ [] := by
          rw [hb.reading.rest]
          simp [hrest]
        rcases ih hv (by omega) hothers hsettles with ⟨t', ht, hall⟩
        refine ⟨t', ht, ?_⟩
        intro more w hmore
        rw [fuelled_program_of_ok hrest' hfirst' (hall more w hmore), List.append_assoc]

/-- Tokens that are a program without mistakes may have others behind them. These are read into the
arena that the program leaves. -/
theorem program_behind (k : Sequel) {tokens : List Token} {finish nextId : Nat} {a : Arena}
    {more : List Index} (hrun : fuelled program ⟨⟨tokens, finish, nextId, []⟩, a⟩ = .ok is t)
    (hend : t.reading.rest = []) (herrors : t.reading.errors = [])
    (hmore : fuelled program ⟨⟨k.behind, k.stop, t.reading.nextId, k.recorded⟩, t.arena⟩ =
      .ok more w) :
    fuelled program ⟨⟨tokens ++ k.behind, k.stop, nextId, k.recorded⟩, a⟩ = .ok (is ++ more) w := by
  have hb : k.Matches ⟨⟨tokens, finish, nextId, []⟩, a⟩
      ⟨⟨tokens ++ k.behind, k.stop, nextId, k.recorded⟩, a⟩ :=
    ⟨⟨congrArg (· ++ k.behind) (List.map_id tokens).symm, rfl, (List.append_nil _).symm, rfl,
      False.elim⟩, rfl⟩
  rcases program_reread _ hb (Nat.le_refl _) hrun (.inr ⟨herrors, .inl rfl⟩) with ⟨t', ht, hall⟩
  apply hall
  rw [ht.eq_of_ended hend herrors]
  exact hmore

/-- The next number is the number of the next expression. -/
theorem nextId_of_program {limit : Nat} {frame roots : List Handle}
    (h : b.Ready limit frame roots) (hrun : fuelled program b = .ok is t) :
    t.reading.nextId = t.arena.expressions.size := by
  have hagrees := agrees_fuelled fun fuel => agrees_program fuel h
  unfold Agrees at hagrees
  rw [hrun] at hagrees
  revert hagrees
  cases Parse.fuelled Parse.program b.reading with
  | ok ss s =>
      rintro ⟨-, -, hgot⟩
      exact hgot.ready.count
  | error e s =>
      exact False.elim

end Build

/-! ## Texts -/

namespace Arena

variable {a : Arena} {roots : List Handle} {offset stop : Nat} {text xs ys : List Char}
  {items : List Item} {is : List Index} {t : BuildState}

theorem readText_of_scan (hscan : scan offset text = items ++ [.ok (Token.endAt stop)])
    (hrun : Build.fuelled Build.program ⟨⟨items.filterMap Except.toOption, stop,
      a.expressions.size, ParseState.mistakes items⟩, a⟩ = .ok is t) :
    a.readText offset text =
      (t.arena, if t.reading.errors.isEmpty then .ok is else .error t.reading.errors) := by
  unfold readText readItems
  rw [hscan, ParseState.start_append_end, hrun]

/-- What is known when a text has been read into an arena without a mistake. -/
theorem exists_run_of_ok (hscan : scan offset text = items ++ [.ok (Token.endAt stop)])
    (h : (a.readText offset text).2 = .ok is) :
    ∃ t, Build.fuelled Build.program ⟨⟨items.filterMap Except.toOption, stop, a.expressions.size, []⟩,
        a⟩ = .ok is t ∧
      t.reading.rest = [] ∧ t.reading.errors = [] ∧ (a.readText offset text).1 = t.arena ∧
        ParseState.mistakes items = [] := by
  rcases Build.fuelled_program ⟨⟨items.filterMap Except.toOption, stop, a.expressions.size,
    ParseState.mistakes items⟩, a⟩ with ⟨is', t, hrun, hpasses, hend⟩
  have htext := readText_of_scan hscan hrun
  rw [htext] at h
  dsimp only at h
  split at h
  · rename_i hempty
    cases h
    have herrors : t.reading.errors = [] := List.isEmpty_iff.mp hempty
    have hmistakes : ParseState.mistakes items = [] := hpasses.errors herrors
    rw [hmistakes] at hrun
    exact ⟨t, hrun, hend, herrors, congrArg Prod.fst htext, hmistakes⟩
  · cases h

/-- What stands behind a first part without mistakes is read into the arena that the first part
leaves. -/
theorem readText_behind (hbuilt : a.Built) (hforest : a.Forest roots)
    (hsmall : a.count + byteLength xs < UInt32.size) (hline : EndsLine xs)
    (hfirst : (a.readText offset xs).2 = .ok is)
    (helse : ∀ u ∈ ((scan (offset + byteLength xs) ys).filterMap Except.toOption).head?,
      u.kind ≠ .keyword .else) :
    let b := (a.readText offset xs).1
    a.readText offset (xs ++ ys) =
      ((b.readText (offset + byteLength xs) ys).1,
        (b.readText (offset + byteLength xs) ys).2.map (is ++ ·)) := by
  intro b
  rcases exists_scan_eq offset xs with ⟨items, stop, hscan⟩
  rcases exists_scan_eq (offset + byteLength xs) ys with ⟨items', stop', hscan'⟩
  rcases exists_run_of_ok hscan hfirst with ⟨t, hrun, hend, herrors, hb, hmistakes⟩
  have hnoElse : ∀ u ∈ (items'.filterMap Except.toOption).head?, u.kind ≠ .keyword .else := by
    intro u hu
    apply helse u
    rw [hscan', List.filterMap_append, List.head?_append, Option.mem_def.mp hu]
    rfl
  have hnext : t.reading.nextId = t.arena.expressions.size := by
    have hready := ready_start hbuilt hforest offset hsmall
    rw [hscan, ParseState.start_append_end, hmistakes] at hready
    exact Build.nextId_of_program hready hrun
  rcases Build.fuelled_program ⟨⟨items'.filterMap Except.toOption, stop', t.reading.nextId,
    ParseState.mistakes items'⟩, t.arena⟩ with ⟨more, w, hmore, -, -⟩
  have hwhole : Build.fuelled Build.program ⟨⟨(items ++ items').filterMap Except.toOption, stop',
      a.expressions.size, ParseState.mistakes (items ++ items')⟩, a⟩ = .ok (is ++ more) w := by
    rw [List.filterMap_append, ParseState.mistakes_append, hmistakes]
    exact Build.program_behind ⟨_, _, _, hnoElse⟩ hrun hend herrors hmore
  have hscanAll : scan offset (xs ++ ys) = items ++ items' ++ [.ok (Token.endAt stop')] := by
    rw [scan_append ys hline (ParseState.not_error_mem_scan hscan hmistakes), hscan, hscan',
      List.dropLast_concat, List.append_assoc]
  have hb' : b = t.arena := hb
  rw [hnext] at hmore
  rw [readText_of_scan hscanAll hwhole, hb', readText_of_scan hscan' hmore]
  cases w.reading.errors <;> rfl

/-- What has been read without a mistake has handles, and they are roots. -/
theorem Takes.exists_of_ok {b : Arena} {reading : Reading} {ss : List Stmt}
    {result : Except (List SyntaxError) (List Index)} (h : a.Takes roots text reading b result)
    (hok : reading.outcome = .ok ss) :
    ∃ is, result = .ok is ∧ b.Forest (is.map .statement ++ roots) := by
  have hshows := h.shows
  rw [hok] at hshows
  cases result with
  | ok is => exact ⟨is, rfl, hshows.2⟩
  | error errors => exact hshows.elim

/-- A text of two parts is read into an arena as its first part and then its second part, if the first
part ends a line and neither has a mistake. -/
theorem readText_append (hbuilt : a.Built) (hforest : a.Forest roots)
    (hsmall : a.count + byteLength (xs ++ ys) < UInt32.size) (hline : EndsLine xs)
    {ss ss' : List Stmt} (hfirst : (Reading.ofText offset a.expressions.size xs).outcome = .ok ss)
    (hsecond : (Reading.ofText (offset + byteLength xs)
      (Reading.ofText offset a.expressions.size xs).nextId ys).outcome = .ok ss') :
    let b := (a.readText offset xs).1
    ∃ is is', (a.readText offset xs).2 = .ok is ∧
      (b.readText (offset + byteLength xs) ys).2 = .ok is' ∧
        a.readText offset (xs ++ ys) =
          ((b.readText (offset + byteLength xs) ys).1, .ok (is ++ is')) := by
  intro b
  rw [byteLength_append] at hsmall
  have htakes : a.Takes roots xs (.ofText offset a.expressions.size xs) b (a.readText offset xs).2 :=
    readText_agrees hbuilt hforest (by omega)
  rcases htakes.exists_of_ok hfirst with ⟨is, his, hforest'⟩
  have hcount := htakes.count
  have hnext : b.Takes (is.map .statement ++ roots) ys
      (.ofText (offset + byteLength xs) b.expressions.size ys)
      (b.readText (offset + byteLength xs) ys).1 (b.readText (offset + byteLength xs) ys).2 :=
    readText_agrees htakes.built hforest' (by omega)
  rw [htakes.size] at hnext
  rcases hnext.exists_of_ok hsecond with ⟨is', his', -⟩
  refine ⟨is, is', his, his', ?_⟩
  have hbehind : a.readText offset (xs ++ ys) =
      ((b.readText (offset + byteLength xs) ys).1,
        (b.readText (offset + byteLength xs) ys).2.map (is ++ ·)) :=
    readText_behind hbuilt hforest (by omega) hline his (Reading.head_ne_else hsecond)
  rw [hbehind, his']
  rfl

end Arena

end Lox
