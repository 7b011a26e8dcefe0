import Lox.Proofs.Scope.Places
import Lox.Proofs.Session.Blame
import Lox.Proofs.Spelling.Tree

/-!
# Names and places stay in step with the text

The texts of a session count as one, which grows, and so does the arena that they are read into. What a
node keeps of its text stays what is written there, and reports cite what is written in the text, also
when a function of an earlier text fails.

* `Session.Recorded` lists the texts that were read in a session, each with what stood before it.
* `Session.Recorded.record` is what reading one more text keeps.
* `Session.Recorded.cites` says where the problems of a text are.

Main statement: `Session.Recorded.in_step`.
-/

namespace Lox

/-- A text that was read in a session: what stood before it, the arena it was read into, and the
text. -/
structure Piece where
  before : List Char
  arena : Arena
  text : List Char

namespace Piece

/-- The tokens of the text, without the end of the input. -/
def tokens (p : Piece) : List Token :=
  textTokens (byteLength p.before) p.text

/-- The arena after the text was read. -/
def after (p : Piece) : Arena :=
  (p.arena.readText (byteLength p.before) p.text).1

/-- An expression was added while the text was read. -/
def Creates (p : Piece) (i : Index) : Prop :=
  p.arena.expressions.size ≤ i.toNat ∧ i.toNat < p.after.expressions.size

end Piece

theorem Span.Covers.excerpt_ne {place : Span} {text : List Char} (h : place.Covers text) :
    excerpt text place ≠ "" := by
  rcases h with ⟨covered, hslice, hsome⟩
  rw [excerpt, hslice, Option.getD_some]
  exact fun hempty => hsome (String.ofList_injective hempty)

namespace Session

/-- The texts that have led to a session, in order, and the arena. Every text is read into the arena,
also one that is rejected. -/
inductive Recorded : List Piece → Session → Arena → Prop
  | empty : Recorded [] .empty .empty
  | resetError {pieces : List Piece} {s : Session} {a : Arena} :
      Recorded pieces s a → Recorded pieces s.resetError a
  | run {pieces : List Piece} {s s' : Session} {a : Arena} {fuel : Nat}
      {clock : Nat → Except String Float} {text : List Char} {answer : Answer} :
      Recorded pieces s a → s.run? fuel clock text = some (s', answer) →
        Recorded (pieces ++ [⟨s.text, a, text⟩]) s' (a.readText (byteLength s.text) text).1

/-- What is known of the texts of a session and of the arena that they were read into: the names and the
places in the arena are those of the text. -/
structure Record (pieces : List Piece) (s : Session) (a : Arena) : Prop extends a.InStep s.text where
  /-- Every expression was added while one of the texts was read. -/
  created : ∀ n < a.expressions.size, ∃ i : Index, i.toNat = n ∧ ∃ p ∈ pieces, p.Creates i
  /-- It was read from tokens of that text, and is placed at one of them. -/
  written : ∀ p ∈ pieces, ∀ i, p.Creates i → a.WrittenIn p.tokens i
  /-- The nodes stay as they were when the text had been read. -/
  grows : ∀ p ∈ pieces, p.after.Grows a
  /-- The text stays where it was. -/
  stays : ∀ p ∈ pieces, p.before ++ p.text <+: s.text

variable {pieces : List Piece} {s s' : Session} {a : Arena} {fuel : Nat}
  {clock : Nat → Except String Float} {text : List Char} {answer : Answer}

theorem text_of_run? (h : s.run? fuel clock text = some (s', answer)) : s'.text = s.text ++ text := by
  rcases run?_cases h with ⟨-, rfl⟩ | ⟨_, _, _, _, -, -, rfl⟩ <;> rfl

theorem Recorded.stored (h : Recorded pieces s a) : ∃ runs roots, Stored runs roots s a := by
  induction h with
  | empty =>
      exact ⟨[], [], .empty⟩
  | resetError _ ih =>
      rcases ih with ⟨runs, roots, hstored⟩
      exact ⟨runs, roots, .resetError hstored⟩
  | run _ hrun ih =>
      rcases ih with ⟨runs, roots, hstored⟩
      exact ⟨_, _, .run hstored hrun⟩

/-! ## Nodes -/

theorem Record.empty : Record [] .empty .empty :=
  ⟨.empty _, nofun, nofun, nofun, nofun⟩

/-- One more text. -/
theorem Record.read {runs : List Run} {roots : List (List Index)} (h : Record pieces s a)
    (hkeep : Keep runs roots s a) (hsmall : byteLength (s.text ++ text) < UInt32.size)
    (hs' : s'.text = s.text ++ text) :
    Record (pieces ++ [⟨s.text, a, text⟩]) s' (a.readText (byteLength s.text) text).1 := by
  have hread := hkeep.read (fun _ => .error "") hsmall
  have hcount := hkeep.count
  have hcount' := hread.2.count
  change _ ≤ byteLength (s.text ++ text) at hcount'
  have hadds : Arena.AddsFrom (textTokens (byteLength s.text) text) a
      (a.readText (byteLength s.text) text).1 := by
    refine Arena.addsFrom_readText ?_
    rw [byteLength_append] at hsmall
    omega
  -- There are no more nodes than bytes, so every number of an expression is an index.
  have hsize : (a.readText (byteLength s.text) text).1.expressions.size < UInt32.size := by
    unfold Arena.count at hcount'
    omega
  refine ⟨?_, ?_, ?_, ?_, ?_⟩
  · rw [hs']
    exact h.toInStep.read hread.1 hadds (Nat.le_of_lt hsize)
  · intro n hn
    rcases Nat.lt_or_ge n a.expressions.size with hold | hnew
    · rcases h.created n hold with ⟨i, hi, p, hp, hcreates⟩
      exact ⟨i, hi, p, List.mem_append_left _ hp, hcreates⟩
    · have hindex : (UInt32.ofNat n).toNat = n := Arena.toNat_ofNat (Nat.lt_trans hn hsize)
      refine ⟨.ofNat n, hindex, _, List.mem_append_right _ List.mem_cons_self, ?_⟩
      rw [Piece.Creates, hindex]
      exact ⟨hnew, hn⟩
  · refine List.forall_mem_append.mpr ⟨?_, List.forall_mem_singleton.mpr ?_⟩
    · exact fun p hp i hcreates => (h.written p hp i hcreates).grows hread.1
    · exact fun i hcreates => hadds.expressions i hcreates.1 hcreates.2
  · refine List.forall_mem_append.mpr ⟨?_, List.forall_mem_singleton.mpr (.refl _)⟩
    exact fun p hp => (h.grows p hp).trans hread.1
  · rw [hs']
    refine List.forall_mem_append.mpr ⟨?_, List.forall_mem_singleton.mpr (List.prefix_refl _)⟩
    exact fun p hp => (h.stays p hp).trans (List.prefix_append _ _)

/-- Every session has such a record as long as the bytes of its texts can be counted. -/
theorem Recorded.record (h : Recorded pieces s a) (hsmall : byteLength s.text < UInt32.size) :
    Record pieces s a := by
  induction h with
  | empty =>
      exact .empty
  | resetError _ ih =>
      exact ⟨(ih hsmall).toInStep, (ih hsmall).created, (ih hsmall).written, (ih hsmall).grows,
        (ih hsmall).stays⟩
  | @run pieces s s' a fuel clock text answer hbefore hrun ih =>
      have htext := text_of_run? hrun
      rw [htext] at hsmall
      have hold : byteLength s.text < UInt32.size :=
        Nat.lt_of_le_of_lt (byteLength_le_append _ _) hsmall
      rcases hbefore.stored with ⟨runs, roots, hstored⟩
      exact (ih hold).read (hstored.keep hold) hsmall htext

/-! ## Problems -/

/-- What interpreting has to report is a fault, if anything. -/
theorem problems_of_interpret? {statements : List Stmt}
    (h : interpret? fuel clock statements s = some (s', answer)) : answer.problems = [] ∨
      ∃ fault m, answer.problems = [.fault fault] ∧
        (Eval.interpret s.globals statements).Ends (s.setting clock) s.machine (.error fault) m := by
  rw [interpret?_eq] at h
  cases hrun : (Eval.interpret s.globals statements (s.setting clock) s.machine).run
      (perform (s.setting clock) fuel) with
  | timeout =>
      rw [hrun] at h
      cases h
  | ended result m =>
      rw [hrun] at h
      cases result with
      | ok done =>
          cases h
          exact .inl rfl
      | error fault =>
          cases h
          exact .inr ⟨fault, m, rfl, fuel, hrun⟩

/-- A program that was read keeps places of the text, whether it is accepted or not. -/
theorem Keep.placed_of_read {runs : List Run} {roots : List (List Index)} (h : Keep runs roots s a)
    (hsmall : byteLength (s.text ++ text) < UInt32.size) {statements : List Stmt} {P : Span → Prop}
    (hread : (Reading.ofText (byteLength s.text) s.nextId text).outcome = .ok statements)
    (hP : ∀ place ∈ (a.readText (byteLength s.text) text).1.places, P place) :
    Stmt.PlacedIn P (Stmt.partsAll statements) := by
  have hcount := h.count
  rw [byteLength_append] at hsmall
  have htakes : a.Takes (roots.flatten.map .statement) text
      (.ofText (byteLength s.text) a.expressions.size text)
      (a.readText (byteLength s.text) text).1 (a.readText (byteLength s.text) text).2 :=
    Arena.readText_agrees h.stores.built h.stores.forest (by omega)
  rw [h.size] at htakes
  have hshows := htakes.shows
  rw [hread] at hshows
  cases hresult : (a.readText (byteLength s.text) text).2 with
  | error errors =>
      rw [hresult] at hshows
      exact hshows.elim
  | ok is =>
      rw [hresult] at hshows
      have hstores : (a.readText (byteLength s.text) text).1.Stores [statements] [is] := by
        refine ⟨htakes.built, .cons hshows.1 .nil, ?_⟩
        rw [List.flatten_singleton]
        exact hshows.2.sublist (List.sublist_append_left _ _)
      rw [← List.flatten_singleton (l := statements)]
      exact hstores.placed hP

/-- Every place that a problem cites is at characters of the text, or the text ends where it should not. -/
def CitedIn (text : List Char) (problem : Problem) : Prop :=
  ∀ place ∈ problem.notice.places, place.Covers text ∨
    (∃ e, problem = .grammar e) ∧ place = ⟨byteLength text, 0⟩

/-- The mistakes of a text that cannot be read. -/
theorem citedIn_of_read {before : List Char} {nextId : Nat} {errors : List SyntaxError} {e : SyntaxError}
    (hread : (Reading.ofText (byteLength before) nextId text).outcome = .error errors)
    (he : e ∈ errors) : CitedIn (before ++ text) (.grammar e) := by
  have hplace : e.span.Covers (before ++ text) ∨ (∃ e', Problem.grammar e = .grammar e') ∧
      e.span = ⟨byteLength (before ++ text), 0⟩ :=
    (Reading.covers_error hread he).imp_right fun hend => ⟨⟨e, rfl⟩, hend⟩
  exact List.forall_mem_cons.mpr ⟨hplace, List.forall_mem_singleton.mpr hplace⟩

/-- The problems for which a text is rejected. -/
theorem Keep.citedIn_of_chunk {runs : List Run} {roots : List (List Index)} (h : Keep runs roots s a)
    (hsmall : byteLength (s.text ++ text) < UInt32.size) {problems : List Problem}
    (hchunk : (s.chunk text).outcome = .error problems)
    (hcovers : ∀ place ∈ (a.readText (byteLength s.text) text).1.places,
      place.Covers (s.text ++ text)) :
    ∀ problem ∈ problems, CitedIn (s.text ++ text) problem := by
  unfold chunk Chunk.ofText at hchunk
  dsimp only at hchunk
  intro problem hproblem
  cases hread : (Reading.ofText (byteLength s.text) s.nextId text).outcome with
  | error errors =>
      rw [hread] at hchunk
      cases hchunk
      rcases List.mem_map.mp hproblem with ⟨e, he, rfl⟩
      exact citedIn_of_read hread he
  | ok statements =>
      rw [hread] at hchunk
      cases hresolve : resolveProgram statements with
      | ok locals =>
          simp only [hresolve] at hchunk
          cases hchunk
      | error errors =>
          simp only [hresolve] at hchunk
          cases hchunk
          rcases List.mem_map.mp hproblem with ⟨e, he, rfl⟩
          have hplaced := h.placed_of_read hsmall hread hcovers
          exact fun place hplace => .inl (resolveProgram_places hresolve hplaced e he place hplace)

/-- The fault that stops a text. The function that fails may be one of an earlier text. -/
theorem Stored.citedIn_of_fault {runs : List Run} {roots : List (List Index)} (h : Stored runs roots s a)
    (hsmall : byteLength (s.text ++ text) < UInt32.size) {r : Run} {fault : Fault} {m : Machine}
    (hr : s.running? clock text = some r) (hends : r.course.Ends r.setting (.error fault) m)
    (hcovers : ∀ place ∈ (a.readText (byteLength s.text) text).1.places,
      place.Covers (s.text ++ text)) : CitedIn (s.text ++ text) (.fault fault) := by
  have hold : byteLength s.text < UInt32.size :=
    Nat.lt_of_le_of_lt (byteLength_le_append _ _) hsmall
  have hread := ((h.keep hold).read clock hsmall).2
  rw [hr, Option.toList_some] at hread
  have hplace := h.history.fault_place hr (hread.stores.placed hcovers) hends
  exact List.forall_mem_cons.mpr ⟨.inl hplace, List.forall_mem_singleton.mpr (.inl hplace)⟩

/-- All problems of a text. -/
theorem Recorded.cites (h : Recorded pieces s a) (hrun : s.run? fuel clock text = some (s', answer))
    (hsmall : byteLength s'.text < UInt32.size) :
    ∀ problem ∈ answer.problems, CitedIn s'.text problem := by
  have hcovers := ((h.run hrun).record hsmall).places
  rw [text_of_run? hrun] at hsmall hcovers ⊢
  rcases h.stored with ⟨runs, roots, hstored⟩
  cases hchunk : (s.chunk text).outcome with
  | error problems =>
      rw [run?_of_error hchunk] at hrun
      cases hrun
      have hold : byteLength s.text < UInt32.size :=
        Nat.lt_of_le_of_lt (byteLength_le_append _ _) hsmall
      exact (hstored.keep hold).citedIn_of_chunk hsmall hchunk hcovers
  | ok accepted =>
      rcases accepted with ⟨statements, locals⟩
      rw [run?_of_ok hchunk] at hrun
      have hrunning : s.running? clock text =
          some ⟨⟨s.locals ++ locals, s.globals, clock⟩, s.machine, statements⟩ := by
        rw [running?, hchunk]
      rcases problems_of_interpret? hrun with hnone | ⟨fault, m, hfault, hends⟩
      · rw [hnone]
        exact List.forall_mem_nil _
      · rw [hfault]
        exact List.forall_mem_singleton.mpr
          (hstored.citedIn_of_fault hsmall hrunning hends hcovers)

/-! ## Sessions -/

/-- A token of a text is still written where it was. -/
theorem Record.slice {p : Piece} {t : Token} (h : Record pieces s a) (hp : p ∈ pieces)
    (ht : t ∈ p.tokens) : slice? s.text t.span = some t.lexeme.toList := by
  rcases h.stays p hp with ⟨more, htext⟩
  rw [← htext]
  exact slice?_append more (written_textTokens p.before p.text t ht).slice

/-- In a session of less than 2 ^ 32 bytes what the nodes keep of the texts is what is written there:
every name is found at its place, `return` at the place of its keyword, and every expression, whichever
text it was read from, is placed at a token of that text. Whatever a text has to report next cites places
between characters, with something to show there, unless the text ended too early. -/
theorem Recorded.in_step (h : Recorded pieces s a) (hsmall : byteLength s.text < UInt32.size) :
    Record pieces s a ∧
    (∀ p ∈ pieces, ∀ i, p.Creates i → ∃ t ∈ p.tokens,
      (a.expressions[i.toNat]?).map ExprEntry.span = some t.span ∧
        slice? s.text t.span = some t.lexeme.toList) ∧
    ∀ fuel clock text s' answer, s.run? fuel clock text = some (s', answer) →
      byteLength s'.text < UInt32.size →
        ∀ problem ∈ answer.problems, ∀ place ∈ problem.notice.places,
          (∃ covered, slice? s'.text place = some covered) ∧
            (excerpt s'.text place = "" →
              (∃ e, problem = .grammar e) ∧ place = ⟨byteLength s'.text, 0⟩) := by
  have hrecord := h.record hsmall
  refine ⟨hrecord, ?_, ?_⟩
  · intro p hp i hcreates
    rcases (hrecord.written p hp i hcreates).placed with ⟨entry, hentry, hspan, -⟩
    rcases List.mem_map.mp hspan with ⟨t, ht, heq⟩
    refine ⟨t, ht, ?_, hrecord.slice hp ht⟩
    rw [hentry, heq]
    rfl
  · intro fuel clock text s' answer hrun hsmall' problem hproblem place hplace
    rcases h.cites hrun hsmall' problem hproblem place hplace with hcovers | ⟨hgrammar, rfl⟩
    · have hslice := hcovers
      rcases hslice with ⟨covered, hslice, -⟩
      exact ⟨⟨covered, hslice⟩, fun hempty => absurd hempty hcovers.excerpt_ne⟩
    · have hend := slice?_middle s'.text [] []
      rw [List.append_nil, List.append_nil] at hend
      exact ⟨⟨[], hend⟩, fun _ => ⟨hgrammar, rfl⟩⟩

/-- A function that an earlier text has declared fails at the variable that it reads. -/
theorem in_step_failing :
    ∃ s answer s' answer',
      Session.empty.run? 9 (fun _ => .error "no clock") "fun f()\x7breturn a;\x7d".toList =
          some (s, answer) ∧
        s.run? 9 (fun _ => .error "no clock") "f();".toList = some (s', answer') ∧
          answer'.problems.map (fun problem => problem.notice.span) = [⟨15, 1⟩] ∧
            excerpt s'.text ⟨15, 1⟩ ≠ "" := by
  have hruns : ((Session.empty.run? 9 (fun _ => .error "no clock")
      "fun f()\x7breturn a;\x7d".toList).bind fun first =>
        (first.1.run? 9 (fun _ => .error "no clock") "f();".toList).map fun second =>
          second.2.problems.map fun problem => problem.notice.span) = some [⟨15, 1⟩] := by
    decide +kernel
  rcases Option.bind_eq_some_iff.mp hruns with ⟨⟨s, answer⟩, hfirst, hsecond⟩
  rcases Option.map_eq_some_iff.mp hsecond with ⟨⟨s', answer'⟩, hsecond, hspans⟩
  refine ⟨s, answer, s', answer', hfirst, hsecond, hspans, ?_⟩
  have hmem : (⟨15, 1⟩ : Span) ∈ answer'.problems.map fun problem => problem.notice.span := by
    rw [hspans]
    exact List.mem_cons_self
  rcases List.mem_map.mp hmem with ⟨problem, hproblem, hspan⟩
  have hplace : (⟨15, 1⟩ : Span) ∈ problem.notice.places := by
    rw [← hspan]
    exact List.mem_cons_self
  have hsmall : byteLength s.text < UInt32.size := by
    rw [text_of_run? hfirst]
    decide
  have hsmall' : byteLength s'.text < UInt32.size := by
    rw [text_of_run? hsecond, text_of_run? hfirst]
    decide
  have hcites := ((Recorded.run .empty hfirst).in_step hsmall).2.2 _ _ _ _ _ hsecond hsmall'
  intro hempty
  rcases (hcites problem hproblem _ hplace).2 hempty with ⟨-, hend⟩
  exact Nat.one_ne_zero (congrArg Span.length hend)

end Session

end Lox
