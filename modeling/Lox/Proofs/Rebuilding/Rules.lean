import Lox.Arena.Expression
import Lox.Proofs.Rereading.Text

/-!
# Reading into an arena once more

What is added to an arena depends on the tokens only as far as they are read. If a text is read into
an arena once more, with more tokens behind it, then a complete statement adds the nodes that it added
before, under the same indices.

`Build.Repeats` compares two steps of reading into an arena. A step that makes no node has the rule
that it has where trees are read; there is one rule for each step that makes a node and for each way to
put steps together.
-/

namespace Lox

/-- What follows some tokens when they are read once more: the tokens `behind`, up to byte `stop`. The
mistakes `recorded` stand before theirs. -/
structure Sequel where
  recorded : List SyntaxError
  behind : List Token
  stop : Nat
  /-- What stands behind does not go on an `if`. -/
  noElse : ∀ t ∈ behind.head?, t.kind ≠ .keyword .else

namespace Sequel

/-- Reading once more with a sequel. Numbers and places are as before. -/
def rereading (k : Sequel) : Rereading :=
  { Rereading.same k.stop with
    recorded := k.recorded
    behind := k.behind
    whole := False
    noElse := k.noElse
    nothing := False.elim }

/-- The second state is the first one, read once more with a sequel, with the same nodes. -/
structure Matches (k : Sequel) (b b' : BuildState) : Prop where
  reading : k.rereading.Matches b.reading b'.reading
  arena : b'.arena = b.arena

variable {k : Sequel}

theorem exists_matches (k : Sequel) (b : BuildState) : ∃ b', k.Matches b b' := by
  rcases Rereading.exists_matches (k := k.rereading) id b.reading with ⟨s', hs⟩
  exact ⟨⟨s', b.arena⟩, hs, rfl⟩

end Sequel

namespace Build

variable {α β : Type} {k : Sequel} {hand : Prop} {n u v : Nat} {c d : Bool}

/-- What is added the second time is what was added the first time. -/
def Agree (k : Sequel) (u : Nat) (c : Bool) (b : BuildState)
    (r r' : EStateM.Result SyntaxError BuildState α) : Prop :=
  match r with
  | .ok a t => b.reading.Passes u t.reading ∧
      (k.rereading.Settles c t.reading → ∃ t', r' = .ok a t' ∧ k.Matches t t')
  | .error _ t => b.reading.Passes 0 t.reading

/-- Two steps add the same if at most `n` tokens are left. If `hand` holds, a token has to be at hand.
If there is a result, `u` tokens at least are used up. -/
def Repeats (k : Sequel) (hand : Prop) (n u : Nat) (c : Bool) (q q' : Build α) : Prop :=
  ∀ b b', k.Matches b b' → b.reading.rest.length ≤ n → (hand → b.reading.rest ≠ []) →
    Agree k u c b (q b) (q' b')

section Rules

variable {q q' : Build α}

theorem Repeats.pure (a : α) : Repeats k hand n 0 c (pure a) (pure a) := by
  intro b b' hb _ _
  exact ⟨.refl b.reading, fun _ => ⟨b', rfl, hb⟩⟩

/-- A step that makes no node. -/
theorem Repeats.read {p : Parse α} {g : α → α}
    (hp : Parse.Repeats k.rereading hand n u c g p p) (hg : ∀ a, g a = a) :
    Repeats k hand n u c (read p) (read p) := by
  intro b b' hb hn hhand
  have hagree := hp b.reading b'.reading hb.reading (Nat.zero_le _) hn hhand
  unfold Build.read
  revert hagree
  cases p b.reading with
  | ok a t =>
      rintro ⟨hpasses, hsecond⟩
      refine ⟨hpasses, ?_⟩
      intro hsettles
      rcases hsecond hsettles with ⟨t', hrun, ht⟩
      rw [hrun, hg]
      exact ⟨_, rfl, ht, hb.arena⟩
  | error e t =>
      rintro ⟨hpasses, -⟩
      exact hpasses

/-- Less may be known of a step. -/
theorem Repeats.less (hq : Repeats k hand n u c q q') (hv : v ≤ u) :
    Repeats k hand n v c q q' := by
  intro b b' hb hn hhand
  have hagree := hq b b' hb hn hhand
  revert hagree
  cases q b with
  | ok a t =>
      rintro ⟨hpasses, hsecond⟩
      exact ⟨hpasses.less hv, hsecond⟩
  | error e t =>
      exact id

/-- What is known of a step in a closed state is known of it if a token is left. -/
theorem Repeats.ofClosed (hq : Repeats k hand n u true q q') : Repeats k hand n u c q q' := by
  intro b b' hb hn hhand
  have hagree := hq b b' hb hn hhand
  revert hagree
  cases q b with
  | ok a t =>
      rintro ⟨hpasses, hsecond⟩
      exact ⟨hpasses, fun hsettles => hsecond (hsettles.imp_right fun h => ⟨h.1, .inl rfl⟩)⟩
  | error e t =>
      exact id

/-- One step and then another. The result of the first one can show that a token is at hand. -/
theorem Repeats.bindSeen {f f' : α → Build β} {seen : α → Prop} (hq : Repeats k hand n u c q q')
    (hseen : ∀ b a t, q b = .ok a t → seen a → t.reading.rest ≠ [])
    (hc : (c || !d || decide (0 < v - u)) = true)
    (hf : ∀ m a, m + u = n → Repeats k (seen a) m (v - u) d (f a) (f' a)) :
    Repeats k hand n v d (q >>= f) (q' >>= f') := by
  intro b b' hb hn hhand
  have hfirst := hq b b' hb hn hhand
  change Agree k v d b (EStateM.bind q f b) (EStateM.bind q' f' b')
  unfold EStateM.bind
  cases hrun : q b with
  | error e t =>
      rw [hrun] at hfirst
      exact hfirst
  | ok a t =>
      rw [hrun] at hfirst
      rcases hfirst with ⟨hpasses, hsecond⟩
      have hlength := hpasses.length
      have hrest : ∀ t', k.Matches t t' → Agree k (v - u) d t (f a t) (f' a t') := by
        intro t' ht
        exact hf (n - u) a (by omega) t t' ht (by omega) (hseen b a t hrun)
      dsimp only
      by_cases hsettles : k.rereading.Settles c t.reading
      · -- The first steps end in states that match, so the second steps can be compared.
        rcases hsecond hsettles with ⟨t', hrun', ht⟩
        rw [hrun']
        have hagree := hrest t' ht
        revert hagree
        dsimp only
        cases f a t with
        | ok x w =>
            rintro ⟨hpasses', hthird⟩
            exact ⟨(hpasses.trans hpasses').less (by omega), hthird⟩
        | error e w =>
            intro hpasses'
            exact (hpasses.trans hpasses').less (Nat.zero_le _)
      · -- The end was seen already, so nothing is claimed of what is read in the second state.
        rcases k.exists_matches t with ⟨t', ht⟩
        have hagree := hrest t' ht
        revert hagree
        cases f a t with
        | ok x w =>
            rintro ⟨hpasses', -⟩
            refine ⟨(hpasses.trans hpasses').less (by omega), ?_⟩
            intro hw
            exact absurd (hw.before hpasses' hc) hsettles
        | error e w =>
            intro hpasses'
            exact (hpasses.trans hpasses').less (Nat.zero_le _)

theorem Repeats.bind {f f' : α → Build β} (hq : Repeats k hand n u c q q')
    (hc : (c || !d || decide (0 < v - u)) = true)
    (hf : ∀ m a, m + u = n → Repeats k False m (v - u) d (f a) (f' a)) :
    Repeats k hand n v d (q >>= f) (q' >>= f') :=
  hq.bindSeen (fun _ _ _ _ => False.elim) hc hf

theorem Repeats.map (f : α → β) (hq : Repeats k hand n u c q q') :
    Repeats k hand n u c (f <$> q) (f <$> q') := by
  rw [map_eq_pure_bind, map_eq_pure_bind]
  refine hq.bind ?_ ?_
  · cases c <;> rfl
  · intro m a _
    rw [Nat.sub_self]
    exact .pure (f a)

theorem Repeats.ite {p p' : Build α} {x : Bool} (hq : x = true → Repeats k hand n v c q q')
    (hp : x = false → Repeats k hand n v c p p') :
    Repeats k hand n v c (if x then q else p) (if x then q' else p') := by
  cases x with
  | false => exact hp rfl
  | true => exact hq rfl

end Rules

/-! ## Single tokens -/

section Tokens

theorem repeats_fail (cause : SyntaxCause) :
    Repeats k hand n v c (read (Parse.fail cause) : Build α) (read (Parse.fail cause)) :=
  .read (g := id) (Parse.repeats_fail cause) fun _ => rfl

theorem repeats_advance (hhand : hand) :
    Repeats k hand n 1 true (read Parse.advance) (read Parse.advance) :=
  .read (Parse.repeats_advance hhand) fun _ => rfl

theorem repeats_expect {kind : Kind} (hkind : kind ≠ .eof) (what : Expectation) :
    Repeats k hand n 1 true (read (Parse.expect kind what)) (read (Parse.expect kind what)) :=
  .read (Parse.repeats_expect hkind what) fun _ => rfl

theorem repeats_ident (what : Expectation) :
    Repeats k hand n 1 true (read (Parse.ident what)) (read (Parse.ident what)) :=
  .read (Parse.repeats_ident what) fun _ => rfl

theorem repeats_record (cause : SyntaxCause) (place : Span) :
    Repeats k hand n 0 true (read (Parse.record cause place)) (read (Parse.record cause place)) :=
  .read (Parse.repeats_record cause rfl) fun _ => rfl

theorem repeats_limit (cause : SyntaxCause) (count : Nat) :
    Repeats k hand n 0 true (read (Parse.limit cause count)) (read (Parse.limit cause count)) :=
  .read (Parse.repeats_limit cause count) fun _ => rfl

theorem repeats_peek : Repeats k hand n 0 false (read Parse.peek) (read Parse.peek) :=
  .read Parse.repeats_peek fun _ => rfl

theorem repeats_check (kind : Kind) :
    Repeats k hand n 0 false (read (Parse.check kind)) (read (Parse.check kind)) :=
  .read (Parse.repeats_check kind) fun _ => rfl

theorem repeats_atEnd : Repeats k hand n 0 false (read Parse.atEnd) (read Parse.atEnd) :=
  .read Parse.repeats_atEnd fun _ => rfl

theorem repeats_accept {kind : Kind} (hkind : kind ≠ .eof) :
    Repeats k hand n 0 false (read (Parse.accept kind)) (read (Parse.accept kind)) :=
  .read (Parse.repeats_accept hkind) fun _ => rfl

/-- What stands behind does not begin with `else`, so nothing of it is seen here. -/
theorem repeats_accept_else : Repeats k hand n 0 true (read (Parse.accept (.keyword .else)))
    (read (Parse.accept (.keyword .else))) :=
  .read Parse.repeats_accept_else fun _ => rfl

/-- What the result of a step that makes no node shows of the token at hand. -/
theorem seen_read {p : Parse α} {seen : α → Prop}
    (hp : ∀ s a t, p s = .ok a t → seen a → t.rest ≠ []) (b : BuildState) (a : α) (t : BuildState) :
    read p b = .ok a t → seen a → t.reading.rest ≠ [] := by
  unfold read
  cases hrun : p b.reading with
  | ok a' s =>
      intro heq
      cases heq
      exact hp b.reading a s hrun
  | error e s =>
      intro heq
      cases heq

end Tokens

/-! ## Nodes -/

theorem repeats_pushExpression (node : ExprNode) (span : Span) :
    Repeats k hand n 0 true (pushExpression node span) (pushExpression node span) := by
  intro b b' hb _ _
  refine ⟨.number b.reading, ?_⟩
  intro _
  unfold pushExpression
  rw [hb.arena]
  exact ⟨_, rfl, hb.reading.number (Nat.zero_le _), rfl⟩

theorem repeats_pushStatement (node : StmtNode) :
    Repeats k hand n 0 true (pushStatement node) (pushStatement node) := by
  intro b b' hb _ _
  refine ⟨.refl b.reading, ?_⟩
  intro _
  unfold pushStatement
  rw [hb.arena]
  exact ⟨_, rfl, hb.reading, rfl⟩

theorem repeats_pushFunction (routine : Routine Index) :
    Repeats k hand n 0 true (pushFunction routine) (pushFunction routine) := by
  intro b b' hb _ _
  refine ⟨.refl b.reading, ?_⟩
  intro _
  unfold pushFunction
  rw [hb.arena]
  exact ⟨_, rfl, hb.reading, rfl⟩

/-- The nodes are the same, so an index finds the same node. -/
theorem repeats_expression? (i : Index) :
    Repeats k hand n 0 true (expression? i) (expression? i) := by
  intro b b' hb _ _
  refine ⟨.refl b.reading, ?_⟩
  intro _
  unfold expression?
  rw [hb.arena]
  exact ⟨b', rfl, hb⟩

/-! ## Steps that contain steps -/

section Steps

variable {q q' : Build α}

theorem Repeats.behind {kind : Kind} (hc : (c || !d) = true)
    (haccept : Repeats k hand n 0 c (Build.read (Parse.accept kind))
      (Build.read (Parse.accept kind)))
    (hq : Repeats k False n 0 d q q') :
    Repeats k hand n 0 d (behind kind q) (behind kind q') := by
  refine haccept.bind (by simp [hc]) ?_
  intro m x hm
  rw [Nat.add_zero] at hm
  subst hm
  refine .ite ?_ ?_
  · intro _
    exact hq.map some
  · intro _
    exact .pure none

theorem Repeats.unlessAt {kind : Kind} (hq : Repeats k False n 0 false q q') :
    Repeats k hand n 0 false (unlessAt kind q) (unlessAt kind q') := by
  refine (repeats_check kind).bind rfl ?_
  intro m x hm
  rw [Nat.add_zero] at hm
  subst hm
  refine .ite ?_ ?_
  · intro _
    exact .pure none
  · intro _
    exact hq.map some

/-- After a mistake at least one token is dropped, and the state does not settle any more. -/
theorem Repeats.recover (hhand : hand) (hq : Repeats k hand n 1 true q q') :
    Repeats k hand n 1 true (recover q) (recover q') := by
  intro b b' hb hn hrest
  have hagree := hq b b' hb hn hrest
  unfold Build.recover
  revert hagree
  cases q b with
  | ok a t =>
      rintro ⟨hpasses, hsecond⟩
      refine ⟨hpasses, ?_⟩
      intro hsettles
      rcases hsecond hsettles with ⟨t', hrun, ht⟩
      rw [hrun]
      exact ⟨t', rfl, ht⟩
  | error e t =>
      intro hpasses
      have hlength := hpasses.length
      have hdropped := (t.reading.record e).length_synchronize
      have hpos : 0 < b.reading.rest.length := List.length_pos_iff.mpr (hrest hhand)
      have herrors : (t.reading.record e).synchronize.errors ≠ [] := by
        unfold ParseState.synchronize
        split <;> simp [ParseState.record]
      refine ⟨⟨?_, ?_, fun hnone => absurd hnone herrors⟩, ?_⟩
      · change (t.reading.record e).synchronize.rest.length + 1 ≤ _
        change _ ≤ t.reading.rest.length - 1 at hdropped
        omega
      · change b.reading.nextId ≤ (t.reading.record e).synchronize.nextId
        rw [ParseState.nextId_synchronize]
        exact hpasses.nextId
      · intro hsettles
        exact absurd (hsettles.resolve_left id).1 herrors

/-- With so much fuel it makes no difference how much there is. -/
theorem Repeats.fuelled {step step' : Nat → Build α}
    (h : ∀ m fuel fuel', 8 * m + 8 ≤ min fuel fuel' → m ≤ n →
      Repeats k hand m v c (step fuel) (step' fuel')) :
    Repeats k hand n v c (fuelled step) (fuelled step') := by
  intro b b' hb hn hhand
  -- Each reading takes its fuel from the tokens it has; the second one has no fewer.
  have hlength : b.reading.rest.length ≤ b'.reading.rest.length := by
    simp [hb.reading.rest]
  refine h b.reading.rest.length b.reading.fuel b'.reading.fuel ?_ hn b b' hb (Nat.le_refl _) hhand
  simp only [ParseState.fuel]
  omega

end Steps

end Build

end Lox
