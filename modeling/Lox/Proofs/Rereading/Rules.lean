import Lox.Proofs.Relabel.Token
import Lox.Syntax.Parse

/-!
# Reading once more

What reading gives depends on the tokens only as far as they are read. If a text is read once more,
with other numbers and places and with more tokens behind it, then a complete statement reads as it
did before.

`Parse.Repeats` compares two steps of reading. There is one rule for each step and for each way to put
steps together.
-/

namespace Lox

/-- How tokens are read once more: with other numbers and places, with the mistakes `recorded` before
them, with the tokens `behind` behind them, and up to byte `stop`. If they are read as a `whole`, there
are none behind them, and the end is at the place that corresponds to the end before. -/
structure Rereading where
  change : Relabel
  recorded : List SyntaxError
  behind : List Token
  stop : Nat
  whole : Prop
  low : Nat
  /-- Numbers that are not below `low` are given in the same order. -/
  number_succ : ∀ n, low ≤ n → change.number (n + 1) = change.number n + 1
  /-- What stands behind does not go on an `if`. -/
  noElse : ∀ t ∈ behind.head?, t.kind ≠ .keyword .else
  nothing : whole → behind = []

namespace Rereading

/-- The second state is the first one, read once more. -/
structure Matches (k : Rereading) (s s' : ParseState) : Prop where
  rest : s'.rest = s.rest.map (Token.relabel k.change) ++ k.behind
  nextId : s'.nextId = k.change.number s.nextId
  errors : s'.errors = k.recorded ++ s.errors.map (SyntaxError.relabel k.change)
  finish : s'.finish = k.stop
  stop : k.whole → k.change.place ⟨s.finish, 0⟩ = ⟨k.stop, 0⟩

/-- Nothing of what stands behind has been seen when reading comes to this state without mistakes. -/
def Settles (k : Rereading) (closed : Bool) (s : ParseState) : Prop :=
  k.whole ∨ s.errors = [] ∧ (closed = true ∨ s.rest ≠ [])

variable {k : Rereading} {s s' : ParseState}

/-- The token at hand is the same, if there is one. -/
theorem Matches.current (h : k.Matches s s') (hrest : k.whole ∨ s.rest ≠ []) :
    s'.current = s.current.relabel k.change := by
  unfold ParseState.current
  rw [h.rest]
  cases hs : s.rest with
  | cons t ts =>
      rfl
  | nil =>
      -- At the end of a whole text the token at hand is the end of the input.
      have hwhole : k.whole := hrest.resolve_right fun hne => hne hs
      rw [k.nothing hwhole]
      simp only [List.map_nil, List.append_nil, List.headD_nil, Token.endAt, Token.relabel,
        h.finish, h.stop hwhole]

theorem Matches.next (h : k.Matches s s') (hrest : s.rest ≠ []) : k.Matches s.next s'.next := by
  refine ⟨?_, h.nextId, h.errors, h.finish, h.stop⟩
  change s'.rest.tail = s.rest.tail.map (Token.relabel k.change) ++ k.behind
  rw [h.rest]
  cases hs : s.rest with
  | nil =>
      exact absurd hs hrest
  | cons t ts =>
      rfl

theorem Matches.record (h : k.Matches s s') (e : SyntaxError) :
    k.Matches (s.record e) (s'.record (e.relabel k.change)) := by
  refine ⟨h.rest, h.nextId, ?_, h.finish, h.stop⟩
  simp [ParseState.record, h.errors]

theorem Matches.number (h : k.Matches s s') (hlow : k.low ≤ s.nextId) :
    k.Matches { s with nextId := s.nextId + 1 } { s' with nextId := s'.nextId + 1 } := by
  refine ⟨h.rest, ?_, h.errors, h.finish, h.stop⟩
  simp only [h.nextId, k.number_succ s.nextId hlow]

theorem resume_relabel (f : Relabel) (previous : Token) (ts : List Token) :
    ParseState.resume (previous.relabel f) (ts.map (Token.relabel f)) =
      (ParseState.resume previous ts).map (Token.relabel f) := by
  induction ts generalizing previous with
  | nil =>
      rfl
  | cons t ts ih =>
      simp only [ParseState.resume, List.map_cons, ih]
      rw [show (previous.relabel f).kind = previous.kind from rfl,
        show (t.relabel f).kind = t.kind from rfl]
      split <;> rfl

/-- After a mistake reading goes on at the same token. -/
theorem Matches.synchronize (h : k.Matches s s') (hwhole : k.whole) :
    k.Matches s.synchronize s'.synchronize := by
  have hrest := h.rest
  rw [k.nothing hwhole, List.append_nil] at hrest
  unfold ParseState.synchronize
  cases hs : s.rest with
  | nil =>
      rw [hrest, hs]
      exact h
  | cons t ts =>
      rw [hrest, hs]
      refine ⟨?_, h.nextId, h.errors, h.finish, h.stop⟩
      rw [k.nothing hwhole, List.append_nil]
      exact resume_relabel k.change t ts

end Rereading

theorem ParseState.length_resume (previous : Token) (ts : List Token) :
    (resume previous ts).length ≤ ts.length := by
  induction ts generalizing previous with
  | nil =>
      exact Nat.le_refl 0
  | cons t ts ih =>
      unfold resume
      split
      · exact Nat.le_refl _
      · exact Nat.le_succ_of_le (ih t)

theorem ParseState.length_synchronize (s : ParseState) :
    s.synchronize.rest.length ≤ s.rest.length - 1 := by
  unfold synchronize
  cases hs : s.rest with
  | nil =>
      simp [hs]
  | cons t ts =>
      exact length_resume t ts

/-- Reading goes on from the first state to the second and uses up `u` tokens at least. No number is
given back, and no mistake is taken back. -/
structure ParseState.Passes (u : Nat) (s t : ParseState) : Prop where
  length : t.rest.length + u ≤ s.rest.length
  nextId : s.nextId ≤ t.nextId
  errors : t.errors = [] → s.errors = []

namespace ParseState.Passes

variable {u v : Nat} {s t w : ParseState}

theorem refl (s : ParseState) : Passes 0 s s :=
  ⟨Nat.le_refl _, Nat.le_refl _, id⟩

theorem trans (h : Passes u s t) (h' : Passes v t w) : Passes (u + v) s w := by
  have hlength := h.length
  have hlength' := h'.length
  exact ⟨by omega, Nat.le_trans h.nextId h'.nextId, fun hnone => h.errors (h'.errors hnone)⟩

theorem less (h : Passes u s t) (hv : v ≤ u) : Passes v s t :=
  ⟨Nat.le_trans (Nat.add_le_add_left hv _) h.length, h.nextId, h.errors⟩

theorem next (hrest : s.rest ≠ []) : Passes 1 s s.next := by
  refine ⟨?_, Nat.le_refl _, id⟩
  have hpos : 0 < s.rest.length := List.length_pos_iff.mpr hrest
  simp only [ParseState.next, List.length_tail]
  omega

theorem number (s : ParseState) : Passes 0 s { s with nextId := s.nextId + 1 } :=
  ⟨Nat.le_refl _, Nat.le_succ _, id⟩

theorem record (s : ParseState) (e : SyntaxError) : Passes 0 s (s.record e) := by
  refine ⟨Nat.le_refl _, Nat.le_refl _, ?_⟩
  simp [ParseState.record]

end ParseState.Passes

namespace Rereading

variable {k : Rereading} {s t : ParseState} {u : Nat} {c d : Bool}

/-- If a step ends in a closed state, or if it needs a token to be left, then the state before it is
closed as well, or a token is left there. -/
theorem Settles.before (ht : k.Settles d t) (hpasses : s.Passes u t)
    (hc : (c || !d || decide (0 < u)) = true) : k.Settles c s := by
  refine ht.imp_right ?_
  intro hpost
  rcases hpost with ⟨hnone, hrest⟩
  refine ⟨hpasses.errors hnone, ?_⟩
  cases c with
  | true =>
      exact .inl rfl
  | false =>
      refine .inr ?_
      intro hnil
      -- If no token is left before the step, none is left behind it and none was used up.
      have hlength := hpasses.length
      rw [hnil, List.length_nil] at hlength
      have hempty : t.rest = [] := List.eq_nil_of_length_eq_zero (by omega)
      rcases hrest with rfl | hrest
      · have hu : 0 < u := by simpa using hc
        omega
      · exact hrest hempty

/-- If tokens are not read as a whole, every state can be read once more. -/
theorem exists_matches (hwhole : ¬k.whole) (s : ParseState) : ∃ s', k.Matches s s' :=
  ⟨⟨s.rest.map (Token.relabel k.change) ++ k.behind, k.stop, k.change.number s.nextId,
    k.recorded ++ s.errors.map (SyntaxError.relabel k.change)⟩, rfl, rfl, rfl, rfl,
    fun h => absurd h hwhole⟩

end Rereading

namespace Parse

variable {α β γ δ : Type} {k : Rereading} {hand : Prop} {n u v : Nat} {c d : Bool}

/-- What is read the second time is what was read the first time. -/
def Agree (k : Rereading) (u : Nat) (c : Bool) (g : α → β) (s : ParseState)
    (r : EStateM.Result SyntaxError ParseState α) (r' : EStateM.Result SyntaxError ParseState β) :
    Prop :=
  match r with
  | .ok a t => s.Passes u t ∧ (k.Settles c t → ∃ t', r' = .ok (g a) t' ∧ k.Matches t t')
  | .error e t =>
      s.Passes 0 t ∧ (k.whole → ∃ t', r' = .error (e.relabel k.change) t' ∧ k.Matches t t')

/-- Two steps read the same if at most `n` tokens are left. If `hand` holds, a token has to be at
hand. If there is a result, `u` tokens at least are used up. -/
def Repeats (k : Rereading) (hand : Prop) (n u : Nat) (c : Bool) (g : α → β) (p : Parse α)
    (p' : Parse β) : Prop :=
  ∀ s s', k.Matches s s' → k.low ≤ s.nextId → s.rest.length ≤ n → (hand → s.rest ≠ []) →
    Agree k u c g s (p s) (p' s')

section Rules

variable {g : α → β} {h : γ → δ} {p : Parse α} {p' : Parse β}

theorem Repeats.pure {a : α} {b : β} (hab : b = g a) :
    Repeats k hand n 0 c g (pure a) (pure b) := by
  intro s s' hs _ _ _
  subst hab
  exact ⟨.refl s, fun _ => ⟨s', rfl, hs⟩⟩

/-- Less may be known of a step. -/
theorem Repeats.less (hp : Repeats k hand n u c g p p') (hv : v ≤ u) :
    Repeats k hand n v c g p p' := by
  intro s s' hs hlow hn hhand
  have hagree := hp s s' hs hlow hn hhand
  revert hagree
  cases p s with
  | ok a t =>
      intro hagree
      exact ⟨hagree.1.less hv, hagree.2⟩
  | error e t =>
      intro hagree
      exact hagree

/-- What is known of a step in a closed state is known of it if a token is left. -/
theorem Repeats.ofClosed (hp : Repeats k hand n u true g p p') :
    Repeats k hand n u c g p p' := by
  intro s s' hs hlow hn hhand
  have hagree := hp s s' hs hlow hn hhand
  revert hagree
  cases p s with
  | ok a t =>
      intro hagree
      exact ⟨hagree.1, fun hsettles => hagree.2 (hsettles.imp_right fun h => ⟨h.1, .inl rfl⟩)⟩
  | error e t =>
      intro hagree
      exact hagree

/-- One step and then another. The result of the first one can show that a token is at hand. -/
theorem Repeats.bindSeen {q : α → Parse γ} {q' : β → Parse δ} {seen : α → Prop}
    (hp : Repeats k hand n u c g p p')
    (hseen : ∀ s a t, p s = .ok a t → seen a → t.rest ≠ [])
    (hc : (c || !d || decide (0 < v - u)) = true)
    (hq : ∀ m a, m + u = n → Repeats k (seen a) m (v - u) d h (q a) (q' (g a))) :
    Repeats k hand n v d h (p >>= q) (p' >>= q') := by
  intro s s' hs hlow hn hhand
  have hfirst := hp s s' hs hlow hn hhand
  change Agree k v d h s (EStateM.bind p q s) (EStateM.bind p' q' s')
  unfold EStateM.bind
  cases hrun : p s with
  | error e t =>
      -- Only a whole text fails in the same way; otherwise nothing is claimed.
      rw [hrun] at hfirst
      refine ⟨hfirst.1, ?_⟩
      intro hwhole
      rcases hfirst.2 hwhole with ⟨t', hrun', ht⟩
      exact ⟨t', by rw [hrun'], ht⟩
  | ok a t =>
      rw [hrun] at hfirst
      rcases hfirst with ⟨hpasses, hsecond⟩
      have hlength := hpasses.length
      have hrest : ∀ t', k.Matches t t' → Agree k (v - u) d h t (q a t) (q' (g a) t') := by
        intro t' ht
        exact hq (n - u) a (by omega) t t' ht (Nat.le_trans hlow hpasses.nextId) (by omega)
          (hseen s a t hrun)
      dsimp only
      by_cases hsettles : k.Settles c t
      · -- The first steps end in states that match, so the second steps can be compared.
        rcases hsecond hsettles with ⟨t', hrun', ht⟩
        rw [hrun']
        have hagree := hrest t' ht
        revert hagree
        dsimp only
        cases q a t with
        | ok b w =>
            intro hagree
            exact ⟨(hpasses.trans hagree.1).less (by omega), hagree.2⟩
        | error e w =>
            intro hagree
            exact ⟨(hpasses.trans hagree.1).less (Nat.zero_le _), hagree.2⟩
      · -- The end was seen already, so nothing is claimed of what is read in the second state.
        have hwhole : ¬k.whole := fun hwhole => hsettles (.inl hwhole)
        rcases k.exists_matches hwhole t with ⟨t', ht⟩
        have hagree := hrest t' ht
        revert hagree
        cases q a t with
        | ok b w =>
            intro hagree
            refine ⟨(hpasses.trans hagree.1).less (by omega), ?_⟩
            intro hw
            exact absurd (hw.before hagree.1 hc) hsettles
        | error e w =>
            intro hagree
            exact ⟨(hpasses.trans hagree.1).less (Nat.zero_le _), fun h => absurd h hwhole⟩

theorem Repeats.bind {q : α → Parse γ} {q' : β → Parse δ} (hp : Repeats k hand n u c g p p')
    (hc : (c || !d || decide (0 < v - u)) = true)
    (hq : ∀ m a, m + u = n → Repeats k False m (v - u) d h (q a) (q' (g a))) :
    Repeats k hand n v d h (p >>= q) (p' >>= q') :=
  hp.bindSeen (fun _ _ _ _ => False.elim) hc hq

theorem Repeats.map {f : α → γ} {f' : β → δ} (hp : Repeats k hand n u c g p p')
    (hf : ∀ a, f' (g a) = h (f a)) : Repeats k hand n u c h (f <$> p) (f' <$> p') := by
  rw [map_eq_pure_bind, map_eq_pure_bind]
  refine hp.bind ?_ ?_
  · cases c <;> rfl
  · intro m a _
    rw [Nat.sub_self]
    exact .pure (hf a)

theorem Repeats.ite {q : Parse α} {q' : Parse β} {b : Bool}
    (hp : b = true → Repeats k hand n v c g p p') (hq : b = false → Repeats k hand n v c g q q') :
    Repeats k hand n v c g (if b then p else q) (if b then p' else q') := by
  cases b with
  | false => exact hq rfl
  | true => exact hp rfl

end Rules

/-! ## Single tokens -/

section Tokens

variable {g : α → β} {p : Parse α} {p' : Parse β}

theorem ne_nil_of_kind {s : ParseState} {kind : Kind} (hkind : kind ≠ .eof)
    (h : s.current.kind = kind) : s.rest ≠ [] := by
  intro hnil
  apply hkind
  rw [← h, ParseState.current, hnil]
  rfl

theorem repeats_fail (cause : SyntaxCause) :
    Repeats k hand n v c g (fail cause : Parse α) (fail cause) := by
  intro s s' hs _ _ _
  refine ⟨.refl s, ?_⟩
  -- The mistake is reported at the token at hand, which is the same in a whole text.
  intro hwhole
  refine ⟨s', ?_, hs⟩
  rw [fail, hs.current (.inl hwhole)]
  rfl

theorem repeats_advance (hhand : hand) :
    Repeats k hand n 1 true (Token.relabel k.change) advance advance := by
  intro s s' hs _ _ hrest
  have hne : s.rest ≠ [] := hrest hhand
  refine ⟨.next hne, ?_⟩
  intro _
  refine ⟨s'.next, ?_, hs.next hne⟩
  rw [advance, hs.current (.inr hne)]

theorem repeats_expect {kind : Kind} (hkind : kind ≠ .eof) (what : Expectation) :
    Repeats k hand n 1 true (Token.relabel k.change) (expect kind what) (expect kind what) := by
  intro s s' hs _ _ _
  unfold expect
  by_cases h : (s.current.kind == kind) = true
  · have hne : s.rest ≠ [] := ne_nil_of_kind hkind (by simpa using h)
    rw [if_pos h]
    refine ⟨.next hne, ?_⟩
    intro _
    refine ⟨s'.next, ?_, hs.next hne⟩
    rw [hs.current (.inr hne)]
    exact if_pos h
  · rw [if_neg h]
    refine ⟨.refl s, ?_⟩
    intro hwhole
    refine ⟨s', ?_, hs⟩
    rw [hs.current (.inl hwhole)]
    exact if_neg h

theorem repeats_ident (what : Expectation) :
    Repeats k hand n 1 true (Ident.relabel k.change) (ident what) (ident what) := by
  refine (repeats_expect (by decide) what).bind rfl ?_
  intro m t _
  exact .pure rfl

theorem repeats_record (cause : SyntaxCause) {place place' : Span}
    (hplace : place' = k.change.place place) :
    Repeats k hand n 0 true id (record cause place) (record cause place') := by
  intro s s' hs _ _ _
  subst hplace
  exact ⟨.record s ⟨cause, place⟩, fun _ => ⟨_, rfl, hs.record ⟨cause, place⟩⟩⟩

theorem repeats_limit (cause : SyntaxCause) (count : Nat) :
    Repeats k hand n 0 true id (limit cause count) (limit cause count) := by
  intro s s' hs _ _ _
  unfold limit
  by_cases hcount : maxArguments ≤ count
  · rw [if_pos hcount, if_pos hcount]
    refine ⟨.record s _, ?_⟩
    -- A mistake has been recorded, so only a whole text settles.
    intro hsettles
    have hwhole : k.whole := by
      apply hsettles.resolve_right
      intro hpost
      rcases hpost with ⟨hnone, -⟩
      simp [ParseState.record] at hnone
    rw [hs.current (.inl hwhole)]
    exact ⟨_, rfl, hs.record ⟨cause, s.current.span⟩⟩
  · rw [if_neg hcount, if_neg hcount]
    exact ⟨.refl s, fun _ => ⟨s', rfl, hs⟩⟩

theorem repeats_node {place place' : Span} (hplace : place' = k.change.place place) :
    Repeats k hand n 0 true (Node.relabel k.change) (node place) (node place') := by
  intro s s' hs hlow _ _
  subst hplace
  refine ⟨.number s, ?_⟩
  intro _
  refine ⟨{ s' with nextId := s'.nextId + 1 }, ?_, hs.number hlow⟩
  rw [node, hs.nextId]
  rfl

theorem repeats_reference {name name' : Ident} (hname : name' = name.relabel k.change) :
    Repeats k hand n 0 true (Reference.relabel k.change) (reference name) (reference name') := by
  intro s s' hs hlow _ _
  subst hname
  refine ⟨.number s, ?_⟩
  intro _
  refine ⟨{ s' with nextId := s'.nextId + 1 }, ?_, hs.number hlow⟩
  rw [reference, hs.nextId]
  rfl

end Tokens

/-! ## Looking at the token at hand -/

section Looking

theorem repeats_peek : Repeats k hand n 0 false (Token.relabel k.change) peek peek := by
  intro s s' hs _ _ _
  refine ⟨.refl s, ?_⟩
  intro hsettles
  refine ⟨s', ?_, hs⟩
  rw [peek, hs.current (hsettles.imp_right fun h => by simpa using h.2)]

theorem seen_peek (s : ParseState) (a : Token) (t : ParseState) :
    peek s = .ok a t → a.kind ≠ .eof → t.rest ≠ [] := by
  intro heq hkind hnil
  cases heq
  apply hkind
  rw [ParseState.current, hnil]
  rfl

theorem repeats_check (kind : Kind) : Repeats k hand n 0 false id (check kind) (check kind) := by
  intro s s' hs _ _ _
  refine ⟨.refl s, ?_⟩
  intro hsettles
  refine ⟨s', ?_, hs⟩
  rw [check, hs.current (hsettles.imp_right fun h => by simpa using h.2)]
  rfl

theorem seen_check {kind : Kind} (hkind : kind ≠ .eof) (s : ParseState) (a : Bool)
    (t : ParseState) : check kind s = .ok a t → a = true → t.rest ≠ [] := by
  intro heq h
  cases heq
  exact ne_nil_of_kind hkind (by simpa using h)

theorem repeats_atEnd : Repeats k hand n 0 false id atEnd atEnd := by
  intro s s' hs _ _ _
  refine ⟨.refl s, ?_⟩
  intro hsettles
  refine ⟨s', ?_, hs⟩
  rw [atEnd, hs.rest]
  rcases hsettles with hwhole | ⟨-, hrest⟩
  · simp [k.nothing hwhole]
  · have hne : s.rest ≠ [] := by simpa using hrest
    cases hs : s.rest with
    | nil =>
        exact absurd hs hne
    | cons t ts =>
        rfl

theorem seen_atEnd (s : ParseState) (a : Bool) (t : ParseState) :
    atEnd s = .ok a t → a = false → t.rest ≠ [] := by
  intro heq h
  cases heq
  simpa using h

theorem repeats_accept_of {kind : Kind} (hkind : kind ≠ .eof)
    (hend : c = true → ∀ t ∈ k.behind.head?, t.kind ≠ kind) :
    Repeats k hand n 0 c id (accept kind) (accept kind) := by
  intro s s' hs _ _ _
  unfold accept
  by_cases h : (s.current.kind == kind) = true
  · have hne : s.rest ≠ [] := ne_nil_of_kind hkind (by simpa using h)
    rw [if_pos h]
    refine ⟨(ParseState.Passes.next hne).less (Nat.zero_le _), ?_⟩
    intro _
    refine ⟨s'.next, ?_, hs.next hne⟩
    rw [hs.current (.inr hne)]
    exact if_pos h
  · rw [if_neg h]
    refine ⟨.refl s, ?_⟩
    intro hsettles
    refine ⟨s', if_neg ?_, hs⟩
    by_cases hsame : k.whole ∨ s.rest ≠ []
    · rw [hs.current hsame]
      exact h
    · -- Here the first reading is at its end, and the second one goes on behind it.
      have hnil : s.rest = [] := by
        by_cases hnil : s.rest = []
        · exact hnil
        · exact absurd (.inr hnil) hsame
      have hclosed : c = true := by
        rcases hsettles with hwhole | ⟨-, hclosed | hrest⟩
        · exact absurd (.inl hwhole) hsame
        · exact hclosed
        · exact absurd hnil hrest
      rw [ParseState.current, hs.rest, hnil, List.map_nil, List.nil_append]
      cases hbehind : k.behind with
      | nil =>
          simpa [Token.endAt] using hkind.symm
      | cons t ts =>
          have ht : t.kind ≠ kind := hend hclosed t (by simp [hbehind])
          simpa using ht

theorem repeats_accept {kind : Kind} (hkind : kind ≠ .eof) :
    Repeats k hand n 0 false id (accept kind) (accept kind) :=
  repeats_accept_of hkind (by simp)

/-- What stands behind does not begin with `else`, so nothing of it is seen here. -/
theorem repeats_accept_else :
    Repeats k hand n 0 true id (accept (.keyword .else)) (accept (.keyword .else)) :=
  repeats_accept_of (by decide) fun _ => k.noElse

end Looking

/-! ## Steps that contain steps -/

section Steps

variable {g : α → β} {p : Parse α} {p' : Parse β}

theorem Repeats.behind {kind : Kind} (hc : (c || !d) = true)
    (haccept : Repeats k hand n 0 c id (accept kind) (accept kind))
    (hp : Repeats k False n 0 d g p p') :
    Repeats k hand n 0 d (Option.map g) (behind kind p) (behind kind p') := by
  refine haccept.bind (by simp [hc]) ?_
  intro m b hm
  rw [Nat.add_zero] at hm
  subst hm
  refine .ite ?_ ?_
  · intro _
    exact hp.map fun _ => rfl
  · intro _
    exact .pure rfl

theorem Repeats.unlessAt {kind : Kind} (hp : Repeats k False n 0 false g p p') :
    Repeats k hand n 0 false (Option.map g) (unlessAt kind p) (unlessAt kind p') := by
  refine (repeats_check kind).bind rfl ?_
  intro m b hm
  rw [Nat.add_zero] at hm
  subst hm
  refine .ite ?_ ?_
  · intro _
    exact .pure rfl
  · intro _
    exact hp.map fun _ => rfl

/-- After a mistake at least one token is dropped. -/
theorem Repeats.recover (hhand : hand) (hp : Repeats k hand n 1 true g p p') :
    Repeats k hand n 1 true (Option.map g) (recover p) (recover p') := by
  intro s s' hs hlow hn hrest
  have hagree := hp s s' hs hlow hn hrest
  unfold Parse.recover
  cases hrun : p s with
  | ok a t =>
      rw [hrun] at hagree
      refine ⟨hagree.1, ?_⟩
      intro hsettles
      rcases hagree.2 hsettles with ⟨t', hrun', ht⟩
      exact ⟨t', by rw [hrun']; rfl, ht⟩
  | error e t =>
      rw [hrun] at hagree
      have hlength := hagree.1.length
      have hdropped : (t.record e).synchronize.rest.length ≤ t.rest.length - 1 :=
        (t.record e).length_synchronize
      have hpos : 0 < s.rest.length := List.length_pos_iff.mpr (hrest hhand)
      have hnextId : (t.record e).synchronize.nextId = t.nextId :=
        (t.record e).nextId_synchronize
      have herrors : (t.record e).synchronize.errors ≠ [] := by
        unfold ParseState.synchronize
        split <;> simp [ParseState.record]
      refine ⟨⟨?_, ?_, fun hnone => absurd hnone herrors⟩, ?_⟩
      · -- A token was at hand, and skipping drops at least the one the mistake is at.
        omega
      · rw [hnextId]
        exact hagree.1.nextId
      · intro hsettles
        have hwhole : k.whole := hsettles.resolve_right fun h => herrors h.1
        rcases hagree.2 hwhole with ⟨t', hrun', ht⟩
        rw [hrun']
        exact ⟨_, rfl, (ht.record e).synchronize hwhole⟩

/-- With so much fuel it makes no difference how much there is. -/
theorem Repeats.fuelled {step : Nat → Parse α} {step' : Nat → Parse β}
    (h : ∀ m fuel fuel', 8 * m + 8 ≤ min fuel fuel' → m ≤ n →
      Repeats k hand m v c g (step fuel) (step' fuel')) :
    Repeats k hand n v c g (fuelled step) (fuelled step') := by
  intro s s' hs hlow hn hhand
  -- Each reading takes its fuel from the tokens it has; the second one has no fewer.
  have hlength : s.rest.length ≤ s'.rest.length := by
    simp [hs.rest]
  refine h s.rest.length s.fuel s'.fuel ?_ hn s s' hs hlow (Nat.le_refl _) hhand
  simp only [ParseState.fuel]
  omega

end Steps

end Parse

end Lox
