import Lox.Arena.Statement
import Lox.Proofs.Arena.Order
import Lox.Proofs.Arena.Tree

/-!
# Reading trees and reading into an arena

Reading a text as trees and reading it into an arena take the same tokens and make the same mistakes.
What is added to the arena for a tree is the tree, and it is a root until it becomes a part.

* `BuildState.Ready` is what holds whenever reading has got to some point: the roots are those of a
  forest, and the nodes together with the tokens that are left are not too many.
* `Build.Agrees` compares two steps of reading. There is one rule for each step and for each way to
  put steps together.
-/

namespace Lox

/-! ## How many nodes there can be -/

/-- How many nodes a token can stand for. A `for` loop can make five besides those of its parts, and
has four other tokens of its own at least. -/
def Token.weight (t : Token) : Nat :=
  if t.kind = .keyword .for then 2 else 1

theorem Token.weight_pos (t : Token) : 1 ≤ t.weight := by
  unfold Token.weight
  split <;> omega

/-- How many nodes tokens can stand for. -/
def Token.weights : List Token → Nat
  | [] => 0
  | t :: ts => t.weight + weights ts

/-- How many nodes the tokens that are left can stand for. -/
def ParseState.weight (s : ParseState) : Nat :=
  Token.weights s.rest

/-- How many nodes there can be in the end. -/
def BuildState.weight (b : BuildState) : Nat :=
  b.arena.count + b.reading.weight

namespace ParseState

variable {s : ParseState}

theorem weight_next (h : s.current.kind ≠ .eof) : s.next.weight + s.current.weight = s.weight := by
  -- At the end of the input there is nothing to pass.
  unfold weight next current at *
  cases hrest : s.rest with
  | nil =>
      rw [hrest] at h
      exact absurd rfl h
  | cons t ts =>
      simp only [List.tail_cons, List.headD_cons, Token.weights]
      omega

theorem weight_next_le (s : ParseState) : s.next.weight ≤ s.weight := by
  unfold weight next
  cases s.rest with
  | nil => exact Nat.le_refl _
  | cons t ts => exact Nat.le_add_left _ _

theorem weight_resume (previous : Token) (ts : List Token) :
    Token.weights (resume previous ts) ≤ Token.weights ts := by
  induction ts generalizing previous with
  | nil =>
      exact Nat.le_refl _
  | cons t ts ih =>
      unfold resume
      split
      · exact Nat.le_refl _
      · exact Nat.le_trans (ih t) (Nat.le_add_left _ _)

theorem weight_synchronize (s : ParseState) : s.synchronize.weight ≤ s.weight := by
  unfold weight synchronize
  cases hrest : s.rest with
  | nil =>
      simp [hrest]
  | cons t ts =>
      exact Nat.le_trans (weight_resume t ts) (Nat.le_add_left _ _)

end ParseState

/-! ## Points of reading -/

/-- What holds at a point of reading. Of the roots those in the frame are left alone, even if reading
stops at a mistake. -/
structure BuildState.Ready (limit : Nat) (frame roots : List Handle) (b : BuildState) : Prop where
  count : b.reading.nextId = b.arena.expressions.size
  built : b.arena.Built
  forest : b.arena.Forest roots
  frame : frame.Sublist roots
  weight : b.weight ≤ limit
  small : limit < UInt32.size

namespace BuildState.Ready

variable {limit : Nat} {frame roots roots' : List Handle} {b : BuildState}

theorem perm (h : b.Ready limit frame roots) (hperm : roots.Perm roots')
    (hframe : frame.Sublist roots') : b.Ready limit frame roots' :=
  ⟨h.count, h.built, h.forest.perm hperm, hframe, h.weight, h.small⟩

/-- Roots may be put before those that came earlier. -/
theorem exchange {xs ys : List Handle} (h : b.Ready limit frame (ys ++ (xs ++ roots)))
    (hframe : frame.Sublist roots) : b.Ready limit frame (xs ++ (ys ++ roots)) := by
  refine h.perm (List.perm_append_comm_assoc _ _ _) ?_
  exact (hframe.trans (List.sublist_append_right _ _)).trans (List.sublist_append_right _ _)

/-- After a mistake only the frame is left. -/
theorem stopped (h : b.Ready limit frame roots) : b.Ready limit frame frame :=
  ⟨h.count, h.built, h.forest.sublist h.frame, .refl _, h.weight, h.small⟩

/-- Fewer roots may be left alone, and there may be more nodes. -/
theorem widen {limit' : Nat} {frame' : List Handle} (h : b.Ready limit frame roots)
    (hframe : frame'.Sublist roots) (hlimit : limit ≤ limit') (hsmall : limit' < UInt32.size) :
    b.Ready limit' frame' roots :=
  ⟨h.count, h.built, h.forest, hframe, Nat.le_trans h.weight hlimit, hsmall⟩

/-- No more nodes are needed than there can be. -/
theorem tight (h : b.Ready limit frame roots) : b.Ready b.weight roots roots :=
  ⟨h.count, h.built, h.forest, .refl _, Nat.le_refl _, Nat.lt_of_le_of_lt h.weight h.small⟩

/-- Tokens may be passed and mistakes recorded. -/
theorem read (h : b.Ready limit frame roots) {s : ParseState} (hnext : s.nextId = b.reading.nextId)
    (hweight : s.weight ≤ b.reading.weight) :
    BuildState.Ready limit frame roots { b with reading := s } := by
  refine ⟨hnext.trans h.count, h.built, h.forest, h.frame, ?_, h.small⟩
  have hw := h.weight
  unfold BuildState.weight at hw ⊢
  dsimp only
  omega

theorem room (h : b.Ready limit frame roots) :
    b.arena.expressions.size < UInt32.size ∧ b.arena.statements.size < UInt32.size ∧
      b.arena.functions.size < UInt32.size := by
  have hw := h.weight
  have hs := h.small
  unfold BuildState.weight Arena.count at hw
  omega

end BuildState.Ready

/-- Something has been read: it stands in the arena, and its handles are roots. -/
structure BuildState.Got {α β : Type} (Shows : Arena → β → α → Prop) (handles : β → List Handle)
    (limit : Nat) (frame roots : List Handle) (weight : Nat) (x : β) (v : α) (b : BuildState) :
    Prop where
  shows : Shows b.arena x v
  ready : b.Ready limit frame (handles x ++ roots)
  weight : b.weight ≤ weight

namespace BuildState.Got

variable {α β : Type} {Shows : Arena → β → α → Prop} {limit : Nat} {frame roots : List Handle}
  {weight weight' : Nat} {x : β} {v : α} {b : BuildState}

theorem le {handles : β → List Handle} (h : Got Shows handles limit frame roots weight x v b)
    (hle : weight ≤ weight') : Got Shows handles limit frame roots weight' x v b :=
  ⟨h.shows, h.ready, Nat.le_trans h.weight hle⟩

theorem root {f : β → Handle} (h : Got Shows (fun x => [f x]) limit frame roots weight x v b) :
    b.Ready limit frame (f x :: roots) :=
  h.ready

end BuildState.Got

namespace Build

variable {α β α' β' : Type} {limit : Nat} {frame roots : List Handle} {b : BuildState}

/-- Two steps agree: one reads into an arena what the other one reads as trees. -/
def Agrees (limit : Nat) (frame : List Handle) (b : BuildState) (q : Build β) (p : Parse α)
    (Q : β → α → BuildState → Prop) : Prop :=
  match q b, p b.reading with
  | .ok x b', .ok v s => b'.reading = s ∧ b.arena.Grows b'.arena ∧ Q x v b'
  | .error e b', .error e' s =>
      e = e' ∧ b'.reading = s ∧ b.arena.Grows b'.arena ∧ b'.Ready limit frame frame
  | _, _ => False

section Rules

variable {q : Build β} {p : Parse α} {Q R : β → α → BuildState → Prop}

theorem Agrees.pure {x : β} {v : α} (h : Q x v b) :
    Agrees limit frame b (pure x : Build β) (pure v : Parse α) Q :=
  ⟨rfl, .refl _, h⟩

theorem Agrees.bind {f : β → Build β'} {g : α → Parse α'} {T : β' → α' → BuildState → Prop}
    (hp : Agrees limit frame b q p Q)
    (hf : ∀ x v b', b.arena.Grows b'.arena → Q x v b' → Agrees limit frame b' (f x) (g v) T) :
    Agrees limit frame b (q >>= f) (p >>= g) T := by
  unfold Agrees at hp
  change match EStateM.bind q f b, EStateM.bind p g b.reading with
    | .ok x b', .ok v s => _
    | .error e b', .error e' s => _
    | _, _ => False
  unfold EStateM.bind
  cases hq : q b with
  | error e b' =>
      cases hp' : p b.reading with
      | ok v s =>
          rw [hq, hp'] at hp
          exact hp.elim
      | error e' s =>
          rw [hq, hp'] at hp
          exact hp
  | ok x b' =>
      cases hp' : p b.reading with
      | error e' s =>
          rw [hq, hp'] at hp
          exact hp.elim
      | ok v s =>
          rw [hq, hp'] at hp
          -- The first steps leave states with the same reading, in which the second ones agree.
          rcases hp with ⟨rfl, hgrows, hQ⟩
          have hnext := hf x v b' hgrows hQ
          unfold Agrees at hnext
          revert hnext
          dsimp only
          cases f x b' <;> cases g v b'.reading
          · rintro ⟨hs, hgrows', hT⟩
            exact ⟨hs, hgrows.trans hgrows', hT⟩
          · exact False.elim
          · exact False.elim
          · rintro ⟨he, hs, hgrows', hready⟩
            exact ⟨he, hs, hgrows.trans hgrows', hready⟩

theorem Agrees.mono (hp : Agrees limit frame b q p Q)
    (h : ∀ x v b', b.arena.Grows b'.arena → Q x v b' → R x v b') :
    Agrees limit frame b q p R := by
  unfold Agrees at hp ⊢
  revert hp
  cases q b <;> cases p b.reading
  · rintro ⟨hs, hgrows, hQ⟩
    exact ⟨hs, hgrows, h _ _ _ hgrows hQ⟩
  · exact id
  · exact id
  · exact id

theorem Agrees.map {f : β → β'} {g : α → α'} {T : β' → α' → BuildState → Prop}
    (hp : Agrees limit frame b q p Q)
    (h : ∀ x v b', b.arena.Grows b'.arena → Q x v b' → T (f x) (g v) b') :
    Agrees limit frame b (f <$> q) (g <$> p) T := by
  rw [map_eq_pure_bind, map_eq_pure_bind]
  refine hp.bind ?_
  intro x v b' hgrows hQ
  exact .pure (h x v b' hgrows hQ)

theorem Agrees.of_map {f : α → α'} {T : β → α' → BuildState → Prop}
    (hp : Agrees limit frame b q (f <$> p) T) :
    Agrees limit frame b q p fun x v b' => T x (f v) b' := by
  have hrun : (f <$> p) b.reading = EStateM.map f p b.reading := rfl
  unfold Agrees at hp ⊢
  rw [hrun, EStateM.map] at hp
  revert hp
  cases q b <;> cases p b.reading <;> exact id

theorem Agrees.ite {q' : Build β} {p' : Parse α} {c : Bool}
    (htrue : c = true → Agrees limit frame b q p Q)
    (hfalse : c = false → Agrees limit frame b q' p' Q) :
    Agrees limit frame b (if c then q else q') (if c then p else p') Q := by
  cases c with
  | true => exact htrue rfl
  | false => exact hfalse rfl

end Rules

/-! ## Steps that make no node -/

/-- A step that gives no number and adds no token. -/
def Passes (p : Parse α) (s : ParseState) (Q : α → ParseState → Prop) : Prop :=
  match p s with
  | .ok v s' => s'.nextId = s.nextId ∧ s'.weight ≤ s.weight ∧ Q v s'
  | .error _ s' => s'.nextId = s.nextId ∧ s'.weight ≤ s.weight

theorem agrees_read {p : Parse α} {Q : α → ParseState → Prop} (hp : Passes p b.reading Q)
    (h : b.Ready limit frame roots) :
    Agrees limit frame b (read p) p fun x v b' =>
      x = v ∧ b'.Ready limit frame roots ∧ b' = { b with reading := b'.reading } ∧
        Q v b'.reading := by
  unfold Passes at hp
  unfold Agrees read
  revert hp
  cases p b.reading with
  | ok v s =>
      rintro ⟨hnext, hweight, hQ⟩
      exact ⟨rfl, .refl _, rfl, h.read hnext hweight, rfl, hQ⟩
  | error e s =>
      rintro ⟨hnext, hweight⟩
      exact ⟨rfl, rfl, .refl _, (h.read hnext hweight).stopped⟩

theorem Passes.pure {s : ParseState} {v : α} {Q : α → ParseState → Prop} (h : Q v s) :
    Passes (pure v : Parse α) s Q :=
  ⟨rfl, Nat.le_refl _, h⟩

theorem Passes.bind {p : Parse α} {f : α → Parse β} {s : ParseState} {Q : α → ParseState → Prop}
    {T : β → ParseState → Prop} (hp : Passes p s Q)
    (hf : ∀ v s', s'.weight ≤ s.weight → Q v s' → Passes (f v) s' T) :
    Passes (p >>= f) s T := by
  unfold Passes at hp
  change match EStateM.bind p f s with
    | .ok v s' => _
    | .error _ s' => _
  unfold EStateM.bind
  revert hp
  cases p s with
  | error e s' =>
      exact id
  | ok v s' =>
      rintro ⟨hnext, hweight, hQ⟩
      have hnext' := hf v s' hweight hQ
      unfold Passes at hnext'
      revert hnext'
      dsimp only
      cases f v s' with
      | error e s'' =>
          rintro ⟨h₁, h₂⟩
          exact ⟨h₁.trans hnext, Nat.le_trans h₂ hweight⟩
      | ok w s'' =>
          rintro ⟨h₁, h₂, hT⟩
          exact ⟨h₁.trans hnext, Nat.le_trans h₂ hweight, hT⟩

theorem passes_expect {kind : Kind} (hkind : kind ≠ .eof) (what : Expectation) (s : ParseState) :
    Passes (Parse.expect kind what) s fun _ s' => s'.weight + 1 ≤ s.weight := by
  unfold Passes Parse.expect
  by_cases heq : (s.current.kind == kind) = true
  · rw [if_pos heq]
    have hcurrent : s.current.kind ≠ .eof := by
      rw [beq_iff_eq.mp heq]
      exact hkind
    have hweight := ParseState.weight_next hcurrent
    have hpos := s.current.weight_pos
    exact ⟨rfl, by omega, by omega⟩
  · rw [if_neg heq]
    exact ⟨rfl, Nat.le_refl _⟩

theorem passes_ident (what : Expectation) (s : ParseState) :
    Passes (Parse.ident what) s fun _ s' => s'.weight + 1 ≤ s.weight := by
  refine (passes_expect (by decide) what s).bind ?_
  intro token s' _ hweight
  exact .pure hweight

theorem passes_accept {kind : Kind} (hkind : kind ≠ .eof) (s : ParseState) :
    Passes (Parse.accept kind) s fun v s' => s'.weight + v.toNat ≤ s.weight := by
  unfold Passes Parse.accept
  by_cases heq : (s.current.kind == kind) = true
  · rw [if_pos heq]
    have hcurrent : s.current.kind ≠ .eof := by
      rw [beq_iff_eq.mp heq]
      exact hkind
    have hweight := ParseState.weight_next hcurrent
    have hpos := s.current.weight_pos
    have hone : true.toNat = 1 := rfl
    exact ⟨rfl, by omega, by omega⟩
  · rw [if_neg heq]
    exact ⟨rfl, Nat.le_refl _, Nat.le_refl _⟩

theorem passes_limit (cause : SyntaxCause) (count : Nat) (s : ParseState) :
    Passes (Parse.limit cause count) s fun _ _ => True := by
  unfold Passes Parse.limit
  by_cases hcount : maxArguments ≤ count
  · rw [if_pos hcount]
    exact ⟨rfl, Nat.le_refl _, trivial⟩
  · rw [if_neg hcount]
    exact ⟨rfl, Nat.le_refl _, trivial⟩

theorem passes_moreParameters (fuel : Nat) : ∀ (count : Nat) (s : ParseState),
    Passes (Parse.moreParameters fuel count) s fun _ _ => True := by
  induction fuel with
  | zero =>
      intro count s
      exact .pure trivial
  | succ fuel ih =>
      intro count s
      refine (passes_limit _ _ s).bind ?_
      intro _ s₁ _ _
      refine (passes_ident _ s₁).bind ?_
      intro first s₂ _ _
      refine (passes_accept (by decide) s₂).bind ?_
      intro comma s₃ _ _
      cases comma with
      | true =>
          refine (ih (count + 1) s₃).bind ?_
          intro others s₄ _ _
          exact .pure trivial
      | false =>
          exact .pure trivial

theorem passes_fuelled {step : Nat → Parse α} {s : ParseState} {Q : α → ParseState → Prop}
    (h : Passes (step s.fuel) s Q) : Passes (Parse.fuelled step) s Q :=
  h

theorem passes_parameters (s : ParseState) : Passes Parse.parameters s fun _ _ => True := by
  have hcheck : Passes (Parse.check .rightParen) s fun _ _ => True :=
    ⟨rfl, Nat.le_refl _, trivial⟩
  refine hcheck.bind ?_
  intro close s₁ _ _
  cases close with
  | true => exact .pure trivial
  | false =>
      rw [if_neg Bool.false_ne_true]
      exact passes_fuelled (passes_moreParameters s₁.fuel 0 s₁)

theorem agrees_peek :
    Agrees limit frame b (read Parse.peek) Parse.peek fun x v b' =>
      x = v ∧ b = b' ∧ v = b.reading.current :=
  ⟨rfl, .refl _, rfl, rfl, rfl⟩

theorem agrees_check (kind : Kind) :
    Agrees limit frame b (read (Parse.check kind)) (Parse.check kind) fun x v b' =>
      x = v ∧ b = b' ∧ v = (b.reading.current.kind == kind) :=
  ⟨rfl, .refl _, rfl, rfl, rfl⟩

theorem agrees_atEnd :
    Agrees limit frame b (read Parse.atEnd) Parse.atEnd fun x v b' => x = v ∧ b = b' :=
  ⟨rfl, .refl _, rfl, rfl⟩

section Steps

variable (h : b.Ready limit frame roots)

include h

theorem agrees_fail {Q : β → α → BuildState → Prop} (cause : SyntaxCause) :
    Agrees limit frame b (read (Parse.fail cause)) (Parse.fail cause) Q :=
  ⟨rfl, rfl, .refl _, h.stopped⟩

/-- The token at hand is passed. -/
theorem agrees_advance (hkind : b.reading.current.kind ≠ .eof) :
    Agrees limit frame b (read Parse.advance) Parse.advance fun x v b' =>
      x = v ∧ b'.Ready limit frame roots ∧ b'.weight + v.weight = b.weight ∧
        v = b.reading.current := by
  have hweight := ParseState.weight_next hkind
  refine ⟨rfl, .refl _, rfl, h.read rfl (ParseState.weight_next_le _), ?_, rfl⟩
  unfold BuildState.weight
  dsimp only
  omega

theorem agrees_expect {kind : Kind} (hkind : kind ≠ .eof) (what : Expectation) :
    Agrees limit frame b (read (Parse.expect kind what)) (Parse.expect kind what) fun x v b' =>
      x = v ∧ b'.Ready limit frame roots ∧ b'.weight + 1 ≤ b.weight := by
  refine (agrees_read (passes_expect hkind what b.reading) h).mono ?_
  rintro x v b' - ⟨hx, hready, heq, hweight⟩
  refine ⟨hx, hready, ?_⟩
  rw [heq]
  unfold BuildState.weight
  dsimp only
  omega

theorem agrees_ident (what : Expectation) :
    Agrees limit frame b (read (Parse.ident what)) (Parse.ident what) fun x v b' =>
      x = v ∧ b'.Ready limit frame roots ∧ b'.weight + 1 ≤ b.weight := by
  refine (agrees_read (passes_ident what b.reading) h).mono ?_
  rintro x v b' - ⟨hx, hready, heq, hweight⟩
  refine ⟨hx, hready, ?_⟩
  rw [heq]
  unfold BuildState.weight
  dsimp only
  omega

theorem agrees_accept {kind : Kind} (hkind : kind ≠ .eof) :
    Agrees limit frame b (read (Parse.accept kind)) (Parse.accept kind) fun x v b' =>
      x = v ∧ b'.Ready limit frame roots ∧ b'.weight + v.toNat ≤ b.weight := by
  refine (agrees_read (passes_accept hkind b.reading) h).mono ?_
  rintro x v b' - ⟨hx, hready, heq, hweight⟩
  refine ⟨hx, hready, ?_⟩
  rw [heq]
  unfold BuildState.weight
  dsimp only
  omega

/-- A step that gives no number and adds no token, and that need not pass any. -/
theorem agrees_passes {p : Parse α} (hp : Passes p b.reading fun _ _ => True) :
    Agrees limit frame b (read p) p fun x v b' =>
      x = v ∧ b'.Ready limit frame roots ∧ b'.weight ≤ b.weight := by
  have hp' : Passes p b.reading fun _ s => s.weight ≤ b.reading.weight := by
    unfold Passes at hp ⊢
    revert hp
    cases p b.reading with
    | ok v s =>
        rintro ⟨hnext, hweight, -⟩
        exact ⟨hnext, hweight, hweight⟩
    | error e s =>
        exact id
  refine (agrees_read hp' h).mono ?_
  rintro x v b' - ⟨hx, hready, heq, hweight⟩
  refine ⟨hx, hready, ?_⟩
  rw [heq]
  unfold BuildState.weight
  dsimp only
  omega

/-! ## Steps that contain steps -/

variable {q : Build β} {p : Parse α} {Q : β → α → BuildState → Prop}

theorem agrees_behind {kind : Kind} (hkind : kind ≠ .eof)
    (hp : ∀ b', b'.Ready limit frame roots → b'.weight + 1 ≤ b.weight →
      Agrees limit frame b' q p Q) :
    Agrees limit frame b (behind kind q) (Parse.behind kind p) fun x? v? b' =>
      (x? = none ∧ v? = none ∧ b'.Ready limit frame roots ∧ b'.weight ≤ b.weight) ∨
        ∃ x v, x? = some x ∧ v? = some v ∧ Q x v b' := by
  refine (agrees_accept h hkind).bind ?_
  rintro x v b₁ - ⟨rfl, h₁, hweight⟩
  refine .ite ?_ ?_
  · rintro rfl
    refine (hp b₁ h₁ hweight).map ?_
    intro x v b' _ hQ
    exact .inr ⟨x, v, rfl, rfl, hQ⟩
  · rintro rfl
    exact .pure (.inl ⟨rfl, rfl, h₁, hweight⟩)

/-- After a mistake there is nothing, and the roots are as they were. -/
theorem agrees_recover (hp : Agrees b.weight roots b q p Q) :
    Agrees limit frame b (recover q) (Parse.recover p) fun x? v? b' =>
      (x? = none ∧ v? = none ∧ b'.Ready limit frame roots ∧ b'.weight ≤ b.weight) ∨
        ∃ x v, x? = some x ∧ v? = some v ∧ Q x v b' := by
  unfold Agrees at hp
  unfold Agrees recover Parse.recover
  revert hp
  cases q b <;> cases p b.reading
  · rintro ⟨hs, hgrows, hQ⟩
    exact ⟨hs, hgrows, .inr ⟨_, _, rfl, rfl, hQ⟩⟩
  · exact False.elim
  · exact False.elim
  · rintro ⟨rfl, rfl, hgrows, hready⟩
    rename_i e b'
    -- Both have stopped at the same mistake. What was added stays, but only the frame is left of the
    -- roots.
    have hweight := ParseState.weight_synchronize (b'.reading.record e)
    have hready' := hready.read (ParseState.nextId_synchronize (b'.reading.record e)) hweight
    exact ⟨rfl, hgrows, .inl ⟨rfl, rfl, hready'.widen h.frame h.weight h.small, hready'.weight⟩⟩

end Steps

theorem agrees_unlessAt {q : Build β} {p : Parse α} {Q : β → α → BuildState → Prop} {kind : Kind}
    (hp : Agrees limit frame b q p Q) :
    Agrees limit frame b (unlessAt kind q) (Parse.unlessAt kind p) fun x? v? b' =>
      (x? = none ∧ v? = none ∧ b = b') ∨ ∃ x v, x? = some x ∧ v? = some v ∧ Q x v b' := by
  refine (agrees_check kind).bind ?_
  rintro x v b₁ - ⟨rfl, rfl, -⟩
  refine .ite ?_ ?_
  · intro _
    exact .pure (.inl ⟨rfl, rfl, rfl⟩)
  · intro _
    refine hp.map ?_
    intro x v b' _ hQ
    exact .inr ⟨x, v, rfl, rfl, hQ⟩

/-- A step is fuelled by the tokens that are left. -/
theorem agrees_fuelled {q : Nat → Build β} {p : Nat → Parse α} {Q : β → α → BuildState → Prop}
    (hp : ∀ fuel, Agrees limit frame b (q fuel) (p fuel) Q) :
    Agrees limit frame b (fuelled q) (Parse.fuelled p) Q :=
  hp b.reading.fuel

/-! ## New nodes -/

/-- An expression is added where a number is given to a tree. -/
theorem agrees_pushExpression {p : Parse Expr} (make : Nat → Expr) {node : ExprNode} {span : Span}
    {held : List Handle}
    (hp : ∀ s, p s = .ok (make s.nextId) { s with nextId := s.nextId + 1 })
    (h : b.Ready limit frame held) (hperm : held.Perm (node.children ++ roots))
    (hframe : frame.Sublist roots) (hweight : b.weight + 1 ≤ limit)
    (hnumber : ∀ n, (make n).number = n) (hentry : ∀ n, (make n).entry = ⟨node, span⟩)
    (hparts : ∀ n, ∀ part ∈ (make n).parts, part = make n ∨
      b.arena.expressions[part.number]? = some part.entry) :
    Agrees limit frame b (pushExpression node span) p fun x e b' =>
      b'.arena.ShowsExpr x e ∧ b'.Ready limit frame (.expression x :: roots) ∧
        b'.weight ≤ b.weight + 1 := by
  unfold Agrees pushExpression
  rw [hp]
  -- There is room for the node, so its index is its place in the array, and that is its number.
  have hsize := h.room.1
  have hcount := h.count
  have hgrows := Arena.grows_pushExpression b.arena ⟨node, span⟩
  have hforest := h.forest.perm hperm
  have hbuilt : (b.arena.pushExpression ⟨node, span⟩).Built :=
    .expression h.built fun handle hhandle => hforest.has handle (List.mem_append_left _ hhandle)
  have hnew : b.arena.count + 1 = (b.arena.pushExpression ⟨node, span⟩).count := by
    simp only [Arena.count, Arena.pushExpression, Array.size_push]
    omega
  -- The parts are given up as roots, and the new node is one.
  refine ⟨rfl, hgrows, ⟨?_, ?_⟩, ⟨?_, hbuilt, ?_, .cons _ hframe, ?_, h.small⟩, ?_⟩
  · rw [Arena.toNat_ofNat hsize, hnumber, hcount]
  · intro part hpart
    rcases hparts _ part hpart with rfl | hold
    · rw [hnumber, hentry, hcount]
      exact Array.getElem?_push_size
    · exact hgrows.expressions _ _ hold
  · simp only [Arena.pushExpression, Array.size_push, hcount]
  · exact hforest.push (b.arena.pushes_expression _ hsize) hgrows
  · unfold BuildState.weight at hweight ⊢
    simp only [← hnew, ParseState.weight] at hweight ⊢
    omega
  · unfold BuildState.weight
    simp only [← hnew, ParseState.weight]
    omega

/-- A statement is added where the tree of a statement is complete. -/
theorem agrees_pushStatement {s : Stmt} {node : StmtNode} {held : List Handle}
    (h : b.Ready limit frame held) (hperm : held.Perm (node.children ++ roots))
    (hframe : frame.Sublist roots) (hweight : b.weight + 1 ≤ limit) :
    Agrees limit frame b (pushStatement node) (pure s) fun x v b' =>
      v = s ∧ b.arena.Grows b'.arena ∧ b'.arena.statements[x.toNat]? = some node ∧
        b'.Ready limit frame (.statement x :: roots) ∧ b'.weight ≤ b.weight + 1 := by
  have hsize := h.room.2.1
  have hforest := h.forest.perm hperm
  have hgrows := Arena.grows_pushStatement b.arena node
  have hbuilt : (b.arena.pushStatement node).Built :=
    .statement h.built fun handle hhandle => hforest.has handle (List.mem_append_left _ hhandle)
  have hnew : b.arena.count + 1 = (b.arena.pushStatement node).count := by
    simp only [Arena.count, Arena.pushStatement, Array.size_push]
    omega
  refine ⟨rfl, hgrows, rfl, hgrows, ?_, ⟨h.count, hbuilt, ?_, .cons _ hframe, ?_, h.small⟩, ?_⟩
  · rw [Arena.toNat_ofNat hsize]
    exact Array.getElem?_push_size
  · exact hforest.push (b.arena.pushes_statement node hsize) hgrows
  · unfold BuildState.weight at hweight ⊢
    simp only [← hnew] at hweight ⊢
    omega
  · unfold BuildState.weight
    simp only [← hnew]
    omega

/-- A function is added where the tree of a function is complete. -/
theorem agrees_pushFunction {r : FunctionDecl} {routine : Routine Index} {held : List Handle}
    (h : b.Ready limit frame held) (hperm : held.Perm (routine.body.map .statement ++ roots))
    (hframe : frame.Sublist roots) (hweight : b.weight + 1 ≤ limit) :
    Agrees limit frame b (pushFunction routine) (pure r) fun x v b' =>
      v = r ∧ b.arena.Grows b'.arena ∧ b'.arena.functions[x.toNat]? = some routine ∧
        b'.Ready limit frame (.function x :: roots) ∧ b'.weight ≤ b.weight + 1 := by
  have hsize := h.room.2.2
  have hforest := h.forest.perm hperm
  have hgrows := Arena.grows_pushFunction b.arena routine
  have hbuilt : (b.arena.pushFunction routine).Built := by
    refine .function h.built fun i hi => hforest.has _ (List.mem_append_left _ ?_)
    exact List.mem_map_of_mem hi
  have hnew : b.arena.count + 1 = (b.arena.pushFunction routine).count := by
    simp only [Arena.count, Arena.pushFunction, Array.size_push]
    omega
  refine ⟨rfl, hgrows, rfl, hgrows, ?_, ⟨h.count, hbuilt, ?_, .cons _ hframe, ?_, h.small⟩, ?_⟩
  · rw [Arena.toNat_ofNat hsize]
    exact Array.getElem?_push_size
  · exact hforest.push (b.arena.pushes_function routine hsize) hgrows
  · unfold BuildState.weight at hweight ⊢
    simp only [← hnew] at hweight ⊢
    omega
  · unfold BuildState.weight
    simp only [← hnew]
    omega

end Build

end Lox
