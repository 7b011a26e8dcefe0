import Lox.Proofs.Progress.Rules
import Lox.Proofs.Spelling.Basic

/-!
# Reading adds what is written

Reading a text into an arena adds only nodes that are written by the tokens of the text. The tokens that
have been passed are those of the node that is added next, so a step is described with the tokens that it
passes.

* `BuildState.Faithful` is what holds whenever reading has got to some point of the text.
* `Build.Writes` says of a step that it keeps this, also when it stops at a mistake. There is one rule for
  each step of reading and for each way to put steps together.
-/

namespace Lox

/-- How many expressions there can be in the end, if each token that is left makes one. -/
def BuildState.load (b : BuildState) : Nat :=
  b.arena.expressions.size + b.reading.rest.length

/-- Passes one token. -/
def BuildState.next (b : BuildState) : BuildState :=
  { b with reading := b.reading.next }

/-- What holds at a point of reading a text: the tokens that are left are the last ones of the text, there
will not be more expressions than `limit`, and the nodes that have been added to the `old` ones are
written by the tokens of the text. -/
structure BuildState.Faithful (ts : List Token) (old : Arena) (limit : Nat) (b : BuildState) : Prop where
  rest : b.reading.rest <:+ ts
  load : b.load ≤ limit
  small : limit < UInt32.size
  adds : Arena.AddsFrom ts old b.arena

namespace BuildState

variable {ts us : List Token} {old : Arena} {limit limit' : Nat} {b : BuildState}

theorem rest_eq_cons (h : b.reading.rest ≠ []) :
    b.reading.rest = b.reading.current :: b.next.reading.rest := by
  unfold ParseState.current BuildState.next ParseState.next
  cases hrest : b.reading.rest with
  | nil => exact absurd hrest h
  | cons t rest => rfl

theorem length_rest_next (h : b.reading.rest ≠ []) :
    b.next.reading.rest.length + 1 = b.reading.rest.length := by
  rw [rest_eq_cons h, List.length_cons]

theorem load_next (h : b.reading.rest ≠ []) : b.next.load + 1 = b.load := by
  unfold load
  rw [← length_rest_next h]
  rfl

namespace Faithful

theorem within (h : b.Faithful ts old limit) (hload : b.load ≤ limit') (hsmall : limit' < UInt32.size) :
    b.Faithful ts old limit' :=
  ⟨h.rest, hload, hsmall, h.adds⟩

/-- Tokens may be passed and mistakes recorded. -/
theorem read (h : b.Faithful ts old limit) {s : ParseState} (hrest : s.rest <:+ b.reading.rest) :
    BuildState.Faithful ts old limit { b with reading := s } := by
  have hload := h.load
  have hlength := hrest.length_le
  refine ⟨hrest.trans h.rest, ?_, h.small, h.adds⟩
  unfold BuildState.load at hload ⊢
  dsimp only
  omega

/-- Tokens that stand together before those that are left stand together in the text. -/
theorem infix_of_append (h : b.Faithful ts old limit) {rest : List Token}
    (hrest : b.reading.rest = us ++ rest) : us <:+: ts := by
  have hsuffix := h.rest
  rw [hrest] at hsuffix
  exact (List.infix_append' [] us _).trans hsuffix.isInfix

/-- The token at hand is one of the text, unless the text is at its end. -/
theorem current_mem (h : b.Faithful ts old limit) (hrest : b.reading.rest ≠ []) :
    b.reading.current ∈ ts := by
  refine h.rest.subset ?_
  rw [rest_eq_cons hrest]
  exact List.mem_cons_self

end Faithful

end BuildState

namespace Build

variable {α β : Type} {ts us : List Token} {old : Arena} {limit limit' : Nat} {b : BuildState}

theorem bind_apply (q : Build α) (f : α → Build β) (b : BuildState) :
    (q >>= f) b =
      match q b with
      | .ok x b' => f x b'
      | .error e b' => .error e b' := by
  change EStateM.bind q f b = _
  unfold EStateM.bind
  cases q b <;> rfl

/-- A step adds only what is written. If it gives a result, the tokens that it has passed, the result and
the state behind it are as the condition says. -/
def Writes (ts : List Token) (old : Arena) (limit : Nat) (q : Build α)
    (Q : List Token → α → BuildState → Prop) (b : BuildState) : Prop :=
  b.Faithful ts old limit →
    match q b with
    | .ok x b' => b'.Faithful ts old limit ∧ b.arena.Grows b'.arena ∧
        ∃ us, b.reading.rest = us ++ b'.reading.rest ∧ Q us x b'
    | .error _ b' => b'.Faithful ts old limit ∧ b.arena.Grows b'.arena ∧
        b'.reading.rest <:+ b.reading.rest

namespace Writes

variable {q : Build α} {f : α → Build β} {P R : List Token → α → BuildState → Prop}
  {Q : List Token → β → BuildState → Prop}

/-! ## Putting steps together -/

/-- What holds at a point of reading may be used there. -/
theorem given (h : b.Faithful ts old limit → Writes ts old limit q P b) : Writes ts old limit q P b :=
  fun hb => h hb hb

theorem pure {x : α} (h : P [] x b) : Writes ts old limit (Pure.pure x) P b :=
  fun hb => ⟨hb, .refl _, [], rfl, h⟩

/-- A weaker condition holds as well. -/
theorem mono (hq : Writes ts old limit q P b)
    (h : ∀ us x b', b.arena.Grows b'.arena → P us x b' → R us x b') : Writes ts old limit q R b := by
  intro hb
  have hpost := hq hb
  revert hpost
  cases q b with
  | ok x b' =>
      rintro ⟨hb', hgrows, us, hus, hP⟩
      exact ⟨hb', hgrows, us, hus, h us x b' hgrows hP⟩
  | error e b' =>
      exact id

/-- What a step gives is what it does give. -/
theorem run (hq : Writes ts old limit q P b) :
    Writes ts old limit q (fun us x b' => q b = .ok x b' ∧ P us x b') b := by
  intro hb
  have hpost := hq hb
  revert hpost
  cases q b with
  | ok x b' =>
      rintro ⟨hb', hgrows, us, hus, hP⟩
      exact ⟨hb', hgrows, us, hus, rfl, hP⟩
  | error e b' =>
      exact id

/-- One step and then another. The first one need not make use of the whole limit. -/
theorem bindWithin (hload : b.load ≤ limit') (hle : limit' ≤ limit) (hq : Writes ts old limit' q P b)
    (hf : ∀ us x b', b'.load ≤ limit' → b.arena.Grows b'.arena →
      b.reading.rest = us ++ b'.reading.rest → P us x b' →
        Writes ts old limit (f x) (fun vs => Q (us ++ vs)) b') :
    Writes ts old limit (q >>= f) Q b := by
  intro hb
  have hpost := hq (hb.within hload (Nat.lt_of_le_of_lt hle hb.small))
  rw [bind_apply]
  revert hpost
  cases q b with
  | error e b' =>
      rintro ⟨hb', hgrows, hrest⟩
      exact ⟨hb'.within (Nat.le_trans hb'.load hle) hb.small, hgrows, hrest⟩
  | ok x b' =>
      rintro ⟨hb', hgrows, us, hus, hP⟩
      have hnext := hf us x b' hb'.load hgrows hus hP
        (hb'.within (Nat.le_trans hb'.load hle) hb.small)
      revert hnext
      dsimp only
      cases f x b' with
      | ok y b'' =>
          rintro ⟨hb'', hgrows', vs, hvs, hQ⟩
          exact ⟨hb'', hgrows.trans hgrows', us ++ vs, by rw [hus, hvs, List.append_assoc], hQ⟩
      | error e b'' =>
          rintro ⟨hb'', hgrows', hrest⟩
          refine ⟨hb'', hgrows.trans hgrows', hrest.trans ?_⟩
          rw [hus]
          exact List.suffix_append us _

/-- One step and then another. There will not be more expressions behind the first one. -/
theorem bind (hq : Writes ts old b.load q P b)
    (hf : ∀ us x b', b'.load ≤ b.load → b.arena.Grows b'.arena →
      b.reading.rest = us ++ b'.reading.rest → P us x b' →
        Writes ts old limit (f x) (fun vs => Q (us ++ vs)) b') :
    Writes ts old limit (q >>= f) Q b :=
  fun hb => bindWithin (Nat.le_refl _) hb.load hq hf hb

/-- A step whose result is only put into another form. -/
theorem andReturn {g : α → β} (hq : Writes ts old b.load q (fun us x b' => Q us (g x) b') b) :
    Writes ts old limit (q >>= fun x => Pure.pure (g x)) Q b := by
  refine hq.bind ?_
  intro us x b' _ _ _ hQ
  refine .pure ?_
  rw [List.append_nil]
  exact hQ

theorem map {g : α → β} (hq : Writes ts old b.load q (fun us x b' => Q us (g x) b') b) :
    Writes ts old limit (g <$> q) Q b := by
  rw [map_eq_pure_bind]
  exact hq.andReturn

theorem ite {c : Bool} {q' : Build α} (hq : c = true → Writes ts old limit q P b)
    (hq' : c = false → Writes ts old limit q' P b) :
    Writes ts old limit (if c then q else q') P b := by
  cases c with
  | false => exact hq' rfl
  | true => exact hq rfl

theorem fuelled {step : Nat → Build α} (hq : Writes ts old limit (step b.reading.fuel) P b) :
    Writes ts old limit (fuelled step) P b :=
  hq

theorem readFuelled (step : Nat → Parse α)
    (hq : Writes ts old limit (read (step b.reading.fuel)) P b) :
    Writes ts old limit (read (Parse.fuelled step)) P b :=
  hq

/-! ## Steps that add nothing -/

theorem fail {cause : SyntaxCause} : Writes ts old limit (Build.read (Parse.fail cause)) P b :=
  fun hb => ⟨hb, .refl _, List.suffix_refl _⟩

/-- A step that looks at the state. -/
theorem look {p : Parse α} {x : α} (hp : p b.reading = .ok x b.reading)
    (hf : Writes ts old limit (f x) Q b) : Writes ts old limit (Build.read p >>= f) Q b := by
  intro hb
  rw [bind_apply, Build.read, hp]
  exact hf hb

/-- A step that passes no token. -/
theorem note {p : Parse α} {x : α} {s : ParseState} (hp : p b.reading = .ok x s)
    (hrest : s.rest = b.reading.rest) (hf : Writes ts old limit (f x) Q { b with reading := s }) :
    Writes ts old limit (Build.read p >>= f) Q b := by
  intro hb
  have hpost := hf (hb.read (hrest ▸ List.suffix_refl _))
  rw [bind_apply, Build.read, hp]
  dsimp only at hpost ⊢
  rw [hrest] at hpost
  exact hpost

/-- A step that passes the token at hand. -/
theorem pass {p : Parse α} {x : α} (hrest : b.reading.rest ≠ [])
    (hp : p b.reading = .ok x b.reading.next)
    (hf : b.next.load + 1 = b.load →
      Writes ts old limit (f x) (fun us => Q (b.reading.current :: us)) b.next) :
    Writes ts old limit (Build.read p >>= f) Q b := by
  intro hb
  have hcons := BuildState.rest_eq_cons hrest
  have hsuffix : b.next.reading.rest <:+ b.reading.rest := by
    rw [hcons]
    exact List.suffix_cons _ _
  have hpost := hf (BuildState.load_next hrest) (hb.read hsuffix)
  rw [bind_apply, Build.read, hp]
  change match f x b.next with
    | .ok y b' => _
    | .error _ b' => _
  revert hpost
  cases f x b.next with
  | ok y b' =>
      rintro ⟨hb', hgrows, us, hus, hQ⟩
      exact ⟨hb', hgrows, b.reading.current :: us, by rw [hcons, hus]; rfl, hQ⟩
  | error e b' =>
      rintro ⟨hb', hgrows, hrest'⟩
      exact ⟨hb', hgrows, hrest'.trans hsuffix⟩

theorem peek {f : Token → Build β} (hf : Writes ts old limit (f b.reading.current) Q b) :
    Writes ts old limit (Build.read Parse.peek >>= f) Q b :=
  .look rfl hf

theorem check {kind : Kind} {f : Bool → Build β}
    (hf : Writes ts old limit (f (b.reading.current.kind == kind)) Q b) :
    Writes ts old limit (Build.read (Parse.check kind) >>= f) Q b :=
  .look rfl hf

theorem atEnd {f : Bool → Build β} (hf : Writes ts old limit (f b.reading.rest.isEmpty) Q b) :
    Writes ts old limit (Build.read Parse.atEnd >>= f) Q b :=
  .look rfl hf

theorem advance {f : Token → Build β} (hrest : b.reading.rest ≠ [])
    (hf : b.next.load + 1 = b.load →
      Writes ts old limit (f b.reading.current) (fun us => Q (b.reading.current :: us)) b.next) :
    Writes ts old limit (Build.read Parse.advance >>= f) Q b :=
  .pass hrest rfl hf

/-- If a token of the kind is at hand, it is one of the text and is passed. -/
theorem expect {kind : Kind} {what : Expectation} {f : Token → Build β} (hkind : kind ≠ .eof)
    (hf : b.reading.current.kind = kind → b.reading.current ∈ ts → b.next.load + 1 = b.load →
      Writes ts old limit (f b.reading.current) (fun us => Q (b.reading.current :: us)) b.next) :
    Writes ts old limit (Build.read (Parse.expect kind what) >>= f) Q b := by
  by_cases h : b.reading.current.kind = kind
  · have hrest := Parse.ne_nil_of_kind hkind h
    refine .given fun hb => .pass hrest ?_ (hf h (hb.current_mem hrest))
    simp [Parse.expect, h]
  · intro hb
    rw [bind_apply, Build.read, Parse.expect, if_neg (by simpa using h)]
    exact ⟨hb, .refl _, List.suffix_refl _⟩

theorem ident {what : Expectation} {f : Ident → Build β}
    (hf : b.reading.current.kind = .identifier → b.reading.current ∈ ts → b.next.load + 1 = b.load →
      Writes ts old limit (f b.reading.current.ident) (fun us => Q (b.reading.current :: us)) b.next) :
    Writes ts old limit (Build.read (Parse.ident what) >>= f) Q b := by
  by_cases h : b.reading.current.kind = .identifier
  · have hrest := Parse.ne_nil_of_kind (by decide) h
    refine .given fun hb => .pass hrest ?_ (hf h (hb.current_mem hrest))
    simp only [Parse.ident, Parse.bind_apply, Parse.expect, h, beq_self_eq_true, if_true]
    rfl
  · intro hb
    have hstop : Parse.ident what b.reading =
        .error ⟨.expected what, b.reading.current.span⟩ b.reading := by
      simp [Parse.ident, Parse.bind_apply, Parse.expect, h]
    rw [bind_apply, Build.read, hstop]
    exact ⟨hb, .refl _, List.suffix_refl _⟩

theorem accept {kind : Kind} {f : Bool → Build β} (hkind : kind ≠ .eof)
    (hyes : b.reading.current.kind = kind → b.next.load + 1 = b.load →
      Writes ts old limit (f true) (fun us => Q (b.reading.current :: us)) b.next)
    (hno : Writes ts old limit (f false) Q b) :
    Writes ts old limit (Build.read (Parse.accept kind) >>= f) Q b := by
  by_cases h : b.reading.current.kind = kind
  · refine .pass (Parse.ne_nil_of_kind hkind h) ?_ (hyes h)
    simp [Parse.accept, h]
  · refine .look ?_ hno
    simp [Parse.accept, h]

theorem counted {cause : SyntaxCause} {count : Nat} {f : Unit → Build β}
    (hf : ∀ s : ParseState, s.rest = b.reading.rest →
      Writes ts old limit (f ()) Q { b with reading := s }) :
    Writes ts old limit (Build.read (Parse.limit cause count) >>= f) Q b := by
  by_cases h : maxArguments ≤ count
  · exact .note (if_pos h) rfl (hf _ rfl)
  · exact .note (if_neg h) rfl (hf _ rfl)

/-! ## Steps that contain steps -/

theorem behind {kind : Kind} {T : Option α → Prop} (hkind : kind ≠ .eof) (hnone : T none)
    (hq : b.reading.current.kind = kind → b.next.load + 1 = b.load →
      Writes ts old b.next.load q (fun _ x _ => T (some x)) b.next) :
    Writes ts old limit (behind kind q) (fun _ x _ => T x) b :=
  .accept hkind (fun h hload => .map (hq h hload)) (.pure hnone)

theorem unlessAt {kind : Kind} {T : List Token → Option α → BuildState → Prop}
    (hnone : b.reading.current.kind = kind → T [] none b)
    (hq : Writes ts old b.load q (fun us x b' => T us (some x) b') b) :
    Writes ts old limit (unlessAt kind q) T b := by
  refine .check (.ite ?_ ?_)
  · intro h
    exact .pure (hnone (by simpa using h))
  · intro _
    exact .map hq

/-- After a mistake tokens are dropped, and what has been added stays. -/
theorem recover (hq : Writes ts old limit q (fun _ _ _ => True) b) :
    Writes ts old limit (recover q) (fun _ _ _ => True) b := by
  intro hb
  have hpost := hq hb
  unfold Build.recover
  revert hpost
  cases q b with
  | ok x b' =>
      exact id
  | error e b' =>
      rintro ⟨hb', hgrows, hrest⟩
      have hdropped : (b'.reading.record e).synchronize.rest <:+ b'.reading.rest :=
        ParseState.suffix_synchronize (b'.reading.record e)
      rcases hdropped.trans hrest with ⟨us, hus⟩
      exact ⟨hb'.read hdropped, hgrows, us, hus.symm, trivial⟩

/-! ## Steps that add nodes -/

/-- An expression is added that is written in the text. -/
theorem pushExpression {node : ExprNode} {span : Span} (hload : b.load + 1 ≤ limit)
    (hwritten : ∀ (c : Arena) (i : Index), b.arena.Grows c →
      c.expressions[i.toNat]? = some ⟨node, span⟩ → c.WrittenIn ts i) :
    Writes ts old limit (pushExpression node span) (fun us i b' => us = [] ∧
      b'.arena.expressions[i.toNat]? = some ⟨node, span⟩) b := by
  intro hb
  have hsmall : b.arena.expressions.size < UInt32.size := by
    have hlimit := hb.small
    unfold BuildState.load at hload
    omega
  have hgrows := Arena.grows_pushExpression b.arena ⟨node, span⟩
  have hentry : (b.arena.pushExpression ⟨node, span⟩).expressions[
      (UInt32.ofNat b.arena.expressions.size).toNat]? = some ⟨node, span⟩ := by
    rw [Arena.toNat_ofNat hsmall]
    exact Array.getElem?_push_size
  refine ⟨⟨hb.rest, ?_, hb.small, ?_, hb.adds.statements, hb.adds.functions⟩, hgrows, [], rfl, rfl,
    hentry⟩
  · unfold BuildState.load at hload ⊢
    simp only [Arena.pushExpression, Array.size_push]
    omega
  · intro i hold hi
    simp only [Arena.pushExpression, Array.size_push] at hi
    -- The last expression is the new one, and the others stay written as they are.
    by_cases hlast : i.toNat = b.arena.expressions.size
    · refine hwritten _ i hgrows ?_
      rw [hlast]
      exact Array.getElem?_push_size
    · exact (hb.adds.expressions i hold (by omega)).grows hgrows

/-- An expression is added that was read from tokens which stand together in the text. They are those that
are known to have been passed. -/
theorem pushSpelled {node : ExprNode} {span : Span} {passed : List Token → List Token} (us : List Token)
    (hpassed : ∀ vs, passed vs = us ++ vs) (hload : b.load + 1 ≤ limit) (hstretch : us <:+: ts)
    (hspells : ∀ (c : Arena) (i : Index), b.arena.Grows c →
      c.expressions[i.toNat]? = some ⟨node, span⟩ → c.Spells i us) :
    Writes ts old limit (Build.pushExpression node span) (fun vs i b' =>
      b'.arena.Spells i (passed vs)) b := by
  refine (Writes.pushExpression hload ?_).mono ?_
  · exact fun c i hgrows hentry => .spelled hstretch (hspells c i hgrows hentry)
  · rintro _ i b' hgrows ⟨rfl, hentry⟩
    rw [hpassed, List.append_nil]
    exact hspells b'.arena i hgrows hentry

theorem pushStatement {node : StmtNode} (h : node.WrittenIn ts) :
    Writes ts old limit (pushStatement node) (fun _ _ _ => True) b := by
  intro hb
  refine ⟨⟨hb.rest, hb.load, hb.small, ?_, ?_, hb.adds.functions⟩, Arena.grows_pushStatement _ _, [], rfl,
    trivial⟩
  · intro i hold hi
    exact (hb.adds.expressions i hold hi).grows (Arena.grows_pushStatement _ _)
  · intro n other hold hother
    simp only [Arena.pushStatement, Array.getElem?_push] at hother
    split at hother
    · cases hother
      exact h
    · exact hb.adds.statements n other hold hother

theorem pushFunction {routine : Routine Index} (h : routine.WrittenIn ts) :
    Writes ts old limit (pushFunction routine) (fun _ _ _ => True) b := by
  intro hb
  refine ⟨⟨hb.rest, hb.load, hb.small, ?_, hb.adds.statements, ?_⟩, Arena.grows_pushFunction _ _, [], rfl,
    trivial⟩
  · intro i hold hi
    exact (hb.adds.expressions i hold hi).grows (Arena.grows_pushFunction _ _)
  · intro n other hold hother
    simp only [Arena.pushFunction, Array.getElem?_push] at hother
    split at hother
    · cases hother
      exact h
    · exact hb.adds.functions n other hold hother

end Writes

end Build

end Lox
