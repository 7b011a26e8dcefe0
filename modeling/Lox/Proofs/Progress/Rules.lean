import Lox.Proofs.Grammar.Powers

/-!
# Reading goes on

Reading passes tokens and never goes back, and the mistakes that it records stand at tokens of the text.
`Parse.Walks` says this of two steps that do the same at a state; they may differ in what they would do
elsewhere. There is one rule for each step of reading and for each way to put steps together.
-/

namespace Lox

namespace ParseState

/-- The tokens that are left are among those of a text, and so is the end of the input. -/
structure Among (ts : List Token) (s : ParseState) : Prop where
  rest : ∀ t ∈ s.rest, t ∈ ts
  finish : Token.endAt s.finish ∈ ts

/-- Reading goes on from the first state to the second. It passes `u` tokens at least, and each mistake
that it records stands at a token of the text. -/
structure Onward (ts : List Token) (u : Nat) (s t : ParseState) : Prop where
  rest : t.rest <:+ s.rest
  length : t.rest.length + u ≤ s.rest.length
  finish : t.finish = s.finish
  errors : ∃ more, t.errors = s.errors ++ more ∧ ∀ e ∈ more, e.span ∈ ts.map Token.span

variable {ts : List Token} {u v : Nat} {s t w : ParseState}

theorem Among.current (h : s.Among ts) : s.current ∈ ts := by
  unfold ParseState.current
  cases hrest : s.rest with
  | nil =>
      exact h.finish
  | cons t rest =>
      exact h.rest t (by rw [hrest]; exact List.mem_cons_self)

theorem Among.span_current (h : s.Among ts) : s.current.span ∈ ts.map Token.span :=
  List.mem_map_of_mem h.current

namespace Onward

theorem among (h : s.Onward ts u t) (hs : s.Among ts) : t.Among ts :=
  ⟨fun token htoken => hs.rest token (h.rest.subset htoken), h.finish ▸ hs.finish⟩

theorem refl (ts : List Token) (s : ParseState) : s.Onward ts 0 s :=
  ⟨List.suffix_refl _, Nat.le_refl _, rfl, [], by simp, by simp⟩

theorem trans (h : s.Onward ts u t) (h' : t.Onward ts v w) : s.Onward ts (u + v) w := by
  have hlength := h.length
  have hlength' := h'.length
  rcases h.errors with ⟨more, hmore, hspans⟩
  rcases h'.errors with ⟨more', hmore', hspans'⟩
  refine ⟨h'.rest.trans h.rest, by omega, h'.finish.trans h.finish, more ++ more', ?_, ?_⟩
  · rw [hmore', hmore, List.append_assoc]
  · intro e he
    exact (List.mem_append.mp he).elim (hspans e) (hspans' e)

theorem less (h : s.Onward ts u t) (hv : v ≤ u) : s.Onward ts v t :=
  ⟨h.rest, Nat.le_trans (Nat.add_le_add_left hv _) h.length, h.finish, h.errors⟩

theorem next (ts : List Token) (hrest : s.rest ≠ []) : s.Onward ts 1 s.next := by
  refine ⟨List.tail_suffix _, ?_, rfl, [], by simp [ParseState.next], by simp⟩
  have hpos : 0 < s.rest.length := List.length_pos_iff.mpr hrest
  simp only [ParseState.next, List.length_tail]
  omega

theorem record {e : SyntaxError} (h : e.span ∈ ts.map Token.span) : s.Onward ts 0 (s.record e) :=
  ⟨List.suffix_refl _, Nat.le_refl _, rfl, [e], rfl, by simpa using h⟩

end Onward

end ParseState

namespace Parse

variable {α β : Type} {ts : List Token} {u v : Nat} {p p' : Parse α} {s : ParseState}

/-- At a state of a text two steps do the same and go on. If there is a result, `u` tokens at least are
passed; otherwise the mistake stands at a token of the text. -/
def Walks (ts : List Token) (u : Nat) (p p' : Parse α) (s : ParseState) : Prop :=
  s.Among ts → p s = p' s ∧
    match p' s with
    | .ok _ t => s.Onward ts u t
    | .error e t => s.Onward ts 0 t ∧ e.span ∈ ts.map Token.span

namespace Walks

theorem eq (h : Walks ts u p p' s) (hs : s.Among ts) : p s = p' s :=
  (h hs).1

theorem onward {a : α} {t : ParseState} (h : Walks ts u p p' s) (hs : s.Among ts)
    (hrun : p' s = .ok a t) : s.Onward ts u t := by
  have hresult := (h hs).2
  rw [hrun] at hresult
  exact hresult

theorem stopped {e : SyntaxError} {t : ParseState} (h : Walks ts u p p' s) (hs : s.Among ts)
    (hrun : p' s = .error e t) : s.Onward ts 0 t ∧ e.span ∈ ts.map Token.span := by
  have hresult := (h hs).2
  rw [hrun] at hresult
  exact hresult

theorem self (h : Walks ts u p p' s) : Walks ts u p' p' s :=
  fun hs => ⟨rfl, (h hs).2⟩

theorem of_ok {a : α} {t : ParseState} (hrun : p s = .ok a t) (h : s.Onward ts u t) :
    Walks ts u p p s := by
  intro _
  refine ⟨rfl, ?_⟩
  rw [hrun]
  exact h

/-! ## Putting steps together -/

theorem pure (a : α) : Walks ts 0 (Pure.pure a) (Pure.pure a) s :=
  .of_ok rfl (.refl ts s)

/-- Less may be known of a step. -/
theorem less (h : Walks ts u p p' s) (hv : v ≤ u) : Walks ts v p p' s := by
  intro hs
  refine ⟨h.eq hs, ?_⟩
  cases hrun : p' s with
  | ok a t =>
      exact (h.onward hs hrun).less hv
  | error e t =>
      exact h.stopped hs hrun

/-- One step and then another, which passes what is left to be passed. -/
theorem bind {f f' : α → Parse β} (hp : Walks ts u p p' s)
    (hf : ∀ a t, p' s = .ok a t → t.rest.length + u ≤ s.rest.length →
      Walks ts (v - u) (f a) (f' a) t) : Walks ts v (p >>= f) (p' >>= f') s := by
  intro hs
  rw [bind_apply, bind_apply, hp.eq hs]
  cases hrun : p' s with
  | error e t =>
      exact ⟨rfl, hp.stopped hs hrun⟩
  | ok a t =>
      have honward := hp.onward hs hrun
      -- The second step begins where the first one has stopped, at a state of the same text.
      have hnext : Walks ts (v - u) (f a) (f' a) t := hf a t hrun honward.length
      have ht : t.Among ts := honward.among hs
      refine ⟨hnext.eq ht, ?_⟩
      dsimp only
      cases hrun' : f' a t with
      | ok b w =>
          exact (honward.trans (hnext.onward ht hrun')).less (by omega)
      | error e w =>
          rcases hnext.stopped ht hrun' with ⟨honward', hspan⟩
          exact ⟨(honward.trans honward').less (Nat.zero_le _), hspan⟩

/-- A step whose result is only put into another form. -/
theorem andReturn {f : α → β} (hp : Walks ts u p p' s) :
    Walks ts u (p >>= fun a => Pure.pure (f a)) (p' >>= fun a => Pure.pure (f a)) s :=
  hp.bind fun _ _ _ _ => by
    rw [Nat.sub_self]
    exact .pure _

theorem map {f : α → β} (hp : Walks ts u p p' s) : Walks ts u (f <$> p) (f <$> p') s := by
  rw [map_eq_pure_bind, map_eq_pure_bind]
  exact hp.andReturn

theorem ite {b : Bool} {q q' : Parse α} (hp : b = true → Walks ts u p p' s)
    (hq : b = false → Walks ts u q q' s) :
    Walks ts u (if b then p else q) (if b then p' else q') s := by
  cases b with
  | false => exact hq rfl
  | true => exact hp rfl

/-! ## Steps that look at the token at hand -/

theorem peek {f f' : Token → Parse β} (h : Walks ts u (f s.current) (f' s.current) s) :
    Walks ts u (Parse.peek >>= f) (Parse.peek >>= f') s :=
  h

theorem check {kind : Kind} {f f' : Bool → Parse β}
    (h : Walks ts u (f (s.current.kind == kind)) (f' (s.current.kind == kind)) s) :
    Walks ts u (Parse.check kind >>= f) (Parse.check kind >>= f') s :=
  h

theorem atEnd {f f' : Bool → Parse β} (h : Walks ts u (f s.rest.isEmpty) (f' s.rest.isEmpty) s) :
    Walks ts u (Parse.atEnd >>= f) (Parse.atEnd >>= f') s :=
  h

theorem fail (cause : SyntaxCause) : Walks ts u (Parse.fail cause : Parse α) (Parse.fail cause) s :=
  fun hs => ⟨rfl, .refl ts s, hs.span_current⟩

theorem limit (cause : SyntaxCause) (count : Nat) :
    Walks ts 0 (Parse.limit cause count) (Parse.limit cause count) s := by
  intro hs
  refine ⟨rfl, ?_⟩
  unfold Parse.limit
  split
  · rename_i hrun
    split at hrun
    · cases hrun
      exact .record hs.span_current
    · cases hrun
      exact .refl ts s
  · rename_i hrun
    split at hrun <;> cases hrun

/-! ## Steps that pass tokens -/

theorem advance (hrest : s.rest ≠ []) : Walks ts 1 Parse.advance Parse.advance s :=
  .of_ok rfl (.next ts hrest)

theorem expect {kind : Kind} (hkind : kind ≠ .eof) (what : Expectation) :
    Walks ts 1 (Parse.expect kind what) (Parse.expect kind what) s := by
  by_cases h : s.current.kind = kind
  · have hexpect : Parse.expect kind what s = .ok s.current s.next := by simp [Parse.expect, h]
    exact .of_ok hexpect (.next ts (ne_nil_of_kind hkind h))
  · intro hs
    refine ⟨rfl, ?_⟩
    rw [Parse.expect, if_neg (by simpa using h)]
    exact ⟨.refl ts s, hs.span_current⟩

theorem ident (what : Expectation) : Walks ts 1 (Parse.ident what) (Parse.ident what) s :=
  (Walks.expect (by decide) what).andReturn

/-- If the token at hand is accepted, it is passed. -/
theorem accept {kind : Kind} {f f' : Bool → Parse β} (hkind : kind ≠ .eof)
    (hyes : s.next.rest.length + 1 ≤ s.rest.length → Walks ts u (f true) (f' true) s.next)
    (hno : Walks ts u (f false) (f' false) s) :
    Walks ts u (Parse.accept kind >>= f) (Parse.accept kind >>= f') s := by
  by_cases h : s.current.kind = kind
  · have hnext := ParseState.Onward.next ts (ne_nil_of_kind hkind h)
    have haccept : Parse.accept kind s = .ok true s.next := by simp [Parse.accept, h]
    have hwalks : Walks ts 1 (Parse.accept kind) (Parse.accept kind) s := .of_ok haccept hnext
    refine hwalks.bind ?_
    intro b t hrun hlength
    rw [haccept] at hrun
    cases hrun
    exact (hyes hlength).less (Nat.sub_le u 1)
  · intro hs
    have haccept : Parse.accept kind s = .ok false s := by simp [Parse.accept, h]
    rw [bind_of_ok f haccept, bind_of_ok f' haccept]
    exact hno hs

/-! ## Steps that give numbers and record mistakes -/

theorem node (span : Span) : Walks ts 0 (Parse.node span) (Parse.node span) s :=
  .of_ok rfl ⟨List.suffix_refl _, Nat.le_refl _, rfl, [], by simp, by simp⟩

theorem reference (name : Ident) : Walks ts 0 (Parse.reference name) (Parse.reference name) s :=
  .of_ok rfl ⟨List.suffix_refl _, Nat.le_refl _, rfl, [], by simp, by simp⟩

theorem record {place : Span} (cause : SyntaxCause) (h : place ∈ ts.map Token.span) :
    Walks ts 0 (Parse.record cause place) (Parse.record cause place) s :=
  .of_ok rfl (.record h)

/-! ## Steps that contain steps -/

theorem behind {kind : Kind} (hkind : kind ≠ .eof)
    (hp : s.next.rest.length + 1 ≤ s.rest.length → Walks ts 0 p p' s.next) :
    Walks ts 0 (Parse.behind kind p) (Parse.behind kind p') s :=
  .accept hkind (fun hlength => (hp hlength).map) (.pure none)

theorem unlessAt {kind : Kind} (hp : Walks ts 0 p p' s) :
    Walks ts 0 (Parse.unlessAt kind p) (Parse.unlessAt kind p') s :=
  .check (.ite (fun _ => .pure none) fun _ => hp.map)

theorem fuelled {step : Nat → Parse α} (h : Walks ts u p (step s.fuel) s) :
    Walks ts u p (Parse.fuelled step) s :=
  h

end Walks

end Parse

/-! ## After a mistake -/

namespace ParseState

theorem suffix_resume (previous : Token) (ts : List Token) : resume previous ts <:+ ts := by
  induction ts generalizing previous with
  | nil =>
      exact List.suffix_refl []
  | cons t ts ih =>
      unfold resume
      split
      · exact List.suffix_refl _
      · exact (ih t).trans (List.suffix_cons t ts)

theorem suffix_synchronize (s : ParseState) : s.synchronize.rest <:+ s.rest := by
  unfold synchronize
  split
  · exact List.suffix_refl _
  · rename_i t rest hrest
    rw [hrest]
    exact (suffix_resume t rest).trans (List.suffix_cons t rest)

theorem errors_synchronize (s : ParseState) : s.synchronize.errors = s.errors := by
  unfold synchronize
  split <;> rfl

theorem finish_synchronize (s : ParseState) : s.synchronize.finish = s.finish := by
  unfold synchronize
  split <;> rfl

/-- Where reading can go on behind some tokens: no token is left, the last one was a semicolon, or the
next one begins a statement. -/
def Resumes (before after : List Token) : Prop :=
  after = [] ∨ (∃ front token, before = front ++ token :: after ∧ token.kind = .semicolon) ∨
    ∃ token rest, after = token :: rest ∧ token.kind.startsStatement = true

theorem Resumes.suffix {ts before after : List Token} (h : Resumes before after)
    (hts : before <:+ ts) : Resumes ts after := by
  refine h.imp_right (Or.imp_left ?_)
  rintro ⟨front, token, rfl, hkind⟩
  rcases hts with ⟨outer, rfl⟩
  exact ⟨outer ++ front, token, (List.append_assoc outer front _).symm, hkind⟩

theorem resumes_resume (previous : Token) (ts : List Token) :
    Resumes (previous :: ts) (resume previous ts) := by
  induction ts generalizing previous with
  | nil =>
      exact .inl rfl
  | cons t ts ih =>
      unfold resume
      split
      · rename_i h
        rcases Bool.or_eq_true_iff.mp h with hkind | hkind
        · exact .inr (.inl ⟨[], previous, rfl, by simpa using hkind⟩)
        · exact .inr (.inr ⟨t, ts, rfl, hkind⟩)
      · exact (ih t).suffix (List.suffix_cons previous (t :: ts))

theorem resumes_synchronize (s : ParseState) : Resumes s.rest s.synchronize.rest := by
  unfold synchronize
  split
  · rename_i hrest
    exact .inl hrest
  · rename_i t rest hrest
    rw [hrest]
    exact resumes_resume t rest

end ParseState

namespace Parse.Walks

variable {α : Type} {ts : List Token} {p p' : Parse α} {s : ParseState}

/-- After a mistake at least one token is dropped. -/
theorem recover (hrest : s.rest ≠ []) (hp : Walks ts 1 p p' s) :
    Walks ts 1 (Parse.recover p) (Parse.recover p') s := by
  intro hs
  unfold Parse.recover
  rw [hp.eq hs]
  refine ⟨rfl, ?_⟩
  cases hrun : p' s with
  | ok a t =>
      exact hp.onward hs hrun
  | error e t =>
      rcases hp.stopped hs hrun with ⟨honward, hspan⟩
      -- To record the mistake passes no token, and what is dropped then is a token at least.
      have hrecord : s.Onward ts (0 + 0) (t.record e) := honward.trans (.record hspan)
      have hlength := honward.length
      have hdropped := (t.record e).length_synchronize
      have hpos : 0 < s.rest.length := List.length_pos_iff.mpr hrest
      rcases hrecord.errors with ⟨more, hmore, hspans⟩
      refine ⟨(ParseState.suffix_synchronize _).trans hrecord.rest, ?_, ?_, more, ?_, hspans⟩
      · simp only [ParseState.record] at hdropped ⊢
        omega
      · rw [ParseState.finish_synchronize, hrecord.finish]
      · rw [ParseState.errors_synchronize, hmore]

/-- If a step has no result because of a mistake, reading goes on where it can. -/
theorem resumes {t : ParseState} (hp : Walks ts 1 p p' s) (hs : s.Among ts)
    (hrun : Parse.recover p' s = .ok none t) : ParseState.Resumes s.rest t.rest := by
  unfold Parse.recover at hrun
  cases hstep : p' s with
  | ok a w =>
      rw [hstep] at hrun
      cases hrun
  | error e w =>
      rw [hstep] at hrun
      cases hrun
      exact (ParseState.resumes_synchronize (w.record e)).suffix (hp.stopped hs hstep).1.rest

end Parse.Walks

end Lox
