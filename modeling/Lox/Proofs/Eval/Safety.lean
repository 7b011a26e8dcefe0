import Lox.Proofs.Eval.Binding
import Lox.Proofs.Eval.World

/-!
# Evaluation keeps frames and scopes together

The contract of evaluation: an expression or a statement is begun in a frame that stands where
resolution visited it, on a store whose values fit, and at the end the values still fit and the store
has only grown. `World.kept` proves that every round of every task keeps the contract.

The rules are those of the steps of evaluation in their order: `World.Safe` is what a step has to
keep, and there is one lemma for each step.
-/

namespace Lox

variable {α β : Type}

namespace World

/-- Expressions that are visited with the given scopes inside the given class. -/
def Visits (W : World) (owner : Option ClassDecl) (scopes : Scopes) (es : List Expr) : Prop :=
  ∀ e ∈ es, (⟨e, owner, scopes⟩ : Visit) ∈ W.visits

/-- What is promised of the flow at the end of a statement: if it is normal, the frame binds the name
that the statement declares. -/
def FlowFits (W : World) (frame : FrameId) (s : Stmt) (t : Store) : Flow → Prop
  | .returned value => W.Fits t value
  | .normal => ∀ name ∈ s.declares?, (t.value? frame name.name).isSome = true

/-- How a step ends that was begun on a store: the values fit, the store has grown, and the result is
as `Q` says. -/
def Ended (W : World) (before : Store) (Q : α → Store → Prop) (r : Except Fault α) (m : Machine) :
    Prop :=
  W.StoreFits m.store ∧ before.Grows m.store ∧ ∀ a, r = .ok a → Q a m.store

/-- An expression may be evaluated. -/
def MayEvaluate (W : World) (s : Store) (frame : FrameId) (e : Expr) : Prop :=
  ∃ owner scopes, W.Visits owner scopes e.parts ∧ W.Stands s frame owner scopes

/-- A statement may be executed. -/
def MayExecute (W : World) (s : Store) (frame : FrameId) (stmt : Stmt) : Prop :=
  ∃ owner scopes, (∀ v ∈ stmt.visits owner scopes, v ∈ W.visits) ∧ W.Sound stmt.parts ∧
    W.Hosts s frame owner scopes

/-- The contract of evaluation. -/
def contract (W : World) : Contract where
  before
    | .evaluate frame e, m => W.StoreFits m.store ∧ W.MayEvaluate m.store frame e
    | .execute frame s, m => W.StoreFits m.store ∧ W.MayExecute m.store frame s
  after
    | .evaluate _ _, m, r, m' => W.Ended m.store (fun value t => W.Fits t value) r m'
    | .execute frame s, m, r, m' => W.Ended m.store (fun flow t => W.FlowFits frame s t flow) r m'

/-- The store of a machine grows to that of another. -/
def Growth (m m' : Machine) : Prop :=
  m.store.Grows m'.store

theorem Growth.trans (a b c : Machine) (hab : Growth a b) (hbc : Growth b c) : Growth a c :=
  Store.Grows.trans hab hbc

/-- What a step that is taken on `m` has to keep. The store grows all the way. -/
structure Safe (W : World) (setting : Setting) (m : Machine) (x : Eval α) (Q : α → Store → Prop) :
    Prop where
  meets : (x setting m).Meets setting W.contract (W.Ended m.store Q)
  rises : (x setting m).Rises setting W.contract Growth m

variable {W : World} {setting : Setting} {m : Machine} {x : Eval α} {Q R : α → Store → Prop}

/-! ## Rules -/

namespace Ended

variable {before : Store} {a : α}

theorem ok (h : W.StoreFits m.store) (hgrows : before.Grows m.store) (hq : Q a m.store) :
    W.Ended before Q (.ok a) m := by
  refine ⟨h, hgrows, ?_⟩
  intro b heq
  cases heq
  exact hq

/-- After a fault nothing is promised of a result. -/
theorem error {fault : Fault} (h : W.StoreFits m.store) (hgrows : before.Grows m.store) :
    W.Ended before Q (.error fault) m := by
  refine ⟨h, hgrows, ?_⟩
  intro b heq
  cases heq

end Ended

namespace Safe

/-- A step that asks for nothing. -/
theorem of_ended {r : Except Fault α} {m' : Machine} (hx : x setting m = .ended r m')
    (h : W.Ended m.store Q r m') : W.Safe setting m x Q := by
  refine ⟨?_, ?_⟩
  · rw [hx]
    exact h
  · rw [hx]
    exact h.2.1

theorem pure {a : α} (h : W.StoreFits m.store) (hq : Q a m.store) :
    W.Safe setting m (Pure.pure a) Q :=
  .of_ended rfl (.ok h (.refl _) hq)

theorem fail {cause : FaultCause} {place : Span} (h : W.StoreFits m.store) :
    W.Safe setting m (Eval.fail cause place) Q :=
  .of_ended rfl (.error h (.refl _))

theorem mono (hx : W.Safe setting m x Q)
    (h : ∀ a t, W.StoreFits t → m.store.Grows t → Q a t → R a t) : W.Safe setting m x R := by
  refine ⟨hx.meets.mono ?_, hx.rises⟩
  intro r m' hpost
  rcases hpost with ⟨hfits, hgrows, hq⟩
  exact ⟨hfits, hgrows, fun a ha => h a m'.store hfits hgrows (hq a ha)⟩

/-- A step that is taken in `B` ends as it should. -/
theorem ends {B : Task → Machine → Prop} (hkept : W.contract.Kept setting B)
    (hclosed : Closed setting B) (hx : W.Safe setting m x Q)
    (hasks : ∀ task m', (x setting m).Asks setting task m' → B task m') {r : Except Fault α}
    {m' : Machine} (hends : x.Ends setting m r m') : W.Ended m.store Q r m' := by
  rcases hends with ⟨fuel, hrun⟩
  refine hx.meets.run ?_ hrun
  intro task m₁ r₁ m₂ hasked hbefore hperform
  exact hkept.perform hclosed (hasks task m₁ hasked) hbefore hperform

/-- The first step, where it is left, has ended there. -/
theorem bind_ends {f : α → Eval β} {T : β → Store → Prop} (hx : W.Safe setting m x Q)
    (hf : ∀ a m', x.Ends setting m (.ok a) m' → W.StoreFits m'.store → m.store.Grows m'.store →
      Q a m'.store → W.Safe setting m' (f a) T) : W.Safe setting m (x >>= f) T := by
  have hends := hx.meets.and_ends
  refine ⟨Course.Meets.bind (hends.mono ?_), hx.rises.bind Growth.trans (hends.mono ?_)⟩
  · intro r m' hpost
    rcases hpost with ⟨hends, hfits, hgrows, hq⟩
    cases r with
    | error fault =>
        exact .error hfits hgrows
    | ok a =>
        refine (hf a m' hends hfits hgrows (hq a rfl)).meets.mono ?_
        intro r' m'' hpost
        rcases hpost with ⟨hfits', hgrows', ht⟩
        exact ⟨hfits', hgrows.trans hgrows', ht⟩
  · intro r m' hpost
    rcases hpost with ⟨hends, hfits, hgrows, hq⟩
    cases r with
    | error fault => trivial
    | ok a => exact (hf a m' hends hfits hgrows (hq a rfl)).rises

theorem bind {f : α → Eval β} {T : β → Store → Prop} (hx : W.Safe setting m x Q)
    (hf : ∀ a m', W.StoreFits m'.store → m.store.Grows m'.store → Q a m'.store →
      W.Safe setting m' (f a) T) : W.Safe setting m (x >>= f) T :=
  hx.bind_ends fun a m' _ => hf a m'

theorem map {f : α → β} {T : β → Store → Prop} (hx : W.Safe setting m x Q)
    (h : ∀ a t, Q a t → T (f a) t) : W.Safe setting m (f <$> x) T :=
  hx.bind fun a m' hfits _ hq => .pure hfits (h a m'.store hq)

/-- A look at the store changes nothing. -/
theorem read {place : Span} {look : Store → Except FaultCause α} (h : W.StoreFits m.store)
    (hlook : ∀ a, look m.store = .ok a → Q a m.store) :
    W.Safe setting m (Eval.read place look) Q := by
  cases hresult : look m.store with
  | error cause =>
      have hx : Eval.read place look setting m = .ended (.error ⟨cause, place⟩) m := by
        simp only [Eval.read, hresult]
      exact .of_ended hx (.error h (.refl _))
  | ok a =>
      have hx : Eval.read place look setting m = .ended (.ok a) m := by
        simp only [Eval.read, hresult]
      exact .of_ended hx (.ok h (.refl _) (hlook a hresult))

theorem change {step : Store → Store} {Q : Unit → Store → Prop} (h : W.StoreFits (step m.store))
    (hgrows : m.store.Grows (step m.store)) (hq : Q () (step m.store)) :
    W.Safe setting m (Eval.change step) Q :=
  .of_ended rfl ⟨h, hgrows, fun _ _ => hq⟩

theorem tryChange {place : Span} {step : Store → Except FaultCause Store} {Q : Unit → Store → Prop}
    (h : W.StoreFits m.store)
    (hstep : ∀ t, step m.store = .ok t → W.StoreFits t ∧ m.store.Grows t ∧ Q () t) :
    W.Safe setting m (Eval.tryChange place step) Q := by
  cases hresult : step m.store with
  | error cause =>
      have hx : Eval.tryChange place step setting m = .ended (.error ⟨cause, place⟩) m := by
        simp only [Eval.tryChange, hresult]
      exact .of_ended hx (.error h (.refl _))
  | ok t =>
      have hx : Eval.tryChange place step setting m = .ended (.ok ()) { m with store := t } := by
        simp only [Eval.tryChange, hresult]
      rcases hstep t hresult with ⟨hfits, hgrows, hq⟩
      exact .of_ended hx ⟨hfits, hgrows, fun _ _ => hq⟩

theorem create {step : Store → α × Store} (h : W.StoreFits (step m.store).2)
    (hgrows : m.store.Grows (step m.store).2) (hq : Q (step m.store).1 (step m.store).2) :
    W.Safe setting m (Eval.create step) Q :=
  .of_ended rfl (.ok h hgrows hq)

theorem print {line : String} {Q : Unit → Store → Prop} (h : W.StoreFits m.store)
    (hq : Q () m.store) : W.Safe setting m (Eval.print line) Q :=
  .of_ended rfl ⟨h, .refl _, fun _ _ => hq⟩

theorem distance? {id : Nat} (h : W.StoreFits m.store) :
    W.Safe setting m (Eval.distance? id) fun _ _ => True :=
  .of_ended rfl ⟨h, .refl _, fun _ _ => trivial⟩

theorem globals (h : W.StoreFits m.store) :
    W.Safe setting m Eval.globals fun _ _ => True :=
  .of_ended rfl ⟨h, .refl _, fun _ _ => trivial⟩

theorem readClock {place : Span} (h : W.StoreFits m.store) :
    W.Safe setting m (Eval.readClock place) fun value t => W.Fits t value := by
  cases hclock : setting.clock m.readings with
  | error reason =>
      have hx : Eval.readClock place setting m =
          .ended (.error ⟨.nativeFailure Store.clockName reason, place⟩)
            { m with readings := m.readings + 1 } := by
        simp only [Eval.readClock, hclock]
      exact .of_ended hx (.error h (.refl _))
  | ok seconds =>
      have hx : Eval.readClock place setting m =
          .ended (.ok (.number seconds)) { m with readings := m.readings + 1 } := by
        simp only [Eval.readClock, hclock]
      exact .of_ended hx (.ok h (.refl _) trivial)

theorem nested {place : Span} (h : W.StoreFits m.store)
    (hx : m.depth < maxDepth → W.Safe setting { m with depth := m.depth + 1 } x Q) :
    W.Safe setting m (Eval.nested place x) Q := by
  by_cases hdepth : maxDepth ≤ m.depth
  · exact .of_ended (if_pos hdepth) (.error h (.refl _))
  · have hnested : Eval.nested place x setting m =
        (x setting { m with depth := m.depth + 1 }).atEnd Eval.leave := if_neg hdepth
    have hx' := hx (Nat.lt_of_not_le hdepth)
    have hends : (x setting { m with depth := m.depth + 1 }).Meets setting W.contract
        fun r m' => W.Ended m.store Q r (Eval.leave m') := hx'.meets
    have hleave : ∀ a b, Growth a b → Growth a (Eval.leave b) := fun _ _ h => h
    have henter : Growth m { m with depth := m.depth + 1 } := .refl _
    refine ⟨?_, ?_⟩
    · rw [hnested]
      exact hends.atEnd
    · rw [hnested]
      exact (hx'.rises.atEnd hleave).since Growth.trans henter

end Safe

/-! ## Tasks -/

variable {frame : FrameId} {owner : Option ClassDecl} {scopes : Scopes}

theorem Visits.left {es fs : List Expr} (h : W.Visits owner scopes (es ++ fs)) :
    W.Visits owner scopes es :=
  fun e he => h e (List.mem_append_left _ he)

theorem Visits.right {es fs : List Expr} (h : W.Visits owner scopes (es ++ fs)) :
    W.Visits owner scopes fs :=
  fun e he => h e (List.mem_append_right _ he)

theorem safe_evaluate {e : Expr} (h : W.StoreFits m.store) (hvisits : W.Visits owner scopes e.parts)
    (hstands : W.Stands m.store frame owner scopes) :
    W.Safe setting m (Eval.evaluate frame e) fun value t => W.Fits t value :=
  ⟨⟨⟨h, owner, scopes, hvisits, hstands⟩, fun _ _ _ hafter => hafter⟩,
    .refl _, fun _ _ _ _ => .refl _⟩

theorem safe_execute {s : Stmt} (h : W.StoreFits m.store)
    (hvisits : ∀ v ∈ s.visits owner scopes, v ∈ W.visits) (hsound : W.Sound s.parts)
    (hhosts : W.Hosts m.store frame owner scopes) :
    W.Safe setting m (Eval.execute frame s) fun flow t => W.FlowFits frame s t flow :=
  ⟨⟨⟨h, owner, scopes, hvisits, hsound, hhosts⟩, fun _ _ _ hafter => hafter⟩,
    .refl _, fun _ _ _ _ => .refl _⟩

theorem safe_evaluateAll {es : List Expr} : ∀ {m : Machine}, W.StoreFits m.store →
    W.Visits owner scopes (Expr.partsAll es) → W.Stands m.store frame owner scopes →
      W.Safe setting m (Eval.evaluateAll frame es) fun values t => ∀ v ∈ values, W.Fits t v := by
  induction es with
  | nil =>
      intro m h _ _
      exact .pure h fun _ hv => nomatch hv
  | cons e es ih =>
      intro m h hvisits hstands
      rw [Eval.evaluateAll]
      refine (safe_evaluate h hvisits.left hstands).bind ?_
      intro value m₁ h₁ hg₁ hvalue
      refine (ih h₁ hvisits.right (hstands.grows hg₁)).bind ?_
      intro values m₂ h₂ hg₂ hvalues
      refine .pure h₂ ?_
      intro v hv
      rcases List.mem_cons.mp hv with rfl | hv
      · exact hvalue.grows hg₂
      · exact hvalues v hv

theorem safe_evaluateOption {e? : Option Expr} (h : W.StoreFits m.store)
    (hvisits : ∀ v ∈ Expr.visitsOption owner scopes e?, v ∈ W.visits)
    (hstands : W.Stands m.store frame owner scopes) :
    W.Safe setting m (Eval.evaluateOption frame e?) fun value t => W.Fits t value := by
  cases e? with
  | none =>
      exact .pure h trivial
  | some e =>
      refine safe_evaluate h ?_ hstands
      intro part hpart
      exact hvisits _ (List.mem_map_of_mem hpart)

/-- The statements of a block or a body follow each other in the scopes that they extend. -/
theorem safe_executeAll {ss : List Stmt} : ∀ {m : Machine} {scopes : Scopes}, W.StoreFits m.store →
    (∀ v ∈ Stmt.visitsAll owner scopes ss, v ∈ W.visits) → W.Sound (Stmt.partsAll ss) →
    W.Hosts m.store frame owner scopes →
      W.Safe setting m (Eval.executeAll frame ss) fun flow t =>
        ∀ value, flow = .returned value → W.Fits t value := by
  induction ss with
  | nil =>
      intro m scopes h _ _ _
      exact .pure h fun _ hflow => nomatch hflow
  | cons s ss ih =>
      intro m scopes h hvisits hsound hhosts
      have hfirst : ∀ v ∈ s.visits owner scopes, v ∈ W.visits :=
        fun v hv => hvisits v (List.mem_append_left _ hv)
      rw [Eval.executeAll]
      refine (safe_execute h hfirst hsound.left hhosts).bind ?_
      intro flow m₁ h₁ hg₁ hflow
      cases flow with
      | returned value =>
          refine .pure h₁ ?_
          intro v heq
          cases heq
          exact hflow
      | normal =>
          refine ih h₁ (fun v hv => hvisits v (List.mem_append_right _ hv)) hsound.right ?_
          have hhosts₁ := hhosts.grows hg₁
          rw [Stmt.extend_of_plain scopes s hsound.left.sound.plain]
          cases hdeclares : s.declares? with
          | none =>
              exact hhosts₁
          | some name =>
              have hword : name.IsWord := by
                refine hsound.left.sound.words s (Stmt.mem_parts_self s) name ?_
                exact Stmt.mem_idents_of_declares? hdeclares
              exact hhosts₁.define hword (hflow name hdeclares)

end World

end Lox
