import Mathlib.Logic.Relation
import Lox.Eval.Outcome
import Lox.Proofs.Store.Growth

/-!
# The laws of frames

The frames of a store form a tree, and they are shared: a write through one frame is seen through every
frame inside it. The laws say what each pair of a writer and an observer can see of each other. They are
stated with the nearest frame that binds a name, said without the search for it, and hold of every store
that the calls of the frames can lead to from an empty one.

Main statement: `lawful_of_reached`.
-/

namespace Lox

namespace Store

/-! ## Calls -/

/-- The calls that can change the frames. -/
inductive Operation
  | newRoot
  | newGlobals
  | newScope (f : FrameId)
  | define (f : FrameId) (name : String) (value : Value)
  | assign (f : FrameId) (name : String) (value : Value)
  | assignAt (f : FrameId) (distance : Nat) (name : String) (value : Value)

namespace Operation

/-- The frame that a call goes through. -/
def handle? : Operation → Option FrameId
  | .newRoot => none
  | .newGlobals => none
  | .newScope f => some f
  | .define f _ _ => some f
  | .assign f _ _ => some f
  | .assignAt f _ _ _ => some f

/-- What a call makes of a store, unless it fails. -/
def perform : Operation → Store → Except FaultCause Store
  | .newRoot, s => .ok s.newRoot.2
  | .newGlobals, s => .ok s.newGlobals.2
  | .newScope f, s => .ok (s.newScope f).2
  | .define f name value, s => .ok (s.define f name value)
  | .assign f name value, s => s.assign f name value
  | .assignAt f distance name value, s => s.assignAt f distance name value

end Operation

/-- A call through a frame that is there makes `t` of `s`. -/
def Step (s t : Store) : Prop :=
  ∃ o : Operation, (∀ f ∈ o.handle?, f < s.frames.size) ∧ o.perform s = .ok t

/-- Any number of calls make `t` of `s`. -/
def Becomes : Store → Store → Prop :=
  Relation.ReflTransGen Step

/-- Calls make the store, beginning with nothing. -/
def Reached (s : Store) : Prop :=
  Becomes empty s

/-! ## What the laws speak about -/

/-- The nearest frame that binds a name stands `d` steps out, and it is `g`. -/
structure Nearest (s : Store) (f : FrameId) (name : String) (d : Nat) (g : FrameId) : Prop where
  stands : s.ancestor? f d = some g
  bound : (s.value? g name).isSome = true
  first : ∀ e g', e < d → s.ancestor? f e = some g' → s.value? g' name = none

/-- The only difference between two stores is the value of one name in one frame. -/
structure Writes (s t : Store) (g : FrameId) (name : String) (value : Value) : Prop where
  size : t.frames.size = s.frames.size
  ancestor? : ∀ f d, t.ancestor? f d = s.ancestor? f d
  written : t.value? g name = some value
  kept : ∀ f other, ¬(f = g ∧ other = name) → t.value? f other = s.value? f other
  fields : t.fields = s.fields
  nextId : t.nextId = s.nextId

/-- The laws of a store, for all its frames `f` and `k`, the writer's and the observer's. -/
structure Lawful (s : Store) : Prop where
  /-- The chain of a frame is finite: with each step out the frames are older. -/
  finite : ∀ f d g, f < s.frames.size → s.ancestor? f d = some g → g + d ≤ f
  /-- No call changes the chain of a frame. -/
  fixed : ∀ t f d, Becomes s t → f < s.frames.size → t.ancestor? f d = s.ancestor? f d
  /-- Steps out can be taken one after the other. -/
  ancestor?_add : ∀ f a b, f < s.frames.size →
    s.ancestor? f (a + b) = (s.ancestor? f a).bind fun g => s.ancestor? g b
  /-- What is bound in a frame is read where that frame is the nearest one. -/
  get_define : ∀ f k d name value, f < s.frames.size → k < s.frames.size →
    (s.define f name value).Nearest k name d f → (s.define f name value).get k name = .ok value
  /-- All else is read as before. -/
  get_define_other : ∀ f k name other value, f < s.frames.size → k < s.frames.size →
    ¬(other = name ∧ ∃ d, (s.define f name value).Nearest k name d f) →
      (s.define f name value).get k other = s.get k other
  /-- A name can be assigned where it can be read. -/
  assign_iff : ∀ f name value, f < s.frames.size →
    ((∃ t, s.assign f name value = .ok t) ↔ ∃ old, s.get f name = .ok old)
  /-- An assignment writes the nearest binding of the name and nothing else. -/
  assign_writes : ∀ f name value t, f < s.frames.size → s.assign f name value = .ok t →
    ∃ d g, s.Nearest f name d g ∧ s.Writes t g name value
  /-- It is seen by those whose nearest binding of the name this is. -/
  get_assign : ∀ f k d e g name value t, f < s.frames.size → k < s.frames.size →
    s.assign f name value = .ok t → s.Nearest f name d g → s.Nearest k name e g →
      t.get k name = .ok value
  /-- All else is read as before. -/
  get_assign_other : ∀ f k name other value t, f < s.frames.size → k < s.frames.size →
    s.assign f name value = .ok t →
      ¬(other = name ∧ ∃ d e g, s.Nearest f name d g ∧ s.Nearest k name e g) →
        t.get k other = s.get k other
  /-- With the distance of the nearest frame, the search and the walk read the same. -/
  get_eq_getAt : ∀ f name d g, f < s.frames.size → s.Nearest f name d g →
    s.get f name = s.getAt f d name
  /-- They write the same as well. -/
  assign_eq_assignAt : ∀ f name d g value, f < s.frames.size → s.Nearest f name d g →
    s.assign f name value = s.assignAt f d name value
  /-- A walk reads from the frame that it leads to and from no other. -/
  getAt_iff : ∀ f d name value, f < s.frames.size →
    (s.getAt f d name = .ok value ↔ ∃ g, s.ancestor? f d = some g ∧ s.value? g name = some value)
  /-- A walk can write where it can read. -/
  assignAt_iff : ∀ f d name value, f < s.frames.size →
    ((∃ t, s.assignAt f d name value = .ok t) ↔ ∃ old, s.getAt f d name = .ok old)
  /-- A walk writes in the frame that it leads to and in no other. -/
  assignAt_writes : ∀ f d name value t, f < s.frames.size → s.assignAt f d name value = .ok t →
    ∃ g, s.ancestor? f d = some g ∧ s.Writes t g name value
  /-- What cannot be read or assigned is reported by its name. -/
  undefined : ∀ f d name value cause,
    s.get f name = .error cause ∨ s.getAt f d name = .error cause ∨
      s.assign f name value = .error cause ∨ s.assignAt f d name value = .error cause →
        cause = .undefinedVariable name
  /-- A call that fails leaves the machine, and the store in it, exactly as it was. -/
  failed : ∀ (o : Operation) cause place setting (m : Machine), m.store = s →
    o.perform s = .error cause →
      Eval.tryChange place o.perform setting m = .ended (.error ⟨cause, place⟩) m

variable {s t : Store} {f g g' k : FrameId} {d e : Nat} {name other : String} {value : Value}
  {cause : FaultCause}

/-! ## Results that may be missing -/

theorem orUndefined_eq_ok {α : Type} {x : Option α} {a : α} :
    orUndefined name x = .ok a ↔ x = some a := by
  cases x <;> simp [orUndefined]

theorem cause_of_orUndefined {α : Type} {x : Option α} (h : orUndefined name x = .error cause) :
    cause = .undefinedVariable name := by
  cases x with
  | none =>
      cases h
      rfl
  | some a =>
      cases h

/-! ## The nearest frame -/

theorem lt_size_of_bound (h : (s.value? g name).isSome = true) : g < s.frames.size := by
  rcases Nat.lt_or_ge g s.frames.size with hlt | hge
  · exact hlt
  · rw [value?_of_size_le hge] at h
    cases h

/-- There is at most one nearest frame. -/
theorem Nearest.unique (h : s.Nearest f name d g) (h' : s.Nearest f name e g') : d = e ∧ g = g' := by
  -- The one that stands nearer would be bound before the other.
  have hlt : ∀ {d e : Nat} {g g' : FrameId}, s.Nearest f name d g → s.Nearest f name e g' → ¬d < e := by
    intro d e g g' h h' hlt
    have hbound := h.bound
    rw [h'.first d g hlt h.stands] at hbound
    cases hbound
  have hde : d = e := Nat.le_antisymm (Nat.not_lt.mp (hlt h' h)) (Nat.not_lt.mp (hlt h h'))
  subst hde
  exact ⟨rfl, Option.some.inj (h.stands.symm.trans h'.stands)⟩

/-- The search finds the nearest frame. -/
theorem holder?_eq_some_iff : s.holder? f name = some g ↔ ∃ d, s.Nearest f name d g := by
  rw [holder?, List.find?_eq_some_iff_getElem]
  -- The chain lists the frames by their distance.
  refine ⟨?_, ?_⟩
  · rintro ⟨hbound, d, hd, rfl, hfirst⟩
    refine ⟨d, ?_, hbound, ?_⟩
    · rw [ancestor?_eq, List.getElem?_eq_getElem hd]
    · intro e g' he hstands
      rw [ancestor?_eq, List.getElem?_eq_getElem (Nat.lt_trans he hd)] at hstands
      cases hstands
      simpa using hfirst e he
  · rintro ⟨d, hstands, hbound, hfirst⟩
    rw [ancestor?_eq] at hstands
    rcases List.getElem?_eq_some_iff.mp hstands with ⟨hd, hg⟩
    refine ⟨hbound, d, hd, hg, ?_⟩
    intro e he
    have hnone := hfirst e (s.chain f)[e] he
      (by rw [ancestor?_eq, List.getElem?_eq_getElem (Nat.lt_trans he hd)])
    simp [hnone]

/-- If a frame of the chain binds a name, there is a nearest one. -/
theorem exists_nearest (hstands : s.ancestor? f d = some g) (hbound : (s.value? g name).isSome = true) :
    ∃ e g', s.Nearest f name e g' := by
  rw [ancestor?_eq] at hstands
  have hfound : (s.holder? f name).isSome = true := by
    rw [holder?, List.find?_isSome]
    exact ⟨g, List.mem_of_getElem? hstands, hbound⟩
  rcases Option.isSome_iff_exists.mp hfound with ⟨g', hg'⟩
  rcases holder?_eq_some_iff.mp hg' with ⟨e, he⟩
  exact ⟨e, g', he⟩

/-- The nearest frame depends on the chain and on which frames bind the name. -/
theorem nearest_congr (hchain : ∀ f d, t.ancestor? f d = s.ancestor? f d)
    (hbound : ∀ f, (t.value? f name).isSome = (s.value? f name).isSome) :
    t.Nearest f name d g ↔ s.Nearest f name d g := by
  have hnone : ∀ f, t.value? f name = none ↔ s.value? f name = none := by
    intro f
    rw [← Option.isNone_iff_eq_none, ← Option.isNone_iff_eq_none, ← Option.not_isSome,
      ← Option.not_isSome, hbound]
  refine ⟨?_, ?_⟩
  · rintro ⟨hstands, hg, hfirst⟩
    simp only [hchain, hbound, hnone] at hstands hg hfirst
    exact ⟨hstands, hg, hfirst⟩
  · rintro ⟨hstands, hg, hfirst⟩
    refine ⟨(hchain f d).trans hstands, (hbound g).trans hg, ?_⟩
    simpa only [hchain, hnone] using hfirst

theorem get_of_nearest (h : s.Nearest f name d g) :
    s.get f name = orUndefined name (s.value? g name) := by
  rw [get, holder?_eq_some_iff.mpr ⟨d, h⟩]
  rfl

theorem get_of_unbound (h : ∀ d g, ¬s.Nearest f name d g) :
    s.get f name = .error (.undefinedVariable name) := by
  cases hholder : s.holder? f name with
  | none =>
      rw [get, hholder]
      rfl
  | some g =>
      rcases holder?_eq_some_iff.mp hholder with ⟨d, hd⟩
      exact absurd hd (h d g)

theorem exists_get_iff : (∃ old, s.get f name = .ok old) ↔ ∃ d g, s.Nearest f name d g := by
  refine ⟨?_, ?_⟩
  · rintro ⟨old, hold⟩
    by_cases hfound : ∃ d g, s.Nearest f name d g
    · exact hfound
    · rw [get_of_unbound fun d g h => hfound ⟨d, g, h⟩] at hold
      cases hold
  · rintro ⟨d, g, h⟩
    rcases Option.isSome_iff_exists.mp h.bound with ⟨old, hold⟩
    exact ⟨old, by rw [get_of_nearest h, hold]; rfl⟩

/-- The walk to the nearest frame reads what the search reads. -/
theorem get_eq_getAt (h : s.Nearest f name d g) : s.get f name = s.getAt f d name := by
  rw [get_of_nearest h, getAt, h.stands]
  rfl

/-! ## Calls that write -/

theorem assign_eq_ok :
    s.assign f name value = .ok t ↔ ∃ d g, s.Nearest f name d g ∧ s.define g name value = t := by
  rw [assign, orUndefined_eq_ok, Option.map_eq_some_iff]
  refine ⟨?_, ?_⟩
  · rintro ⟨g, hholder, ht⟩
    rcases holder?_eq_some_iff.mp hholder with ⟨d, hd⟩
    exact ⟨d, g, hd, ht⟩
  · rintro ⟨d, g, hd, ht⟩
    exact ⟨g, holder?_eq_some_iff.mpr ⟨d, hd⟩, ht⟩

theorem assignAt_eq_ok :
    s.assignAt f d name value = .ok t ↔
      ∃ g, s.ancestor? f d = some g ∧ (s.value? g name).isSome = true ∧ s.define g name value = t := by
  simp only [assignAt, orUndefined_eq_ok, Option.map_eq_some_iff, Option.filter_eq_some_iff, and_assoc]

theorem getAt_eq_ok : s.getAt f d name = .ok value ↔
    ∃ g, s.ancestor? f d = some g ∧ s.value? g name = some value := by
  rw [getAt, orUndefined_eq_ok, Option.bind_eq_some_iff]

/-- The walk to the nearest frame writes what the search writes. -/
theorem assign_eq_assignAt (h : s.Nearest f name d g) :
    s.assign f name value = s.assignAt f d name value := by
  have hsearch : s.assign f name value = .ok (s.define g name value) := assign_eq_ok.mpr ⟨d, g, h, rfl⟩
  have hwalk : s.assignAt f d name value = .ok (s.define g name value) :=
    assignAt_eq_ok.mpr ⟨g, h.stands, h.bound, rfl⟩
  rw [hsearch, hwalk]

/-- Binding a name writes in one frame. -/
theorem writes_define (hf : f < s.frames.size) : s.Writes (s.define f name value) f name value := by
  refine ⟨size_define, fun _ _ => ancestor?_define, value?_define_self hf, ?_, rfl, rfl⟩
  intro f' other hother
  rw [value?_define, if_neg]
  rintro ⟨rfl, -, rfl⟩
  exact hother ⟨rfl, rfl⟩

namespace Writes

theorem bound (h : s.Writes t g name value) (hbound : (s.value? f other).isSome = true) :
    (t.value? f other).isSome = true := by
  by_cases hsame : f = g ∧ other = name
  · rcases hsame with ⟨rfl, rfl⟩
    rw [h.written]
    rfl
  · rwa [h.kept f other hsame]

/-- If the name was bound before, the same frames are the nearest ones afterwards. -/
theorem nearest_iff (h : s.Writes t g name value) (hbound : (s.value? g name).isSome = true) :
    t.Nearest k other e g' ↔ s.Nearest k other e g' := by
  refine nearest_congr h.ancestor? ?_
  intro f
  by_cases hsame : f = g ∧ other = name
  · rcases hsame with ⟨rfl, rfl⟩
    rw [h.written, hbound]
    rfl
  · rw [h.kept f other hsame]

theorem get (h : s.Writes t g name value) (hnearest : t.Nearest k name e g) :
    t.get k name = .ok value := by
  rw [get_of_nearest hnearest, h.written]
  rfl

/-- What is not read in the frame that was written is read as before. -/
theorem get_other (h : s.Writes t g name value)
    (hother : ¬(other = name ∧ ∃ e, t.Nearest k name e g)) : t.get k other = s.get k other := by
  by_cases hfound : ∃ e g', t.Nearest k other e g'
  · rcases hfound with ⟨e, g', hnearest⟩
    -- The nearest frame is not the one that was written, or the name is another.
    have hsame : t.value? g' other = s.value? g' other := by
      refine h.kept g' other ?_
      rintro ⟨rfl, rfl⟩
      exact hother ⟨rfl, e, hnearest⟩
    have hbefore : s.Nearest k other e g' := by
      refine ⟨(h.ancestor? k e).symm.trans hnearest.stands, hsame ▸ hnearest.bound, ?_⟩
      intro e' g'' he hstands
      have hnone := hnearest.first e' g'' he ((h.ancestor? k e').trans hstands)
      rw [← h.kept g'' other, hnone]
      rintro ⟨rfl, rfl⟩
      rw [h.written] at hnone
      cases hnone
    rw [get_of_nearest hnearest, get_of_nearest hbefore, hsame]
  · have hbefore : ∀ e g', ¬s.Nearest k other e g' := by
      intro e g' hnearest
      exact hfound (exists_nearest ((h.ancestor? k e).trans hnearest.stands) (h.bound hnearest.bound))
    rw [get_of_unbound fun e g' hnearest => hfound ⟨e, g', hnearest⟩, get_of_unbound hbefore]

end Writes

/-! ## What the calls do to the chains -/

/-- Frames stand in older ones, and those around a frame of a chain are the ones that follow it there. -/
def Chained (s : Store) : Prop :=
  ∀ f, f < s.frames.size → s.Nested f ∧ (s.chain f).Pairwise (· > ·)

/-- A call adds a frame outside all others or inside one that is there, or it leaves all chains as they
are. -/
theorem Step.cases (h : Step s t) :
    (∃ outer, (outer = [] ∨ ∃ f, f < s.frames.size ∧ outer = s.chain f) ∧
      t.frames.size = s.frames.size + 1 ∧
        ∀ g, t.chain g = if g = s.frames.size then g :: outer else s.chain g) ∨
    (t.frames.size = s.frames.size ∧ ∀ g, t.chain g = s.chain g) := by
  -- Only the chain of the new frame is new.
  have hadd : ∀ outer g, (s.addFrame outer).2.chain g =
      if g = s.frames.size then g :: outer else s.chain g := by
    intro outer g
    rw [chain, outer_addFrame]
    split
    · rfl
    · rfl
  rcases h with ⟨o, hhandle, ho⟩
  cases o with
  | newRoot =>
      cases ho
      exact .inl ⟨[], .inl rfl, size_addFrame, hadd []⟩
  | newGlobals =>
      cases ho
      refine .inl ⟨[], .inl rfl, ?_, ?_⟩
      · rw [newGlobals, size_define, newRoot, size_addFrame]
        rfl
      · intro g
        rw [newGlobals, chain_define]
        exact hadd [] g
  | newScope f =>
      cases ho
      exact .inl ⟨s.chain f, .inr ⟨f, hhandle f rfl, rfl⟩, size_addFrame, hadd _⟩
  | define f name value =>
      cases ho
      exact .inr ⟨size_define, fun g => chain_define⟩
  | assign f name value =>
      rcases assign_eq_ok.mp ho with ⟨d, g, -, rfl⟩
      exact .inr ⟨size_define, fun g => chain_define⟩
  | assignAt f d name value =>
      rcases assignAt_eq_ok.mp ho with ⟨g, -, -, rfl⟩
      exact .inr ⟨size_define, fun g => chain_define⟩

theorem Step.chain (h : Step s t) (hf : f < s.frames.size) :
    f < t.frames.size ∧ t.chain f = s.chain f := by
  rcases h.cases with ⟨outer, -, hsize, hchain⟩ | ⟨hsize, hchain⟩
  · rw [hsize, hchain, if_neg (Nat.ne_of_lt hf)]
    exact ⟨Nat.lt_succ_of_lt hf, rfl⟩
  · rw [hsize]
    exact ⟨hf, hchain f⟩

/-- The frames that were there stay chained. -/
theorem Step.chained_old (h : Step s t) (hs : s.Chained) (hf : f < s.frames.size) :
    t.Nested f ∧ (t.chain f).Pairwise (· > ·) := by
  rcases hs f hf with ⟨hnested, holder⟩
  rw [Nested, (h.chain hf).2]
  refine ⟨?_, holder⟩
  intro g hg
  rcases hnested g hg with ⟨hlt, hsuffix⟩
  rcases h.chain hlt with ⟨hlt', hchain⟩
  rw [hchain]
  exact ⟨hlt', hsuffix⟩

theorem Step.chained (h : Step s t) (hs : s.Chained) : t.Chained := by
  intro f hf
  rcases Nat.lt_or_ge f s.frames.size with hold | hnew
  · exact h.chained_old hs hold
  rcases h.cases with ⟨outer, houter, hsize, hchain⟩ | ⟨hsize, -⟩
  · -- Only the new frame is left, and what stands around it is chained.
    obtain rfl : f = s.frames.size := by omega
    rw [Nested, hchain, if_pos rfl]
    rcases houter with rfl | ⟨k, hk, rfl⟩
    · simp only [List.mem_singleton, forall_eq, List.pairwise_singleton, and_true]
      rw [hchain, if_pos rfl]
      exact ⟨hf, List.suffix_refl _⟩
    · rcases h.chained_old hs hk with ⟨hnested, holder⟩
      rw [Nested, (h.chain hk).2] at hnested
      rw [(h.chain hk).2] at holder
      refine ⟨?_, List.pairwise_cons.mpr ⟨fun g hg => ((hs k hk).1 g hg).1, holder⟩⟩
      intro g hg
      rcases List.mem_cons.mp hg with rfl | hg
      · rw [hchain, if_pos rfl]
        exact ⟨hf, List.suffix_refl _⟩
      · exact ⟨(hnested g hg).1, (hnested g hg).2.trans (List.suffix_cons _ _)⟩
  · omega

theorem Reached.perform (o : Operation) (hhandle : ∀ f ∈ o.handle?, f < s.frames.size)
    (h : Reached s) (ho : o.perform s = .ok t) : Reached t :=
  .tail h ⟨o, hhandle, ho⟩

theorem Reached.chained (h : Reached s) : s.Chained := by
  induction h with
  | refl =>
      intro f hf
      cases hf
  | tail _ hstep ih =>
      exact hstep.chained ih

/-- Calls keep the frames and their chains. -/
theorem Becomes.chain (h : Becomes s t) (hf : f < s.frames.size) :
    f < t.frames.size ∧ t.chain f = s.chain f := by
  -- After each call the frame is still there, so the next one keeps its chain.
  induction h with
  | refl =>
      exact ⟨hf, rfl⟩
  | tail _ hstep ih =>
      rcases hstep.chain ih.1 with ⟨hlt, hchain⟩
      exact ⟨hlt, hchain.trans ih.2⟩

/-- In a falling list of numbers every step leads at least one further down. -/
theorem add_le_of_falling {x y : Nat} {xs : List Nat} (h : (x :: xs).Pairwise (· > ·))
    (hget : (x :: xs)[d]? = some y) : y + d ≤ x := by
  -- Behind its first number the list falls from the second one, with one step less to take.
  induction xs generalizing x d with
  | nil =>
      cases d with
      | zero =>
          cases hget
          exact Nat.le_refl _
      | succ d =>
          cases hget
  | cons z xs ih =>
      rw [List.pairwise_cons] at h
      cases d with
      | zero =>
          cases hget
          exact Nat.le_refl _
      | succ d =>
          have hle : y + d ≤ z := ih h.2 hget
          have hlt : z < x := h.1 z List.mem_cons_self
          omega

theorem Chained.add_le (h : s.Chained) (hf : f < s.frames.size) (hstands : s.ancestor? f d = some g) :
    g + d ≤ f := by
  rw [ancestor?_eq] at hstands
  exact add_le_of_falling (h f hf).2 hstands

/-- The chain of a frame that stands `a` steps out begins after `a` steps. -/
theorem Chained.drop_chain {a : Nat} (h : s.Chained) (hf : f < s.frames.size)
    (hstands : s.ancestor? f a = some g) : (s.chain f).drop a = s.chain g := by
  rcases h f hf with ⟨hnested, holder⟩
  rw [ancestor?_eq] at hstands
  rcases hnested g (List.mem_of_getElem? hstands) with ⟨-, before, hbefore⟩
  -- No frame stands twice in a chain, so the two places of `g` are the same.
  have hplace : (s.chain f)[before.length]? = some g := by
    rw [← hbefore, List.getElem?_append_right (Nat.le_refl _), Nat.sub_self]
    rfl
  have hnodup : (s.chain f).Nodup := holder.imp Nat.ne_of_gt
  have ha : a = before.length := by
    rcases List.getElem?_eq_some_iff.mp hstands with ⟨hlt, -⟩
    exact (List.getElem?_inj hlt hnodup).mp (hstands.trans hplace.symm)
  rw [ha, ← hbefore, List.drop_left]

theorem Chained.ancestor?_add (h : s.Chained) (hf : f < s.frames.size) (a b : Nat) :
    s.ancestor? f (a + b) = (s.ancestor? f a).bind fun g => s.ancestor? g b := by
  cases hstands : s.ancestor? f a with
  | none =>
      rw [ancestor?_eq, List.getElem?_eq_none_iff] at hstands
      rw [ancestor?_eq, List.getElem?_eq_none (Nat.le_trans hstands (Nat.le_add_right a b))]
      rfl
  | some g =>
      have hdrop := h.drop_chain hf hstands
      rw [Option.bind_some, ancestor?_eq, ancestor?_eq, ← hdrop, List.getElem?_drop]

/-! ## The laws -/

/-- Every store that calls lead to is lawful. -/
theorem lawful_of_reached (h : Reached s) : s.Lawful where
  finite f d g hf hstands := h.chained.add_le hf hstands
  fixed t f d hleads hf := by rw [ancestor?_eq, ancestor?_eq, (hleads.chain hf).2]
  ancestor?_add f a b hf := h.chained.ancestor?_add hf a b
  get_define f k d name value hf _ hnearest := (writes_define hf).get hnearest
  get_define_other f k name other value hf _ hother := (writes_define hf).get_other hother
  assign_iff f name value _ := by
    rw [exists_get_iff]
    refine ⟨?_, ?_⟩
    · rintro ⟨t, ht⟩
      rcases assign_eq_ok.mp ht with ⟨d, g, hnearest, -⟩
      exact ⟨d, g, hnearest⟩
    · rintro ⟨d, g, hnearest⟩
      exact ⟨_, assign_eq_ok.mpr ⟨d, g, hnearest, rfl⟩⟩
  assign_writes f name value t _ ht := by
    rcases assign_eq_ok.mp ht with ⟨d, g, hnearest, rfl⟩
    exact ⟨d, g, hnearest, writes_define (lt_size_of_bound hnearest.bound)⟩
  get_assign f k d e g name value t _ _ ht hnearest hk := by
    rcases assign_eq_ok.mp ht with ⟨d', g', hnearest', rfl⟩
    obtain ⟨-, rfl⟩ := hnearest.unique hnearest'
    have hwrites : s.Writes _ g name value := writes_define (lt_size_of_bound hnearest.bound)
    exact hwrites.get ((hwrites.nearest_iff hnearest.bound).mpr hk)
  get_assign_other f k name other value t _ _ ht hother := by
    rcases assign_eq_ok.mp ht with ⟨d, g, hnearest, rfl⟩
    have hwrites : s.Writes _ g name value := writes_define (lt_size_of_bound hnearest.bound)
    refine hwrites.get_other ?_
    rintro ⟨hname, e, hk⟩
    exact hother ⟨hname, d, e, g, hnearest, (hwrites.nearest_iff hnearest.bound).mp hk⟩
  get_eq_getAt f name d g _ hnearest := get_eq_getAt hnearest
  assign_eq_assignAt f name d g value _ hnearest := assign_eq_assignAt hnearest
  getAt_iff f d name value _ := getAt_eq_ok
  assignAt_iff f d name value _ := by
    refine ⟨?_, ?_⟩
    · rintro ⟨t, ht⟩
      rcases assignAt_eq_ok.mp ht with ⟨g, hstands, hbound, -⟩
      rcases Option.isSome_iff_exists.mp hbound with ⟨old, hold⟩
      exact ⟨old, getAt_eq_ok.mpr ⟨g, hstands, hold⟩⟩
    · rintro ⟨old, hold⟩
      rcases getAt_eq_ok.mp hold with ⟨g, hstands, hvalue⟩
      exact ⟨_, assignAt_eq_ok.mpr ⟨g, hstands, by rw [hvalue]; rfl, rfl⟩⟩
  assignAt_writes f d name value t _ ht := by
    rcases assignAt_eq_ok.mp ht with ⟨g, hstands, hbound, rfl⟩
    exact ⟨g, hstands, writes_define (lt_size_of_bound hbound)⟩
  undefined f d name value cause := by
    rintro (h | h | h | h) <;> exact cause_of_orUndefined h
  failed o cause place setting m hm ho := by
    subst hm
    simp only [Eval.tryChange, ho]

/-- The globals, a scope that binds a name of theirs, and a scope inside it. -/
def shadowing : Store :=
  (((empty.newGlobals.2.define 0 "a" (.boolean true)).newScope 0).2.define 1 "a" .nil).newScope 1 |>.2

/-- From the innermost scope the name is found one step out. An assignment there is seen from the scope
that binds the name and not from the globals. -/
theorem lawful_of_reached_shadowing :
    Reached shadowing ∧ shadowing.get 2 "a" = shadowing.getAt 2 1 "a" ∧
      ∀ value t, shadowing.assign 2 "a" value = .ok t →
        t.get 1 "a" = .ok value ∧ t.get 0 "a" = shadowing.get 0 "a" := by
  have hreached : Reached shadowing :=
    Reached.perform (.newScope 1) (by decide)
      (.perform (.define 1 "a" .nil) (by decide)
        (.perform (.newScope 0) (by decide)
          (.perform (.define 0 "a" (.boolean true)) (by decide)
            (.perform .newGlobals (by decide) .refl rfl) rfl) rfl) rfl) rfl
  have hlawful := lawful_of_reached hreached
  have htwo : shadowing.Nearest 2 "a" 1 1 := by
    refine ⟨rfl, rfl, ?_⟩
    intro e g he hstands
    obtain rfl : e = 0 := Nat.lt_one_iff.mp he
    cases hstands
    rfl
  have hone : shadowing.Nearest 1 "a" 0 1 := ⟨rfl, rfl, fun e g he => nomatch he⟩
  have hzero : shadowing.Nearest 0 "a" 0 0 := ⟨rfl, rfl, fun e g he => nomatch he⟩
  refine ⟨hreached, hlawful.get_eq_getAt 2 "a" 1 1 (by decide) htwo, ?_⟩
  intro value t ht
  refine ⟨hlawful.get_assign 2 1 1 0 1 "a" value t (by decide) (by decide) ht htwo hone, ?_⟩
  refine hlawful.get_assign_other 2 0 "a" "a" value t (by decide) (by decide) ht ?_
  rintro ⟨-, d, e, g, htwo', hzero'⟩
  have hg := (htwo.unique htwo').2.trans (hzero.unique hzero').2.symm
  cases hg

end Store

end Lox
