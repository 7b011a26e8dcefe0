import Lox.Proofs.Parallel.Value
import Lox.Proofs.Store.Basic

/-!
# Stores of two runs

The store of the second run has the frames of the first without the hollow ones. Frames that stand for
each other bind the same names to parallel values, so a name is found at a distance in one store if it
is found in the other at the distance that leaves out the hollow frame.

Every operation on the store keeps this: `Store.Parallels.define` and `Store.Parallels.newScope` for
frames, and `Store.Parallels.hollowScope` for a hollow frame, which only the first run makes.
-/

namespace List.Forall₂

variable {α β : Type} {R : α → β → Prop} {l : List α} {l' : List β}

theorem getElem? (h : Forall₂ R l l') : ∀ d : Nat, Option.Rel R l[d]? l'[d]? := by
  induction h with
  | nil => exact fun _ => .none
  | cons hab _ ih =>
      intro d
      cases d with
      | zero => exact .some hab
      | succ d => exact ih d

theorem find? {p : α → Bool} {p' : β → Bool} (h : Forall₂ R l l')
    (hp : ∀ a b, R a b → p' b = p a) : Option.Rel R (l.find? p) (l'.find? p') := by
  induction h with
  | nil => exact .none
  | @cons a b l l' hab _ ih =>
      rw [List.find?_cons, List.find?_cons, hp a b hab]
      cases p a with
      | true => exact .some hab
      | false => exact ih

end List.Forall₂

namespace Lox

/-- A search that the hollow frame does not satisfy finds the same without it. -/
theorem Hollow.find?_without {α : Type} {p : α → Bool} (k : Hollow) (l : List α)
    (h : ∀ i a, k = some i → l[i]? = some a → p a = false) : (k.without l).find? p = l.find? p := by
  cases k with
  | none => rfl
  | some i =>
      rw [without]
      induction l generalizing i with
      | nil => rfl
      | cons a l ih =>
          cases i with
          | zero =>
              have hfalse : ¬p a = true := by simp [h 0 a rfl rfl]
              rw [List.eraseIdx_zero, List.tail_cons, List.find?_cons_of_neg hfalse]
          | succ i =>
              have hrest : ∀ j b, some i = some j → l[j]? = some b → p b = false := by
                intro j b hj hb
                cases hj
                exact h (i + 1) b rfl hb
              rw [List.eraseIdx_cons_succ, List.find?_cons, List.find?_cons, ih i hrest]

/-! ## Pairings -/

namespace Pairing

variable {P Q : Pairing} {k : Hollow} {f f' g g' : FrameId}

/-- Two more frames stand for each other. -/
def add (P : Pairing) (k : Hollow) (f f' : FrameId) : Pairing := fun j g g' =>
  P j g g' ∨ (j = k ∧ g = f ∧ g' = f')

theorem le_add (P : Pairing) (k : Hollow) (f f' : FrameId) : P ≤ P.add k f f' :=
  fun _ _ _ h => .inl h

theorem add_self (P : Pairing) (k : Hollow) (f f' : FrameId) : P.add k f f' k f f' :=
  .inr ⟨rfl, rfl, rfl⟩

theorem mates_add (hk : k ≠ some 0) :
    (P.add k f f').Mates g g' ↔ P.Mates g g' ∨ (g = f ∧ g' = f') := by
  constructor
  · rintro ⟨j, hj, hp | ⟨rfl, rfl, rfl⟩⟩
    · exact .inl ⟨j, hj, hp⟩
    · exact .inr ⟨rfl, rfl⟩
  · rintro (hmates | ⟨rfl, rfl⟩)
    · exact hmates.mono (P.le_add k f f')
    · exact ⟨k, hk, P.add_self k g g'⟩

/-- A hollow frame is no mate. -/
theorem mates_add_hollow : (P.add (some 0) f f').Mates g g' ↔ P.Mates g g' := by
  constructor
  · rintro ⟨j, hj, hp | ⟨rfl, -, -⟩⟩
    · exact ⟨j, hj, hp⟩
    · exact absurd rfl hj
  · exact fun hmates => hmates.mono (P.le_add (some 0) f f')

end Pairing

/-! ## Stores -/

/-- The second store has the frames of the first without the hollow ones, and the same instances. -/
structure Store.Parallels (T : Tracks) (P : Pairing) (s s' : Store) : Prop where
  inside : ∀ {k f f'}, P k f f' → f < s.frames.size ∧ f' < s'.frames.size
  chain : ∀ {k f f'}, P k f f' → List.Forall₂ P.Mates (Hollow.without k (s.chain f)) (s'.chain f')
  hollow : ∀ {i f f'}, P (some i) f f' →
    ∃ h, (s.chain f)[i]? = some h ∧ h < s.frames.size ∧ ∀ h', ¬P.Mates h h'
  unique : ∀ {f f' g g'}, P.Mates f f' → P.Mates g g' → (f = g ↔ f' = g')
  values : ∀ {f f'}, P.Mates f f' → ∀ name,
    Option.Rel (Value.Parallels T P) (s.value? f name) (s'.value? f' name)
  /-- A frame without a mate binds nothing. -/
  empty : ∀ {f}, (∀ f', ¬P.Mates f f') → ∀ name, s.value? f name = none
  /-- Every frame of the second run has a mate. -/
  mated : ∀ {f'}, f' < s'.frames.size → ∃ f, P.Mates f f'
  instances : s'.fields.size = s.fields.size
  fields : ∀ {o o' : Instance}, o'.id = o.id → ∀ name,
    Option.Rel (Value.Parallels T P) (s.field? o name) (s'.field? o' name)
  nextId : s'.nextId = s.nextId

namespace Store

open FaultCause (ParallelsOr)

variable {T : Tracks} {P : Pairing} {s s' : Store} {k : Hollow} {f f' : FrameId} {d : Nat}
  {name : String} {v v' : Value}

theorem parallels_orUndefined {α β : Type} {R : α → β → Prop} {a? : Option α} {b? : Option β}
    (h : Option.Rel R a? b?) : ParallelsOr R (orUndefined name a?) (orUndefined name b?) := by
  cases h with
  | some hab => exact .ok hab
  | none => exact .error (.refl _)

namespace Parallels

theorem inside_mates (h : s.Parallels T P s') (hmates : P.Mates f f') :
    f < s.frames.size ∧ f' < s'.frames.size := by
  rcases hmates with ⟨k, -, hp⟩
  exact h.inside hp

/-! ### Looking for a frame -/

theorem ancestor? (h : s.Parallels T P s') (hp : P k f f') (hd : k ≠ some d) :
    Option.Rel P.Mates (s.ancestor? f d) (s'.ancestor? f' (k.skip d)) := by
  rw [ancestor?_eq, ancestor?_eq, ← Hollow.getElem?_without hd]
  exact (h.chain hp).getElem? _

theorem isSome_value? (h : s.Parallels T P s') (hmates : P.Mates f f') (name : String) :
    (s'.value? f' name).isSome = (s.value? f name).isSome :=
  (h.values hmates name).isSome_eq

/-- A hollow frame binds nothing, so the search for a name passes it by. -/
theorem holder? (h : s.Parallels T P s') (hp : P k f f') (name : String) :
    Option.Rel P.Mates (s.holder? f name) (s'.holder? f' name) := by
  have hskip : (k.without (s.chain f)).find? (fun g => (s.value? g name).isSome) =
      s.holder? f name := by
    refine Hollow.find?_without k (s.chain f) ?_
    rintro i a rfl ha
    rcases h.hollow hp with ⟨g, hg, -, hmates⟩
    cases ha.symm.trans hg
    rw [h.empty hmates name]
    rfl
  rw [← hskip]
  exact (h.chain hp).find? fun _ _ hmates => h.isSome_value? hmates name

theorem getAt (h : s.Parallels T P s') (hp : P k f f') (hd : k ≠ some d) (name : String) :
    ParallelsOr (Value.Parallels T P) (s.getAt f d name) (s'.getAt f' (k.skip d) name) := by
  refine parallels_orUndefined ?_
  rcases (h.ancestor? hp hd).inv with ⟨hg, hg'⟩ | ⟨g, g', hg, hg', hmates⟩
  · rw [hg, hg']
    exact .none
  · rw [hg, hg']
    exact h.values hmates name

theorem get (h : s.Parallels T P s') (hp : P k f f') (name : String) :
    ParallelsOr (Value.Parallels T P) (s.get f name) (s'.get f' name) := by
  refine parallels_orUndefined ?_
  rcases (h.holder? hp name).inv with ⟨hg, hg'⟩ | ⟨g, g', hg, hg', hmates⟩
  · rw [hg, hg']
    exact .none
  · rw [hg, hg']
    exact h.values hmates name

/-! ### Binding a name -/

theorem define (h : s.Parallels T P s') (hmates : P.Mates f f') (hv : v.Parallels T P v') :
    (s.define f name v).Parallels T P (s'.define f' name v') := by
  have hinside := h.inside_mates hmates
  refine ⟨?_, ?_, ?_, h.unique, ?_, ?_, ?_, h.instances, h.fields, h.nextId⟩
  · intro k g g' hp
    rw [size_define, size_define]
    exact h.inside hp
  · intro k g g' hp
    rw [chain_define, chain_define]
    exact h.chain hp
  · intro i g g' hp
    rw [chain_define, size_define]
    exact h.hollow hp
  · intro g g' hmates' other
    rw [value?_define, value?_define]
    -- The frame of one run is the one that is written to if that of the other is, by uniqueness.
    by_cases hg : f = g ∧ name = other
    · rw [if_pos ⟨hg.1, hinside.1, hg.2⟩,
        if_pos ⟨(h.unique hmates hmates').mp hg.1, hinside.2, hg.2⟩]
      exact .some hv
    · rw [if_neg fun heq => hg ⟨heq.1, heq.2.2⟩,
        if_neg fun heq => hg ⟨(h.unique hmates hmates').mpr heq.1, heq.2.2⟩]
      exact h.values hmates' other
  · intro g hnone other
    have hne : f ≠ g := fun heq => hnone f' (heq ▸ hmates)
    rw [value?_define, if_neg fun heq => hne heq.1]
    exact h.empty hnone other
  · intro g' hg'
    rw [size_define] at hg'
    exact h.mated hg'

theorem assignAt (h : s.Parallels T P s') (hp : P k f f') (hd : k ≠ some d) (name : String)
    (hv : v.Parallels T P v') :
    ParallelsOr (Store.Parallels T P) (s.assignAt f d name v)
      (s'.assignAt f' (k.skip d) name v') := by
  refine parallels_orUndefined ?_
  rcases (h.ancestor? hp hd).inv with ⟨hg, hg'⟩ | ⟨g, g', hg, hg', hmates⟩
  · rw [hg, hg']
    exact .none
  · rw [hg, hg', Option.filter_some, Option.filter_some, h.isSome_value? hmates]
    split
    · exact .some (h.define hmates hv)
    · exact .none

theorem assign (h : s.Parallels T P s') (hp : P k f f') (name : String)
    (hv : v.Parallels T P v') :
    ParallelsOr (Store.Parallels T P) (s.assign f name v) (s'.assign f' name v') := by
  refine parallels_orUndefined ?_
  rcases (h.holder? hp name).inv with ⟨hg, hg'⟩ | ⟨g, g', hg, hg', hmates⟩
  · rw [hg, hg']
    exact .none
  · rw [hg, hg']
    exact .some (h.define hmates hv)

/-! ### Making a frame -/

theorem chain_newScope_old {g : FrameId} (hg : g < s.frames.size) :
    (s.newScope f).2.chain g = s.chain g := by
  rw [Store.chain, newScope, outer_addFrame, if_neg (Nat.ne_of_lt hg), Store.chain]

theorem chain_newScope_new : (s.newScope f).2.chain s.frames.size = s.frames.size :: s.chain f := by
  rw [Store.chain, newScope, outer_addFrame, if_pos rfl]

theorem lt_size_newScope {g : FrameId} (hg : g < s.frames.size) :
    g < (s.newScope f).2.frames.size := by
  rw [newScope, size_addFrame]
  exact Nat.lt_succ_of_lt hg

/-- A new frame of the first run was nobody's mate before. -/
theorem not_mates_new (h : s.Parallels T P s') (f' : FrameId) : ¬P.Mates s.frames.size f' :=
  fun hmates => Nat.lt_irrefl _ (h.inside_mates hmates).1

/-- Both runs make a frame. -/
theorem newScope (h : s.Parallels T P s') (hp : P k f f') :
    (s.newScope f).2.Parallels T (P.add k.inside s.frames.size s'.frames.size)
      (s'.newScope f').2 := by
  have hk := Hollow.inside_ne_zero k
  have hle := P.le_add k.inside s.frames.size s'.frames.size
  have hsize : s.frames.size < (s.newScope f).2.frames.size := by
    rw [Store.newScope, size_addFrame]
    exact Nat.lt_succ_self _
  have hsize' : s'.frames.size < (s'.newScope f').2.frames.size := by
    rw [Store.newScope, size_addFrame]
    exact Nat.lt_succ_self _
  have hold : ∀ {g g'}, P.Mates g g' → g ≠ s.frames.size ∧ g' ≠ s'.frames.size :=
    fun hmates => ⟨Nat.ne_of_lt (h.inside_mates hmates).1, Nat.ne_of_lt (h.inside_mates hmates).2⟩
  refine ⟨?_, ?_, ?_, ?_, ?_, ?_, ?_, h.instances, ?_, h.nextId⟩
  · rintro j g g' (hq | ⟨-, rfl, rfl⟩)
    · exact ⟨lt_size_newScope (h.inside hq).1, lt_size_newScope (h.inside hq).2⟩
    · exact ⟨hsize, hsize'⟩
  · rintro j g g' (hq | ⟨rfl, rfl, rfl⟩)
    · rw [chain_newScope_old (h.inside hq).1, chain_newScope_old (h.inside hq).2]
      exact (h.chain hq).imp fun _ _ hmates => hmates.mono hle
    · rw [chain_newScope_new, chain_newScope_new, Hollow.without_inside]
      exact .cons ((Pairing.mates_add hk).mpr (.inr ⟨rfl, rfl⟩))
        ((h.chain hp).imp fun _ _ hmates => hmates.mono hle)
  · -- The hollow frame around the new frame is the one around `f`.
    have hback : ∀ {i g g'}, P (some i) g g' →
        ∃ a, (s.chain g)[i]? = some a ∧ a < (s.newScope f).2.frames.size ∧
          ∀ a', ¬(P.add k.inside s.frames.size s'.frames.size).Mates a a' := by
      intro i g g' hq
      rcases h.hollow hq with ⟨a, ha, hlt, hnone⟩
      refine ⟨a, ha, lt_size_newScope hlt, ?_⟩
      intro a' hmates
      rcases (Pairing.mates_add hk).mp hmates with hmates | ⟨rfl, -⟩
      · exact hnone a' hmates
      · exact Nat.lt_irrefl _ hlt
    rintro i g g' (hq | ⟨hi, rfl, rfl⟩)
    · rw [chain_newScope_old (h.inside hq).1]
      exact hback hq
    · cases k with
      | none => cases hi
      | some j =>
          cases hi
          rw [chain_newScope_new, List.getElem?_cons_succ]
          exact hback hp
  · intro g g' a a' hmates hmates'
    rcases (Pairing.mates_add hk).mp hmates with hmates | ⟨rfl, rfl⟩
    · rcases (Pairing.mates_add hk).mp hmates' with hmates' | ⟨rfl, rfl⟩
      · exact h.unique hmates hmates'
      · exact iff_of_false (hold hmates).1 (hold hmates).2
    · rcases (Pairing.mates_add hk).mp hmates' with hmates' | ⟨rfl, rfl⟩
      · exact iff_of_false (hold hmates').1.symm (hold hmates').2.symm
      · exact iff_of_true rfl rfl
  · intro g g' hmates other
    rw [Store.newScope, Store.newScope, value?_addFrame, value?_addFrame]
    rcases (Pairing.mates_add hk).mp hmates with hmates | ⟨rfl, rfl⟩
    · exact (h.values hmates other).mono fun _ _ hv => hv.mono hle
    · rw [value?_of_size_le (Nat.le_refl _), value?_of_size_le (Nat.le_refl _)]
      exact .none
  · intro g hnone other
    rw [Store.newScope, value?_addFrame]
    exact h.empty (fun g' hmates => hnone g' (hmates.mono hle)) other
  · intro g' hg'
    rw [Store.newScope, size_addFrame] at hg'
    rcases Nat.lt_succ_iff_lt_or_eq.mp hg' with hlt | rfl
    · rcases h.mated hlt with ⟨g, hmates⟩
      exact ⟨g, hmates.mono hle⟩
    · exact ⟨_, (Pairing.mates_add hk).mpr (.inr ⟨rfl, rfl⟩)⟩
  · exact fun ho other => (h.fields ho other).mono fun _ _ hv => hv.mono hle

/-- Only the first run makes a frame. It is hollow. -/
theorem hollowScope (h : s.Parallels T P s') (hp : P none f f') :
    (s.newScope f).2.Parallels T (P.add (some 0) s.frames.size f') s' := by
  have hle := P.le_add (some 0) s.frames.size f'
  have hsize : s.frames.size < (s.newScope f).2.frames.size := by
    rw [Store.newScope, size_addFrame]
    exact Nat.lt_succ_self _
  refine ⟨?_, ?_, ?_, ?_, ?_, ?_, ?_, h.instances, ?_, h.nextId⟩
  · rintro j g g' (hq | ⟨-, rfl, rfl⟩)
    · exact ⟨lt_size_newScope (h.inside hq).1, (h.inside hq).2⟩
    · exact ⟨hsize, (h.inside hp).2⟩
  · rintro j g g' (hq | ⟨rfl, rfl, rfl⟩)
    · rw [chain_newScope_old (h.inside hq).1]
      exact (h.chain hq).imp fun _ _ hmates => hmates.mono hle
    · rw [chain_newScope_new, Hollow.without, List.eraseIdx_zero, List.tail_cons]
      exact (h.chain hp).imp fun _ _ hmates => hmates.mono hle
  · rintro i g g' (hq | ⟨hi, rfl, rfl⟩)
    · rw [chain_newScope_old (h.inside hq).1]
      rcases h.hollow hq with ⟨a, ha, hlt, hnone⟩
      exact ⟨a, ha, lt_size_newScope hlt, fun a' hmates =>
        hnone a' (Pairing.mates_add_hollow.mp hmates)⟩
    · cases hi
      rw [chain_newScope_new]
      exact ⟨_, rfl, hsize, fun a' hmates => h.not_mates_new a' (Pairing.mates_add_hollow.mp hmates)⟩
  · intro g g' a a' hmates hmates'
    exact h.unique (Pairing.mates_add_hollow.mp hmates) (Pairing.mates_add_hollow.mp hmates')
  · intro g g' hmates other
    rw [Store.newScope, value?_addFrame]
    exact (h.values (Pairing.mates_add_hollow.mp hmates) other).mono fun _ _ hv => hv.mono hle
  · intro g hnone other
    rw [Store.newScope, value?_addFrame]
    exact h.empty (fun g' hmates => hnone g' (hmates.mono hle)) other
  · intro g' hg'
    rcases h.mated hg' with ⟨g, hmates⟩
    exact ⟨g, hmates.mono hle⟩
  · exact fun ho other => (h.fields ho other).mono fun _ _ hv => hv.mono hle

/-! ### Numbers and instances -/

theorem fresh (h : s.Parallels T P s') : s.fresh.2.Parallels T P s'.fresh.2 :=
  ⟨h.inside, h.chain, h.hollow, h.unique, h.values, h.empty, h.mated, h.instances, h.fields,
    congrArg (· + 1) h.nextId⟩

theorem newInstance {cls cls' : Class} (h : s.Parallels T P s') :
    (s.newInstance cls).2.Parallels T P (s'.newInstance cls').2 := by
  refine ⟨h.inside, h.chain, h.hollow, h.unique, h.values, h.empty, h.mated, ?_, ?_, h.nextId⟩
  · simp only [Store.newInstance, Array.size_push, h.instances]
  · intro o o' ho other
    rw [field?_newInstance, field?_newInstance]
    exact h.fields ho other

theorem setField {o o' : Instance} (h : s.Parallels T P s') (ho : o'.id = o.id)
    (hv : v.Parallels T P v') :
    (s.setField o name v).Parallels T P (s'.setField o' name v') := by
  refine ⟨h.inside, h.chain, h.hollow, h.unique, h.values, h.empty, h.mated, ?_, ?_, h.nextId⟩
  · simp only [Store.setField, Array.size_modify, h.instances]
  · intro p p' hp other
    rw [field?_setField, field?_setField, ho, hp, h.instances]
    split
    · exact .some hv
    · exact h.fields hp other

end Parallels

end Store

end Lox
