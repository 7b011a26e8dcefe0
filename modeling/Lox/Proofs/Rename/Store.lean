import Lox.Proofs.Rename.Value
import Lox.Proofs.Store.Basic

/-!
# Stores with a new name for a variable

An `Alias` is a new name for an old one. Putting back the old name wherever the new one stands changes
the names that frames bind, so it can make two names of one frame the same. Where it does not, every
operation on the store gives the same afterwards: `Alias.Tells` says that a name can still be told from
the other names of a frame, and `Alias.Apart` that a frame does not bind both the old and the new name.

Main statements: `Store.undo_define`, `Store.corresponds_getAt` and `Store.corresponds_assignAt`.
-/

namespace Lox

/-! ## Old and new names -/

/-- A new name for an old one. Neither is a reserved word. -/
structure Alias where
  old : String
  new : String
  oldWord : Keyword.ofText? old = none
  newWord : Keyword.ofText? new = none

namespace Alias

variable {n : Alias} {name : String} {ks ls : List String}

/-- The old name in the place of the new one. -/
def undo (n : Alias) (name : String) : String :=
  if name = n.new then n.old else name

/-- The renaming that puts back the old name wherever the new one is written. -/
def back (n : Alias) : Renaming :=
  ⟨fun i => n.undo i.name, fun r => n.undo r.name.name⟩

/-- Not both the old and the new name are among names. -/
def Apart (n : Alias) (ks : List String) : Prop :=
  ¬(n.old ∈ ks ∧ n.new ∈ ks)

/-- No other name becomes what a name becomes. -/
def Tells (n : Alias) (name : String) (ks : List String) : Prop :=
  ∀ k ∈ ks, n.undo k = n.undo name → k = name

theorem undo_of_ne (h : name ≠ n.new) : n.undo name = name :=
  if_neg h

theorem Apart.mono (h : n.Apart ls) (hsub : ks ⊆ ls) : n.Apart ks :=
  fun hboth => h ⟨hsub hboth.1, hsub hboth.2⟩

theorem apart_of_not_mem (h : n.new ∉ ks) : n.Apart ks :=
  fun hboth => h hboth.2

theorem Tells.mono (h : n.Tells name ls) (hsub : ks ⊆ ls) : n.Tells name ks :=
  fun k hk => h k (hsub hk)

theorem Apart.tells (h : n.Apart (name :: ks)) : n.Tells name ks := by
  intro k hk heq
  unfold undo at heq
  -- Two names can meet only if one is the old and the other the new one, which are not both listed.
  by_cases hnew : k = n.new
  · by_cases hname : name = n.new
    · exact hnew.trans hname.symm
    · rw [if_pos hnew, if_neg hname] at heq
      exact absurd ⟨heq ▸ List.mem_cons_self, hnew ▸ List.mem_cons_of_mem _ hk⟩ h
  · by_cases hname : name = n.new
    · rw [if_neg hnew, if_pos hname] at heq
      exact absurd ⟨heq ▸ List.mem_cons_of_mem _ hk, hname ▸ List.mem_cons_self⟩ h
    · rw [if_neg hnew, if_neg hname] at heq
      exact heq

/-- A name among others is told from them if the others are apart. -/
theorem Apart.tells_of_mem (h : n.Apart ks) (hname : name ∈ ks) : n.Tells name ks := by
  refine Apart.tells (h.mono ?_)
  intro k hk
  rcases List.mem_cons.mp hk with rfl | hk
  · exact hname
  · exact hk

theorem tells_of_ne (hold : name ≠ n.old) (hnew : name ≠ n.new) : n.Tells name ks := by
  intro k _ heq
  unfold undo at heq
  rw [if_neg hnew] at heq
  split at heq
  · exact absurd heq.symm hold
  · exact heq

/-- Where the new name does not stand, every other name is told from all names. -/
theorem tells_of_not_mem (hks : n.new ∉ ks) (hname : name ≠ n.new) : n.Tells name ks := by
  intro k hk heq
  have hk' : k ≠ n.new := fun h => hks (h ▸ hk)
  rwa [undo_of_ne hk', undo_of_ne hname] at heq

/-- A reserved word is told from all names. -/
theorem tells_reserved (h : Keyword.ofText? name ≠ none) : n.Tells name ks :=
  tells_of_ne (fun heq => h (heq ▸ n.oldWord)) fun heq => h (heq ▸ n.newWord)

theorem undo_reserved (h : Keyword.ofText? name ≠ none) : n.undo name = name :=
  undo_of_ne fun heq => h (heq ▸ n.newWord)

end Alias

/-! ## Bindings -/

namespace Bindings

variable {β γ : Type} {b : Bindings β} {g : String → String} {f : β → γ} {name : String}

/-- Other names, bound to what `f` makes of the values. -/
def mapEntries (g : String → String) (f : β → γ) (b : Bindings β) : Bindings γ :=
  b.map fun entry => (g entry.1, f entry.2)

theorem value?_mapEntries (h : ∀ k ∈ b.names, g k = g name → k = name) :
    (b.mapEntries g f).value? (g name) = (b.value? name).map f := by
  induction b with
  | nil =>
      rfl
  | cons entry rest ih =>
      rcases entry with ⟨key, value⟩
      have hrest := ih fun k hk => h k (List.mem_cons_of_mem _ hk)
      -- A key matches after the change if and only if it did before.
      have hkey : g key = g name ↔ key = name :=
        ⟨h key List.mem_cons_self, congrArg g⟩
      simp only [mapEntries, List.map_cons, value?, hkey] at hrest ⊢
      split
      · rfl
      · exact hrest

theorem mapEntries_put (value : β) (h : ∀ k ∈ b.names, g k = g name → k = name) :
    (b.put name value).mapEntries g f = (b.mapEntries g f).put (g name) (f value) := by
  induction b with
  | nil =>
      rfl
  | cons entry rest ih =>
      rcases entry with ⟨key, old⟩
      have hrest := ih fun k hk => h k (List.mem_cons_of_mem _ hk)
      have hkey : g key = g name ↔ key = name :=
        ⟨h key List.mem_cons_self, congrArg g⟩
      simp only [mapEntries, List.map_cons, put, hkey] at hrest ⊢
      split
      · rfl
      · simp [hrest]

end Bindings

/-! ## Stores -/

/-- The names that a frame binds. -/
def Store.names (s : Store) (f : FrameId) : List String :=
  (s.bindings f).names

def Frame.undo (n : Alias) (frame : Frame) : Frame :=
  ⟨frame.outer, frame.bindings.mapEntries n.undo (Value.rename n.back)⟩

namespace Store

variable {n : Alias} {s t : Store} {f g : FrameId} {name : String} {value : Value} {d : Nat}

/-- A store with the old name put back in its frames and in the trees that its values hold. -/
def undo (n : Alias) (s : Store) : Store :=
  ⟨s.frames.map (Frame.undo n), s.fields.map (Bindings.mapValues (Value.rename n.back)), s.nextId⟩

theorem mem_names_iff : name ∈ s.names f ↔ (s.value? f name).isSome = true :=
  Bindings.mem_names_iff (s.bindings f) name

/-! ### Frames -/

@[simp] theorem size_undo : (s.undo n).frames.size = s.frames.size := by
  simp [undo]

@[simp] theorem outer_undo : (s.undo n).outer f = s.outer f := by
  simp only [outer, undo, Array.getElem?_map]
  cases s.frames[f]? <;> rfl

@[simp] theorem chain_undo : (s.undo n).chain f = s.chain f := by
  simp [chain]

@[simp] theorem ancestor?_undo : (s.undo n).ancestor? f d = s.ancestor? f d := by
  cases d <;> simp [ancestor?]

theorem bindings_undo :
    (s.undo n).bindings f = (s.bindings f).mapEntries n.undo (Value.rename n.back) := by
  simp only [bindings, undo, Array.getElem?_map]
  cases s.frames[f]? <;> rfl

theorem value?_undo (h : n.Tells name (s.names f)) :
    (s.undo n).value? f (n.undo name) = (s.value? f name).map (Value.rename n.back) := by
  rw [value?, bindings_undo]
  exact Bindings.value?_mapEntries h

theorem undo_addFrame (outer : List FrameId) :
    (s.undo n).addFrame outer = (s.addFrame outer).map id (undo n) := by
  simp [addFrame, undo, Frame.undo, Bindings.mapEntries]

theorem undo_define (h : n.Tells name (s.names f)) :
    (s.undo n).define f (n.undo name) (value.rename n.back) = (s.define f name value).undo n := by
  -- Only one frame is changed, and there the names are told apart.
  have hframes : (s.undo n).frames.modify f (fun own =>
        { own with bindings := own.bindings.put (n.undo name) (value.rename n.back) }) =
      (s.define f name value).frames.map (Frame.undo n) := by
    apply Array.ext_getElem?
    intro g
    simp only [undo, define, Array.getElem?_modify, Array.getElem?_map]
    split
    · rename_i heq
      subst heq
      cases hframe : s.frames[f]? with
      | none =>
          rfl
      | some own =>
          have hown : s.names f = own.bindings.names := by
            simp [names, bindings, hframe]
          rw [hown] at h
          exact congrArg (fun b => some (Frame.mk own.outer b)) (Bindings.mapEntries_put value h).symm
    · rfl
  exact congrArg (Store.mk · (s.undo n).fields s.nextId) hframes

/-! ### Looking up and assigning -/

theorem corresponds_orUndefined {α β : Type} (name name' : String) (k : α → β) (a? : Option α) :
    Corresponds k (orUndefined name a?) (orUndefined name' (a?.map k)) := by
  cases a? with
  | none => exact .error _ _
  | some a => exact .ok a

theorem corresponds_getAt (h : ∀ g, s.ancestor? f d = some g → n.Tells name (s.names g)) :
    Corresponds (Value.rename n.back) (s.getAt f d name)
      ((s.undo n).getAt f d (n.undo name)) := by
  unfold getAt
  rw [ancestor?_undo]
  cases hancestor : s.ancestor? f d with
  | none =>
      exact .error _ _
  | some g =>
      rw [Option.bind_some, Option.bind_some, value?_undo (h g hancestor)]
      exact corresponds_orUndefined name (n.undo name) (Value.rename n.back) _

theorem corresponds_assignAt (h : ∀ g, s.ancestor? f d = some g → n.Tells name (s.names g)) :
    Corresponds (undo n) (s.assignAt f d name value)
      ((s.undo n).assignAt f d (n.undo name) (value.rename n.back)) := by
  unfold assignAt
  rw [ancestor?_undo]
  cases hancestor : s.ancestor? f d with
  | none =>
      exact .error _ _
  | some g =>
      have htells := h g hancestor
      rw [Option.filter_some, Option.filter_some, value?_undo htells, Option.isSome_map]
      split
      · exact .of_eq (undo_define htells)
      · exact .error _ _

/-- A frame that binds a name is the nearest one that does. -/
theorem holder?_of_mem (h : name ∈ s.names f) : s.holder? f name = some f :=
  List.find?_cons_of_pos (mem_names_iff.mp h)

theorem holder?_undo_of_mem (h : name ∈ s.names f) (htells : n.Tells name (s.names f)) :
    (s.undo n).holder? f (n.undo name) = some f := by
  refine List.find?_cons_of_pos ?_
  rw [value?_undo htells, Option.isSome_map]
  exact mem_names_iff.mp h

/-- The globals are the only frame in which a name is looked for from them on. -/
theorem holder?_undo_of_chain (hchain : s.chain f = [f]) (htells : n.Tells name (s.names f)) :
    (s.undo n).holder? f (n.undo name) = s.holder? f name := by
  unfold holder?
  rw [chain_undo, hchain, List.find?_singleton, List.find?_singleton, value?_undo htells,
    Option.isSome_map]

theorem corresponds_get (hchain : s.chain f = [f]) (htells : n.Tells name (s.names f)) :
    Corresponds (Value.rename n.back) (s.get f name) ((s.undo n).get f (n.undo name)) := by
  unfold get
  rw [holder?_undo_of_chain hchain htells]
  cases hholder : s.holder? f name with
  | none =>
      exact .error _ _
  | some g =>
      -- There is no frame around the globals, so the name can be bound in them only.
      have hg : g = f := by
        have hmem := List.mem_of_find?_eq_some hholder
        rw [hchain, List.mem_singleton] at hmem
        exact hmem
      subst hg
      rw [Option.bind_some, Option.bind_some, value?_undo htells]
      exact corresponds_orUndefined name (n.undo name) (Value.rename n.back) _

theorem corresponds_assign (hchain : s.chain f = [f]) (htells : n.Tells name (s.names f)) :
    Corresponds (undo n) (s.assign f name value)
      ((s.undo n).assign f (n.undo name) (value.rename n.back)) := by
  unfold assign
  rw [holder?_undo_of_chain hchain htells]
  cases hholder : s.holder? f name with
  | none =>
      exact .error _ _
  | some g =>
      have hg : g = f := by
        have hmem := List.mem_of_find?_eq_some hholder
        rw [hchain, List.mem_singleton] at hmem
        exact hmem
      subst hg
      exact .of_eq (undo_define htells)

/-- Where the frame itself binds the name, nothing else is looked at. -/
theorem corresponds_assign_of_mem (h : name ∈ s.names f) (htells : n.Tells name (s.names f))
    (value : Value) :
    Corresponds (undo n) (s.assign f name value)
      ((s.undo n).assign f (n.undo name) (value.rename n.back)) := by
  unfold assign
  rw [holder?_of_mem h, holder?_undo_of_mem h htells]
  exact .of_eq (undo_define htells)

/-- An assignment binds a name where it is bound already. -/
theorem exists_of_assign (h : s.assign f name value = .ok t) :
    ∃ g, name ∈ s.names g ∧ t = s.define g name value := by
  unfold assign at h
  cases hholder : s.holder? f name with
  | none =>
      rw [hholder] at h
      cases h
  | some g =>
      rw [hholder] at h
      cases h
      have hbound : (s.value? g name).isSome = true :=
        List.find?_some (p := fun g => (s.value? g name).isSome) hholder
      exact ⟨g, mem_names_iff.mpr hbound, rfl⟩

theorem exists_of_assignAt (h : s.assignAt f d name value = .ok t) :
    ∃ g, name ∈ s.names g ∧ t = s.define g name value := by
  unfold assignAt at h
  cases hholder : (s.ancestor? f d).filter fun g => (s.value? g name).isSome with
  | none =>
      rw [hholder] at h
      cases h
  | some g =>
      rw [hholder] at h
      cases h
      exact ⟨g, mem_names_iff.mpr (Option.filter_eq_some_iff.mp hholder).2, rfl⟩

/-! ### Instances -/

theorem undo_newInstance (cls : Class) :
    (s.undo n).newInstance (cls.rename n.back) =
      (s.newInstance cls).map (Instance.rename n.back) (undo n) := by
  simp [newInstance, undo, Instance.rename, Bindings.mapValues]

theorem field?_undo (object : Instance) (name : String) :
    (s.undo n).field? (object.rename n.back) name =
      (s.field? object name).map (Value.rename n.back) := by
  simp only [field?, undo, Instance.rename, Array.getElem?_map]
  cases s.fields[object.id]? with
  | none => rfl
  | some fields => exact Bindings.value?_mapValues (Value.rename n.back) fields name

theorem undo_setField (object : Instance) (name : String) (value : Value) :
    (s.undo n).setField (object.rename n.back) name (value.rename n.back) =
      (s.setField object name value).undo n := by
  -- Fields have no scopes, so their names are not changed.
  have hfields : (s.undo n).fields.modify object.id (fun fields =>
        fields.put name (value.rename n.back)) =
      (s.setField object name value).fields.map (Bindings.mapValues (Value.rename n.back)) := by
    apply Array.ext_getElem?
    intro i
    simp only [undo, setField, Array.getElem?_modify, Array.getElem?_map]
    split
    · cases s.fields[i]? with
      | none => rfl
      | some fields => exact congrArg some (Bindings.mapValues_put _ fields name value).symm
    · rfl
  exact congrArg (Store.mk (s.undo n).frames · s.nextId) hfields

end Store

end Lox
