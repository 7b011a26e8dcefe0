import Lox.Proofs.Rename.Store

/-!
# The names that frames bind

Evaluation binds names only where they are declared: of the frames that are there already, only the one
in which a statement is executed gains a name, and only the one that the statement declares.
`Store.Gains` says so of two stores.

`Alias.Clear` is what has to hold of a store for the old name to be put back in it: no frame binds both
names, and the globals do not bind the new one. `Alias.Admits` says that a frame may gain names.
-/

namespace Lox

namespace Store

variable {s t u : Store} {f g : FrameId} {name : String} {ks ls : List String} {value : Value}

/-- Of the frames of a store only `f` has gained names, and no others than `ks`. -/
structure Gains (s t : Store) (f : FrameId) (ks : List String) : Prop where
  size : s.frames.size ≤ t.frames.size
  names : ∀ g < s.frames.size, ∀ k ∈ t.names g, k ∈ s.names g ∨ g = f ∧ k ∈ ks

namespace Gains

theorem of_names (h : ∀ g, t.names g = s.names g) (hsize : t.frames.size = s.frames.size) :
    s.Gains t f ks := by
  refine ⟨Nat.le_of_eq hsize.symm, ?_⟩
  intro g _ k hk
  rw [h] at hk
  exact .inl hk

theorem refl : s.Gains s f ks :=
  of_names (fun _ => rfl) rfl

theorem mono (h : s.Gains t f ks) (hsub : ks ⊆ ls) : s.Gains t f ls :=
  ⟨h.size, fun g hg k hk => (h.names g hg k hk).imp_right fun hnew => ⟨hnew.1, hsub hnew.2⟩⟩

/-- If no name is gained, it does not matter in which frame. -/
theorem nothing (h : s.Gains t f []) : s.Gains t g ks := by
  refine ⟨h.size, ?_⟩
  intro g hg k hk
  rcases h.names g hg k hk with hold | ⟨-, hnil⟩
  · exact .inl hold
  · cases hnil

theorem trans (hst : s.Gains t f ks) (htu : t.Gains u f ls) : s.Gains u f (ks ++ ls) := by
  refine ⟨Nat.le_trans hst.size htu.size, ?_⟩
  intro g hg k hk
  rcases htu.names g (Nat.lt_of_lt_of_le hg hst.size) k hk with hold | ⟨rfl, hnew⟩
  · exact (hst.names g hg k hold).imp_right fun hnew => ⟨hnew.1, List.mem_append_left _ hnew.2⟩
  · exact .inr ⟨rfl, List.mem_append_right _ hnew⟩

/-- Nothing is gained first. -/
theorem after (hst : s.Gains t g []) (htu : t.Gains u f ks) : s.Gains u f ks := by
  have hnothing : s.Gains t f [] := hst.nothing
  exact hnothing.trans htu

/-- What a frame gains that was not there at the beginning does not count. -/
theorem outside (hst : s.Gains t g []) (htu : t.Gains u f ks) (hf : s.frames.size ≤ f) :
    s.Gains u g [] := by
  refine ⟨Nat.le_trans hst.size htu.size, ?_⟩
  intro g' hg k hk
  rcases htu.names g' (Nat.lt_of_lt_of_le hg hst.size) k hk with hold | ⟨rfl, -⟩
  · exact hst.names g' hg k hold
  · exact absurd hg (Nat.not_lt_of_le hf)

theorem addFrame {outer : List FrameId} : s.Gains (s.addFrame outer).2 f [] := by
  refine ⟨?_, ?_⟩
  · rw [size_addFrame]
    exact Nat.le_succ _
  · intro g _ k hk
    rw [Store.names, bindings_addFrame] at hk
    exact .inl hk

theorem define : s.Gains (s.define f name value) f [name] := by
  refine ⟨Nat.le_of_eq size_define.symm, ?_⟩
  intro g _ k hk
  rw [mem_names_iff, value?_define] at hk
  split at hk
  · rename_i heq
    exact .inr ⟨heq.1.symm, by simp [heq.2.2]⟩
  · exact .inl (mem_names_iff.mpr hk)

/-- A name that the frame binds already is not gained. -/
theorem define_of_mem (h : name ∈ s.names f) : s.Gains (s.define f name value) g [] := by
  refine ⟨Nat.le_of_eq size_define.symm, ?_⟩
  intro g hg k hk
  rcases define.names g hg k hk with hold | ⟨rfl, hname⟩
  · exact .inl hold
  · rw [List.mem_singleton.mp hname]
    exact .inl h

end Gains

end Store

namespace Alias

variable {n : Alias} {root f g : FrameId} {s t : Store} {name : String} {ks ls : List String}
  {value : Value}

/-- No frame binds both names, and the globals do not bind the new one. -/
structure Clear (n : Alias) (root : FrameId) (s : Store) : Prop where
  inside : root < s.frames.size
  apart : ∀ f, n.Apart (s.names f)
  globals : n.new ∉ s.names root

/-- A frame may gain names: it does not bind both names then either, and the globals do not gain the
new one. -/
structure Admits (n : Alias) (root : FrameId) (s : Store) (f : FrameId) (ks : List String) :
    Prop where
  apart : n.Apart (ks ++ s.names f)
  globals : f = root → n.new ∉ ks

theorem Clear.admits_nil (h : n.Clear root s) : n.Admits root s f [] :=
  ⟨h.apart f, fun _ hnil => nomatch hnil⟩

theorem Admits.mono (h : n.Admits root s f ls) (hsub : ks ⊆ ls) : n.Admits root s f ks :=
  ⟨h.apart.mono (List.append_subset.mpr
    ⟨List.subset_append_of_subset_left _ hsub, List.subset_append_right _ _⟩),
    fun hroot hmem => h.globals hroot (hsub hmem)⟩

/-- When a frame has gained some of the names it may still gain the others. -/
theorem Admits.gains (h : n.Admits root s f (ks ++ ls)) (hg : s.Gains t f ks)
    (hf : f < s.frames.size) : n.Admits root t f ls := by
  refine ⟨h.apart.mono ?_, fun hroot hmem => h.globals hroot (List.mem_append_right _ hmem)⟩
  intro k hk
  rcases List.mem_append.mp hk with hk | hk
  · exact List.mem_append_left _ (List.mem_append_right _ hk)
  · rcases hg.names f hf k hk with hold | ⟨-, hnew⟩
    · exact List.mem_append_right _ hold
    · exact List.mem_append_left _ (List.mem_append_left _ hnew)

theorem Admits.tells (h : n.Admits root s f [name]) : n.Tells name (s.names f) :=
  h.apart.tells

/-- A new frame may gain names that are apart. -/
theorem Clear.admits_addFrame {outer : List FrameId} (h : n.Clear root s) (hks : n.Apart ks) :
    n.Admits root (s.addFrame outer).2 s.frames.size ks := by
  have hnone : (s.addFrame outer).2.names s.frames.size = [] := by
    rw [Store.names, Store.bindings_addFrame, Store.bindings_of_size_le (Nat.le_refl _)]
    rfl
  refine ⟨?_, fun hroot => absurd h.inside (hroot ▸ Nat.lt_irrefl _)⟩
  rw [hnone, List.append_nil]
  exact hks

theorem Clear.define (h : n.Clear root s) (hadmits : n.Admits root s f [name]) :
    n.Clear root (s.define f name value) := by
  have hnames : ∀ g, ∀ k ∈ (s.define f name value).names g, k ∈ s.names g ∨ f = g ∧ k = name := by
    intro g k hk
    rw [Store.mem_names_iff, Store.value?_define] at hk
    split at hk
    · rename_i heq
      exact .inr ⟨heq.1, heq.2.2.symm⟩
    · exact .inl (Store.mem_names_iff.mpr hk)
  refine ⟨?_, ?_, ?_⟩
  · rw [Store.size_define]
    exact h.inside
  · intro g
    by_cases hg : f = g
    · subst hg
      refine hadmits.apart.mono ?_
      intro k hk
      rcases hnames f k hk with hold | ⟨-, rfl⟩
      · exact List.mem_append_right _ hold
      · exact List.mem_append_left _ List.mem_cons_self
    · refine (h.apart g).mono ?_
      intro k hk
      rcases hnames g k hk with hold | ⟨heq, -⟩
      · exact hold
      · exact absurd heq hg
  · intro hnew
    rcases hnames root n.new hnew with hold | ⟨heq, hname⟩
    · exact h.globals hold
    · exact hadmits.globals heq (hname ▸ List.mem_cons_self)

/-- A name that the frame binds already may be bound to another value. -/
theorem Clear.admits_of_mem (h : n.Clear root s) (hname : name ∈ s.names f) :
    n.Admits root s f [name] := by
  refine ⟨(h.apart f).mono ?_, ?_⟩
  · intro k hk
    rcases List.mem_append.mp hk with hk | hk
    · rw [List.mem_singleton.mp hk]
      exact hname
    · exact hk
  · rintro rfl hnew
    exact h.globals (List.mem_singleton.mp hnew ▸ hname)

/-- What was admitted stays admitted when some of it has been gained. -/
theorem Admits.again (h : n.Admits root s f ks) (hg : s.Gains t f ks) (hf : f < s.frames.size) :
    n.Admits root t f ks := by
  refine ⟨h.apart.mono ?_, h.globals⟩
  intro k hk
  rcases List.mem_append.mp hk with hk | hk
  · exact List.mem_append_left _ hk
  · rcases hg.names f hf k hk with hold | ⟨-, hnew⟩
    · exact List.mem_append_right _ hold
    · exact List.mem_append_left _ hnew

/-- In the globals every name but the new one is told from the others. -/
theorem Clear.tells_root (h : n.Clear root s) (hname : name ≠ n.new) :
    n.Tells name (s.names root) :=
  tells_of_not_mem h.globals hname

theorem Clear.define_of_mem (h : n.Clear root s) (hname : name ∈ s.names f) :
    n.Clear root (s.define f name value) :=
  h.define (h.admits_of_mem hname)

/-- A reserved word may always be bound. -/
theorem Clear.admits_reserved (h : n.Clear root s) (hname : Keyword.ofText? name ≠ none) :
    n.Admits root s f [name] := by
  have hold : n.old ≠ name := fun heq => hname (heq ▸ n.oldWord)
  have hnew : n.new ≠ name := fun heq => hname (heq ▸ n.newWord)
  refine ⟨?_, fun _ hmem => hnew (List.mem_singleton.mp hmem)⟩
  intro hboth
  have hapart := h.apart f
  simp only [List.singleton_append, List.mem_cons, hold, hnew, false_or] at hboth
  exact hapart hboth

theorem Clear.of_names (h : n.Clear root s) (hsize : s.frames.size ≤ t.frames.size)
    (hnames : ∀ g, t.names g = s.names g) : n.Clear root t := by
  refine ⟨Nat.lt_of_lt_of_le h.inside hsize, ?_, ?_⟩
  · intro f
    rw [hnames]
    exact h.apart f
  · rw [hnames]
    exact h.globals

theorem Clear.addFrame {outer : List FrameId} (h : n.Clear root s) :
    n.Clear root (s.addFrame outer).2 := by
  refine h.of_names ?_ fun g => congrArg Bindings.names Store.bindings_addFrame
  rw [Store.size_addFrame]
  exact Nat.le_succ _

end Alias

end Lox
