import Lox.Proofs.Rename.Tree
import Lox.Proofs.Scope.Accepted

/-!
# Scopes with a new name for a variable

A declared variable gets a new name, and the names that lead to it get the same name. In the scopes
around a place the other declarations keep their names. If no scope binds the new name before, every
name leads to the same place afterwards.

Main statements: `Scopes.distance?_renamed` and `Scopes.declares_renamed`.
-/

namespace Lox

/-! ## One declaration under a new name -/

/-- The name of a declaration, when the declaration `i` gets a new one. -/
def Ident.nameWith (i : Ident) (new : String) (j : Ident) : String :=
  if j = i then new else j.name

/-- The declaration that a name leads to: the one in the nearest scope that binds the name. -/
def Scopes.binder? : Scopes → String → Option Ident
  | [], _ => none
  | scope :: outer, name =>
      ((scope.value? name).map fun declared => ⟨name, declared.span⟩).or (binder? outer name)

/-- A new name for a declaration, and some names for references. -/
def Renaming.ofDeclaration (i : Ident) (new : String) (used : Reference → String) : Renaming :=
  ⟨i.nameWith new, used⟩

/-- The names of a scope, when one of its declarations gets a new one. -/
def Scope.renamed (i : Ident) (new : String) (scope : Scope) : Scope :=
  scope.map fun entry => (i.nameWith new ⟨entry.1, entry.2.span⟩, entry.2)

/-- The scopes around a place, when one of the declarations gets a new name. -/
def Scopes.renamed (i : Ident) (new : String) (scopes : Scopes) : Scopes :=
  scopes.map (Scope.renamed i new)

/-- The name of a reference in the scopes, when one of the declarations gets a new name. -/
def Scopes.nameWith (i : Ident) (new : String) (scopes : Scopes) (name : String) : String :=
  ((scopes.binder? name).map (i.nameWith new)).getD name

/-- No scope binds a name. -/
def Scopes.Lacks (scopes : Scopes) (name : String) : Prop :=
  ∀ scope ∈ scopes, name ∉ Bindings.names scope

variable {i j : Ident} {new name : String} {scope : Scope} {scopes outer : Scopes}

namespace Ident

theorem nameWith_self : i.nameWith new i = new :=
  if_pos rfl

theorem nameWith_of_ne (h : j ≠ i) : i.nameWith new j = j.name :=
  if_neg h

/-- A declaration has the new name or its own. -/
theorem nameWith_cases (i : Ident) (new : String) (j : Ident) :
    i.nameWith new j = j.name ∨ i.nameWith new j = new ∧ j = i := by
  by_cases h : j = i
  · subst h
    exact .inr ⟨nameWith_self, rfl⟩
  · exact .inl (nameWith_of_ne h)

/-- Declarations with different names keep them apart. -/
theorem nameWith_ne {k : Ident} (h : j.name ≠ k.name) (hj : j.name ≠ new) (hk : k.name ≠ new) :
    i.nameWith new j ≠ i.nameWith new k := by
  rcases nameWith_cases i new j with hown | ⟨hown, rfl⟩
  · rcases nameWith_cases i new k with hother | ⟨hother, -⟩
    · rwa [hown, hother]
    · rwa [hown, hother]
  · have hne : k ≠ j := fun heq => h (congrArg name heq).symm
    rw [hown, nameWith_of_ne hne]
    exact fun heq => hk heq.symm

end Ident

/-! ## Looking for a name -/

namespace Scopes

theorem name_of_binder? (h : scopes.binder? name = some j) : j.name = name := by
  induction scopes with
  | nil => cases h
  | cons scope outer ih =>
      rw [binder?] at h
      cases hvalue : scope.value? name with
      | some declared =>
          rw [hvalue] at h
          cases h
          rfl
      | none =>
          rw [hvalue] at h
          exact ih h

/-- A name leads to its declaration in the scope at the distance that resolution finds. -/
theorem binder?_eq : scopes.binder? name =
    (scopes.distance? name).bind fun d =>
      (scopes[d]?.bind (Bindings.value? · name)).map fun declared => ⟨name, declared.span⟩ := by
  induction scopes with
  | nil => rfl
  | cons scope outer ih =>
      rw [binder?, distance?]
      cases hvalue : scope.value? name with
      | some declared => simp [hvalue]
      | none =>
          rw [ih]
          cases distance? outer name <;> simp

/-- A reference has its own name, or it leads to the declaration that gets the new one. -/
theorem nameWith_cases (i : Ident) (new : String) (scopes : Scopes) (name : String) :
    scopes.nameWith i new name = name ∨ scopes.nameWith i new name = new ∧ i.name = name := by
  unfold nameWith
  cases hbinder : scopes.binder? name with
  | none => exact .inl rfl
  | some j =>
      have hname : j.name = name := name_of_binder? hbinder
      rcases Ident.nameWith_cases i new j with hown | ⟨hown, rfl⟩
      · exact .inl (hown.trans hname)
      · exact .inr ⟨hown, hname⟩

theorem nameWith_of_ne (h : i.name ≠ name) : scopes.nameWith i new name = name := by
  rcases nameWith_cases i new scopes name with hown | ⟨-, hname⟩
  · exact hown
  · exact absurd hname h

end Scopes

namespace Scope

theorem value?_renamed_of_some {declared : Declared} (hnew : new ∉ scope.names) (hname : name ≠ new)
    (h : scope.value? name = some declared) :
    (renamed i new scope).value? (i.nameWith new ⟨name, declared.span⟩) = some declared := by
  induction scope with
  | nil => cases h
  | cons entry rest ih =>
      rcases entry with ⟨key, old⟩
      have hkey : key ≠ new ∧ new ∉ Bindings.names rest := by
        rw [Bindings.names, List.map_cons, List.mem_cons, not_or] at hnew
        exact ⟨fun heq => hnew.1 heq.symm, hnew.2⟩
      rw [Bindings.value?] at h
      rw [renamed, List.map_cons, Bindings.value?]
      by_cases heq : key = name
      · subst heq
        rw [if_pos rfl] at h
        cases h
        rw [if_pos rfl]
      · rw [if_neg heq] at h
        rw [if_neg (Ident.nameWith_ne heq hkey.1 hname)]
        exact ih hkey.2 h

theorem value?_renamed_of_none {key : String} (hnew : new ∉ scope.names) (hname : name ≠ new)
    (hkey : key = name ∨ key = new ∧ i.name = name) (h : scope.value? name = none) :
    (renamed i new scope).value? key = none := by
  induction scope with
  | nil => rfl
  | cons entry rest ih =>
      rcases entry with ⟨other, old⟩
      rw [Bindings.names, List.map_cons, List.mem_cons, not_or] at hnew
      rw [Bindings.value?] at h
      split at h
      · cases h
      · rename_i hother
        have hne : i.nameWith new ⟨other, old.span⟩ ≠ key := by
          rcases hkey with rfl | ⟨rfl, rfl⟩
          · rcases Ident.nameWith_cases i new ⟨other, old.span⟩ with hown | ⟨hown, -⟩
            · rwa [hown]
            · rw [hown]
              exact fun heq => hname heq.symm
          · -- Only `i` is called by the new name, and `i` had the name that is not found.
            have hi : (⟨other, old.span⟩ : Ident) ≠ i := fun heq => hother (congrArg Ident.name heq)
            rw [Ident.nameWith_of_ne hi]
            exact fun heq => hnew.1 heq.symm
        rw [renamed, List.map_cons, Bindings.value?, if_neg hne]
        exact ih hnew.2 h

/-- The name of a reference is found in the innermost scope if it was found there before. -/
theorem value?_renamed (hnew : new ∉ scope.names) (hname : name ≠ new) (outer : Scopes) :
    (renamed i new scope).value? (Scopes.nameWith i new (scope :: outer) name) =
      scope.value? name := by
  cases hvalue : scope.value? name with
  | some declared =>
      have hbinder : Scopes.nameWith i new (scope :: outer) name =
          i.nameWith new ⟨name, declared.span⟩ := by
        rw [Scopes.nameWith, Scopes.binder?, hvalue]
        rfl
      rw [hbinder]
      exact value?_renamed_of_some hnew hname hvalue
  | none =>
      exact value?_renamed_of_none hnew hname (Scopes.nameWith_cases i new (scope :: outer) name) hvalue

/-- A declaration of a new name under the name it gets. -/
theorem put_renamed {declared : Declared} (hnew : new ∉ scope.names) (hname : j.name ≠ new)
    (h : scope.value? j.name = none) (hspan : declared.span = j.span) :
    (renamed i new scope).put (i.nameWith new j) declared =
      renamed i new (scope.put j.name declared) := by
  have hkey : i.nameWith new j = j.name ∨ i.nameWith new j = new ∧ i.name = j.name :=
    (Ident.nameWith_cases i new j).imp_right fun h => ⟨h.1, congrArg Ident.name h.2.symm⟩
  have hnone : i.nameWith new j ∉ (renamed i new scope).names := by
    rw [Bindings.mem_names_iff, value?_renamed_of_none hnew hname hkey h]
    exact Bool.false_ne_true
  have hold : j.name ∉ scope.names := by
    rw [Bindings.mem_names_iff, h]
    exact Bool.false_ne_true
  have hident : (⟨j.name, declared.span⟩ : Ident) = j := by
    rw [hspan]
  rw [Bindings.put_of_not_mem hnone, Bindings.put_of_not_mem hold, renamed, renamed, List.map_append,
    List.map_singleton, hident]

end Scope

namespace Scopes

theorem distance?_renamed (hnew : scopes.Lacks new) (hname : name ≠ new) :
    (scopes.renamed i new).distance? (scopes.nameWith i new name) = scopes.distance? name := by
  induction scopes with
  | nil => rfl
  | cons scope outer ih =>
      have hscope : new ∉ Bindings.names scope := hnew scope List.mem_cons_self
      have houter : Lacks outer new := fun other hother => hnew other (List.mem_cons_of_mem _ hother)
      rw [renamed, List.map_cons, distance?, distance?, Scope.value?_renamed hscope hname]
      cases hvalue : scope.value? name with
      | some declared => rfl
      | none =>
          have hbinder : nameWith i new (scope :: outer) name = nameWith i new outer name := by
            rw [nameWith, nameWith, binder?, hvalue]
            rfl
          rw [hbinder]
          exact congrArg (Option.map (· + 1)) (ih houter)

theorem pending?_renamed (hnew : scopes.Lacks new) (hname : name ≠ new) :
    (scopes.renamed i new).pending? (scopes.nameWith i new name) = scopes.pending? name := by
  cases scopes with
  | nil => rfl
  | cons scope outer =>
      rw [renamed, List.map_cons, pending?, pending?,
        Scope.value?_renamed (hnew scope List.mem_cons_self) hname]

theorem locate_renamed (hnew : scopes.Lacks new) (hname : name ≠ new) (id : Nat) :
    (scopes.renamed i new).locate id (scopes.nameWith i new name) = scopes.locate id name := by
  rw [locate, locate, distance?_renamed hnew hname]

/-- A reserved word is found in the same place. -/
theorem locate_renamed_word (hi : i.IsWord) (hword : Keyword.ofText? new = none)
    (hnew : scopes.Lacks new) (hname : Keyword.ofText? name ≠ none) (id : Nat) :
    (scopes.renamed i new).locate id name = scopes.locate id name := by
  have hold : i.name ≠ name := fun heq => hname (heq ▸ hi)
  have hne : name ≠ new := fun heq => hname (heq ▸ hword)
  have hlocate := locate_renamed (i := i) hnew hne id
  rwa [nameWith_of_ne hold] at hlocate

/-! ## Declaring a name -/

theorem Lacks.enter (h : scopes.Lacks new) : Lacks ([] :: scopes) new := by
  intro scope hscope
  rcases List.mem_cons.mp hscope with rfl | hscope
  · exact List.not_mem_nil
  · exact h scope hscope

theorem Lacks.put (h : Lacks (scope :: outer) new) (hname : name ≠ new) (declared : Declared) :
    Lacks (scope.put name declared :: outer) new := by
  intro other hother
  rcases List.mem_cons.mp hother with rfl | hother
  · rw [Bindings.mem_names_iff, Bindings.value?_put_of_ne _ _ hname, ← Bindings.mem_names_iff]
    exact h scope List.mem_cons_self
  · exact h other (List.mem_cons_of_mem _ hother)

theorem Lacks.define (h : scopes.Lacks new) (hname : j.name ≠ new) : (scopes.define j).Lacks new := by
  cases scopes with
  | nil => exact h
  | cons scope outer => exact h.put hname _

theorem Lacks.declare (h : scopes.Lacks new) (hname : j.name ≠ new) :
    (scopes.declare j).Lacks new := by
  cases scopes with
  | nil => exact h
  | cons scope outer => exact h.put hname _

theorem Lacks.single (h : scopes.Lacks new) (hname : name ≠ new) (span : Span) :
    Lacks (Scopes.single name span :: scopes) new :=
  h.enter.put hname _

/-- The scopes around methods. A class is declared under its own name. -/
theorem enterClass_renamed {used : Reference → String} (hi : i.IsWord) (name : Ident)
    (parent : Option Reference) :
    (scopes.renamed i new).enterClass name
        (parent.map (Reference.rename (.ofDeclaration i new used))) =
      (scopes.enterClass name parent).renamed i new := by
  -- A reserved word is declared in a scope of its own, and it is not the declaration `i`.
  have hsingle : ∀ {word : String} (span : Span), Keyword.ofText? word ≠ none →
      Scope.renamed i new (single word span) = single word span := by
    intro word span hreserved
    have hne : (⟨word, span⟩ : Ident) ≠ i := by
      rintro rfl
      exact hreserved hi
    rw [single, Bindings.put, Scope.renamed, List.map_singleton, Ident.nameWith_of_ne hne]
  have hthis : Scope.renamed i new (single thisName name.span) = single thisName name.span :=
    hsingle name.span (by decide)
  cases parent with
  | none =>
      rw [Option.map_none, enterClass, enterClass, renamed, renamed, List.map_cons, hthis]
  | some parent =>
      have hsuper : Scope.renamed i new (single superName parent.name.span) =
          single superName parent.name.span := hsingle parent.name.span (by decide)
      rw [Option.map_some, enterClass, enterClass, renamed, renamed, List.map_cons, List.map_cons,
        hthis, hsuper]
      rfl

theorem Lacks.enterClass (h : scopes.Lacks new) (hnew : Keyword.ofText? new = none) (name : Ident)
    (parent : Option Reference) : (scopes.enterClass name parent).Lacks new := by
  have hne : ∀ {word : String}, Keyword.ofText? word ≠ none → word ≠ new :=
    fun hreserved heq => hreserved (heq ▸ hnew)
  have hthis : thisName ≠ new := hne (by decide)
  have hsuper : superName ≠ new := hne (by decide)
  cases parent with
  | none => exact h.single hthis name.span
  | some parent => exact (h.single hsuper parent.name.span).single hthis name.span

theorem redeclaration_of_none (h : scope.value? j.name = none) :
    redeclaration (scope :: outer) j = .none := by
  simp [redeclaration, h]

/-- A declaration that violates no rule violates none under the name it gets, and it is found under
that name. -/
theorem declares_renamed (used : Reference → String) (hnew : scopes.Lacks new)
    (hname : j.name ≠ new) (h : (scopes.redeclaration j).errors = []) :
    let renamed := scopes.renamed i new
    let ident := j.rename (.ofDeclaration i new used)
    renamed.redeclaration ident = scopes.redeclaration j ∧
      renamed.declare ident = (scopes.declare j).renamed i new ∧
        renamed.define ident = (scopes.define j).renamed i new := by
  cases scopes with
  | nil => exact ⟨rfl, rfl, rfl⟩
  | cons scope outer =>
      have hscope : new ∉ Bindings.names scope := hnew scope List.mem_cons_self
      have hnone : scope.value? j.name = none := new_of_redeclaration h
      have hkey : i.nameWith new j = j.name ∨ i.nameWith new j = new ∧ i.name = j.name :=
        (Ident.nameWith_cases i new j).imp_right fun h => ⟨h.1, congrArg Ident.name h.2.symm⟩
      have hnone' : (Scope.renamed i new scope).value? (i.nameWith new j) = none :=
        Scope.value?_renamed_of_none hscope hname hkey hnone
      have hput : ∀ defined : Bool,
          Bindings.put (Scope.renamed i new scope) (i.nameWith new j) ⟨j.span, defined⟩ =
            Scope.renamed i new (scope.put j.name ⟨j.span, defined⟩) :=
        fun defined => Scope.put_renamed hscope hname hnone rfl
      refine ⟨?_, congrArg (· :: _) (hput false), congrArg (· :: _) (hput true)⟩
      rw [redeclaration_of_none hnone]
      exact redeclaration_of_none hnone'

end Scopes

end Lox
