import Lox.Proofs.Eval.World
import Lox.Proofs.Parallel.Tree
import Lox.Proofs.Relabel.Scope

/-!
# Scope resolution with one scope less

A scope that binds nothing is left out around a program. A name that is bound inside of it keeps its
distance, and a name that is bound outside of it is found one step nearer.

* `Scopes.Parallels.distance` says so of the distances that are looked up.
* `Scopes.Homes` says where the methods of a class find `this` and `super`.
-/

namespace Lox

/-! ## The scopes around a place -/

namespace Scopes

variable {k : Hollow} {scopes scopes' : Scopes} {name : Ident} {other : String}

theorem distance?_eraseIdx {i : Nat} (h : scopes[i]? = some []) :
    distance? (scopes.eraseIdx i) other = (scopes.distance? other).map (Hollow.skip (some i)) := by
  induction scopes generalizing i with
  | nil => cases h
  | cons scope outer ih =>
      cases i with
      | zero =>
          cases h
          rw [List.eraseIdx_cons_zero, distance?]
          cases distance? outer other <;> rfl
      | succ i =>
          rw [List.eraseIdx_cons_succ, distance?, distance?, ih h]
          split
          · rfl
          · cases hd : distance? outer other with
            | none => rfl
            | some d =>
                -- The scope that binds the name is not the one that binds nothing.
                have hne : d ≠ i := by
                  rintro rfl
                  rcases exists_of_distance? hd with ⟨scope, declared, hscope, hvalue⟩
                  rw [List.getElem?_cons_succ, hscope] at h
                  cases h
                  cases hvalue
                simp only [Option.map_some, Hollow.skip, Nat.add_lt_add_iff_right,
                  Nat.add_sub_cancel, Option.some.injEq]
                split <;> omega

/-- Where the first scopes have one that binds nothing, the second ones have none. -/
structure Parallels (k : Hollow) (scopes scopes' : Scopes) : Prop where
  without : scopes' = k.without scopes
  empty : ∀ i, k = some i → scopes[i]? = some []

namespace Parallels

theorem refl (scopes : Scopes) : Parallels none scopes scopes :=
  ⟨rfl, fun _ h => nomatch h⟩

/-- The scope that is left out is the innermost one. -/
theorem hollow (scopes : Scopes) : Parallels (some 0) ([] :: scopes) scopes := by
  refine ⟨rfl, ?_⟩
  intro i hi
  cases hi
  rfl

theorem distance (h : Parallels k scopes scopes') (other : String) :
    scopes'.distance? other = (scopes.distance? other).map k.skip := by
  rw [h.without]
  cases k with
  | none => exact Option.map_id.symm ▸ rfl
  | some i => exact distance?_eraseIdx (h.empty i rfl)

/-- No name is bound in the scope that is left out. -/
theorem apart (h : Parallels k scopes scopes') {d : Nat} (hd : scopes.distance? other = some d) :
    k ≠ some d := by
  intro hk
  rcases exists_of_distance? hd with ⟨scope, declared, hscope, hvalue⟩
  rw [h.empty d hk] at hscope
  cases hscope
  cases hvalue

theorem push (h : Parallels k scopes scopes') (scope : Scope) :
    Parallels k.inside (scope :: scopes) (scope :: scopes') := by
  refine ⟨?_, ?_⟩
  · rw [h.without, Hollow.without_inside]
  · intro i hi
    rcases Option.map_eq_some_iff.mp hi with ⟨j, hj, rfl⟩
    exact h.empty j hj

/-- Only the innermost scope is changed, and it is not the one that is left out. -/
theorem head (change : Scopes → Scopes) (hnil : change [] = [])
    (hcons : ∀ scope : Scope, ∃ scope' : Scope, ∀ outer, change (scope :: outer) = scope' :: outer)
    (h : Parallels k scopes scopes') (hk : k ≠ some 0) :
    Parallels k (change scopes) (change scopes') := by
  rw [h.without]
  cases scopes with
  | nil =>
      have hwithout : k.without ([] : Scopes) = [] := by
        cases k <;> rfl
      rw [hwithout, hnil]
      exact ⟨hwithout.symm, h.empty⟩
  | cons scope outer =>
      rcases hcons scope with ⟨scope', hscope⟩
      rcases k with _ | _ | i
      · rw [Hollow.without, hscope]
        exact .refl _
      · exact absurd rfl hk
      · rw [Hollow.without, List.eraseIdx_cons_succ, hscope, hscope]
        refine ⟨rfl, ?_⟩
        intro j hj
        cases hj
        exact h.empty (i + 1) rfl

theorem define (h : Parallels k scopes scopes') (hk : k ≠ some 0) (name : Ident) :
    Parallels k (scopes.define name) (scopes'.define name) :=
  head (fun scopes => scopes.define name) rfl (fun _ => ⟨_, fun _ => rfl⟩) h hk

theorem declare (h : Parallels k scopes scopes') (hk : k ≠ some 0) (name : Ident) :
    Parallels k (scopes.declare name) (scopes'.declare name) :=
  head (fun scopes => scopes.declare name) rfl (fun _ => ⟨_, fun _ => rfl⟩) h hk

theorem defineAll (hk : k ≠ some 0) (names : List Ident) :
    ∀ {scopes scopes' : Scopes}, Parallels k scopes scopes' →
      Parallels k (scopes.defineAll names) (scopes'.defineAll names) := by
  induction names with
  | nil =>
      intro scopes scopes' h
      exact h
  | cons name names ih =>
      intro scopes scopes' h
      exact ih (h.define hk name)

end Parallels

/-- Inside a class `this` is bound, and `super` one step further out if the class inherits. -/
def Homes (owner : Option ClassDecl) (scopes : Scopes) : Prop :=
  ∀ d ∈ owner, ∃ near, scopes.distance? thisName = some near ∧
    (d.parent.isSome = true → scopes.distance? superName = some (near + 1))

namespace Homes

variable {owner : Option ClassDecl}

theorem of_distances (h : scopes.Homes owner)
    (hthis : scopes'.distance? thisName = scopes.distance? thisName)
    (hsuper : scopes'.distance? superName = scopes.distance? superName) : scopes'.Homes owner := by
  intro d hd
  rw [hthis, hsuper]
  exact h d hd

theorem define (h : scopes.Homes owner) (hname : name.IsWord) : (scopes.define name).Homes owner :=
  h.of_distances (distance?_define hname.ne_this) (distance?_define hname.ne_super)

theorem declare (h : scopes.Homes owner) (hname : name.IsWord) : (scopes.declare name).Homes owner :=
  h.of_distances (distance?_declare hname.ne_this) (distance?_declare hname.ne_super)

theorem defineAll {names : List Ident} (hnames : ∀ i ∈ names, i.IsWord) :
    ∀ {scopes : Scopes}, scopes.Homes owner → (scopes.defineAll names).Homes owner := by
  induction names with
  | nil =>
      intro scopes h
      exact h
  | cons name names ih =>
      intro scopes h
      exact ih (fun i hi => hnames i (List.mem_cons_of_mem _ hi))
        (h.define (hnames name List.mem_cons_self))

theorem enter (h : scopes.Homes owner) : Homes owner ([] :: scopes) := by
  intro d hd
  rcases h d hd with ⟨near, hthis, hsuper⟩
  refine ⟨near + 1, by simp [distance?, hthis], ?_⟩
  intro hparent
  simp [distance?, hsuper hparent]

theorem enterClass (scopes : Scopes) (d : ClassDecl) :
    (scopes.enterClass d.name d.parent).Homes (some d) := by
  intro d' hd'
  cases hd'
  refine ⟨0, by rw [enterClass_eq]; rfl, ?_⟩
  intro hparent
  rcases Option.isSome_iff_exists.mp hparent with ⟨parent, hsome⟩
  rw [hsome]
  rfl

theorem extend {s : Stmt} (h : scopes.Homes owner) (hsound : Stmt.Sound s.parts) :
    (s.extend scopes).Homes owner := by
  rw [Stmt.extend_of_plain scopes s hsound.plain]
  cases hdeclares : s.declares? with
  | none => exact h
  | some name =>
      exact h.define (hsound.words s (Stmt.mem_parts_self s) name
        (Stmt.mem_idents_of_declares? hdeclares))

end Homes

end Scopes

end Lox
