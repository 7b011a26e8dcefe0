import Mathlib.Data.List.Induction
import Mathlib.Data.Nat.Find
import Lox.Proofs.Scope.Walk

/-!
# Places along a walk

A place is given by the steps that come before it. What is around it and which names are known there
is read off those steps alone: a region is around the place if it has been entered and not been left
since, and a name is known if its declaration stands before the place in a scope that has not been
left since. The distance to either is the number of regions that have been entered since and not been
left.

Each relation comes with a lemma that says what one more step changes: `since_concat`,
`latest_concat`.
-/

namespace Lox

namespace Walk

/-! ## Levels -/

/-- The level after a step, counted from the scope in which the counting began. That scope may not be
left. -/
def Step.climb : Step → Nat → Option Nat
  | .enter _, level => some (level + 1)
  | .leave, 0 => none
  | .leave, level + 1 => some level
  | _, level => some level

/-- How many regions the steps enter and do not leave, if they stay inside the scope in which they
begin. -/
def climb (steps : List Step) : Option Nat :=
  steps.foldlM (fun level step => step.climb level) 0

theorem climb_concat (steps : List Step) (step : Step) :
    climb (steps ++ [step]) = (climb steps).bind step.climb := by
  rw [climb, List.foldlM_append]
  show (climb steps >>= fun level => [step].foldlM (fun level step => step.climb level) level) = _
  simp [List.foldlM]

/-- Different levels stay different. -/
theorem Step.climb_inj {step : Step} {d e level : Nat} (hd : step.climb d = some level)
    (he : step.climb e = some level) : d = e := by
  cases step with
  | enter _ =>
      exact Nat.succ.inj (Option.some.inj (hd.trans he.symm))
  | leave =>
      cases d <;> cases e <;> simp_all [Step.climb]
  | _ =>
      exact Option.some.inj (hd.trans he.symm)

/-- A step reaches from one level further out to one level further out. -/
theorem Step.climb_succ {step : Step} {d e : Nat} (h : step.climb d = some e) :
    step.climb (d + 1) = some (e + 1) := by
  cases step with
  | leave =>
      cases d with
      | zero => cases h
      | succ d => exact congrArg (Option.map (· + 1)) h
  | _ =>
      exact congrArg (Option.map (· + 1)) h

/-! ## What has come before -/

/-- A step of a kind is among the steps, and the scope that the walk was in after it has not been left
since. Its distance is the number of regions that have been entered since and not been left. -/
def Since (kind : Step → Prop) (steps : List Step) (d : Nat) : Prop :=
  ∃ earlier step between, steps = earlier ++ step :: between ∧ kind step ∧ climb between = some d

/-- Where a step stands among steps that were continued by one more. -/
theorem concat_eq_append_cons {steps earlier between : List Step} {step first : Step}
    (h : steps ++ [step] = earlier ++ first :: between) :
    (steps = earlier ∧ step = first ∧ between = []) ∨
      ∃ rest, between = rest ++ [step] ∧ steps = earlier ++ first :: rest := by
  rcases List.eq_nil_or_concat between with rfl | ⟨rest, last, rfl⟩
  · rcases List.append_inj' h rfl with ⟨hsteps, hstep⟩
    exact .inl ⟨hsteps, List.singleton_inj.mp hstep, rfl⟩
  · have hconcat : steps ++ [step] = (earlier ++ first :: rest) ++ [last] := by
      rw [h, List.concat_eq_append, List.append_assoc, List.cons_append]
    rcases List.append_inj' hconcat rfl with ⟨hsteps, hstep⟩
    rw [List.singleton_inj.mp hstep]
    exact .inr ⟨rest, List.concat_eq_append, hsteps⟩

theorem not_since_nil {kind : Step → Prop} {d : Nat} : ¬Since kind [] d := by
  rintro ⟨earlier, step, between, heq, -, -⟩
  cases earlier <;> cases heq

/-- One more step may be of the kind itself. If not, it changes the distance of what came before. -/
theorem since_concat {kind : Step → Prop} {steps : List Step} {step : Step} {d : Nat} :
    Since kind (steps ++ [step]) d ↔
      (kind step ∧ d = 0) ∨ ∃ e, Since kind steps e ∧ step.climb e = some d := by
  constructor
  · rintro ⟨earlier, first, between, heq, hkind, hclimb⟩
    -- The step of the kind is the new one, or it stands before the new one.
    rcases concat_eq_append_cons heq with ⟨rfl, rfl, rfl⟩ | ⟨between, rfl, rfl⟩
    · cases hclimb
      exact .inl ⟨hkind, rfl⟩
    · rw [climb_concat, Option.bind_eq_some_iff] at hclimb
      rcases hclimb with ⟨e, hbetween, hstep⟩
      exact .inr ⟨e, ⟨earlier, first, between, rfl, hkind, hbetween⟩, hstep⟩
  · rintro (⟨hkind, rfl⟩ | ⟨e, ⟨earlier, first, between, rfl, hkind, hbetween⟩, hstep⟩)
    · exact ⟨steps, step, [], rfl, hkind, rfl⟩
    · refine ⟨earlier, first, between ++ [step], by simp, hkind, ?_⟩
      rw [climb_concat, hbetween]
      exact hstep

/-- A region is around the place, at a distance: so many regions are inside it. -/
def Encloses (before : List Step) (region : Region) (d : Nat) : Prop :=
  Since (· = .enter region) before d

/-- A scope is around the place. The globals are not. -/
def Local (before : List Step) : Prop :=
  ∃ region, Encloses before region 0

/-- The innermost region around the place of which something is known. -/
def Innermost {α : Type} (known? : Region → Option α) (before : List Step) (x : α) : Prop :=
  ∃ region d, Encloses before region d ∧ known? region = some x ∧
    ∀ inner e, Encloses before inner e → e < d → known? inner = none

/-- A name has been declared before the place, in a scope or among the globals. -/
def Names (before : List Step) (name : Ident) (d : Nat) : Prop :=
  Since (fun step => step.declares? = some name) before d

/-- A name has been declared before the place in a scope that is around it, at a distance. -/
def Declares (before : List Step) (name : Ident) (d : Nat) : Prop :=
  Names before name d ∧ ∃ region, Encloses before region d

/-- The nearest scope around the place in which a name has been declared before is at a distance. -/
def Binds (before : List Step) (name : String) (d : Nat) : Prop :=
  (∃ declared, Declares before declared d ∧ declared.name = name) ∧
    ∀ declared e, Declares before declared e → declared.name = name → d ≤ e

/-- A name that has been declared in a scope around the place is bound in the nearest one. -/
theorem Declares.exists_binds {before : List Step} {name : Ident} {d : Nat}
    (h : Declares before name d) : ∃ e, Binds before name.name e := by
  -- Of the distances at which the name has been declared the least is the nearest.
  classical
  have hdeclared : ∃ e declared, Declares before declared e ∧ declared.name = name.name :=
    ⟨d, name, h, rfl⟩
  refine ⟨Nat.find hdeclared, Nat.find_spec hdeclared, ?_⟩
  intro declared e hdeclares hname
  exact Nat.find_min' hdeclared ⟨declared, hdeclares, hname⟩

/-- A region that binds a name of the language declares it where it begins. -/
theorem Encloses.declares {before : List Step} {region : Region} {name : Ident} {d : Nat}
    (h : Encloses before region d) (hbound : region.bound? = some name) :
    Declares before name d := by
  refine ⟨?_, region, h⟩
  rcases h with ⟨earlier, step, between, hbefore, rfl, hclimb⟩
  exact ⟨earlier, .enter region, between, hbefore, hbound, hclimb⟩

/-- The last declaration of a name in one scope. -/
def Latest (before : List Step) (name : Ident) (d : Nat) : Prop :=
  ∃ earlier step between, before = earlier ++ step :: between ∧ step.declares? = some name ∧
    climb between = some d ∧ ∀ later, Names between later d → later.name ≠ name.name

theorem Latest.names {before : List Step} {name : Ident} {d : Nat} :
    Latest before name d → Names before name d := by
  rintro ⟨earlier, step, between, heq, hdeclares, hclimb, -⟩
  exact ⟨earlier, step, between, heq, hdeclares, hclimb⟩

/-- A declaration stays the last one until the name is declared again in its scope. -/
theorem latest_concat {steps : List Step} {step : Step} {name : Ident} {d : Nat} :
    Latest (steps ++ [step]) name d ↔
      (step.declares? = some name ∧ d = 0) ∨
        ∃ e, Latest steps name e ∧ step.climb e = some d ∧
          ∀ later, step.declares? = some later → d = 0 → later.name ≠ name.name := by
  constructor
  · rintro ⟨earlier, first, between, heq, hdeclares, hclimb, hlast⟩
    rcases concat_eq_append_cons heq with ⟨rfl, rfl, rfl⟩ | ⟨between, rfl, rfl⟩
    · cases hclimb
      exact .inl ⟨hdeclares, rfl⟩
    · rw [climb_concat, Option.bind_eq_some_iff] at hclimb
      rcases hclimb with ⟨e, hbetween, hstep⟩
      refine .inr ⟨e, ⟨earlier, first, between, rfl, hdeclares, hbetween, ?_⟩, hstep, ?_⟩
      · intro later hlater
        exact hlast later (since_concat.mpr (.inr ⟨e, hlater, hstep⟩))
      · rintro later hlater hd
        exact hlast later (since_concat.mpr (.inl ⟨hlater, hd⟩))
  · rintro (⟨hdeclares, rfl⟩ | ⟨e, ⟨earlier, first, between, rfl, hdeclares, hbetween, hlast⟩, hstep, hnew⟩)
    · exact ⟨steps, step, [], rfl, hdeclares, rfl, fun _ hlater => absurd hlater not_since_nil⟩
    · -- The old declaration is still the last one: the new step does not declare the name there.
      refine ⟨earlier, first, between ++ [step], by simp, hdeclares, ?_, ?_⟩
      · rw [climb_concat, hbetween]
        exact hstep
      · intro later hlater
        rcases since_concat.mp hlater with ⟨hdeclared, hd⟩ | ⟨e', hbefore, hstep'⟩
        · exact hnew later hdeclared hd
        · -- The step takes only one level to the level of the scope.
          have heq : e' = e := Step.climb_inj hstep' hstep
          rw [heq] at hbefore
          exact hlast later hbefore

/-- Of the declarations of a name in one scope one is the last. -/
theorem Names.exists_latest {before : List Step} {name : Ident} {d : Nat} (h : Names before name d) :
    ∃ last, Latest before last d ∧ last.name = name.name := by
  induction before using List.reverseRecOn generalizing d with
  | nil =>
      exact absurd h not_since_nil
  | append_singleton before step ih =>
      rcases since_concat.mp h with ⟨hdeclares, hd⟩ | ⟨e, hbefore, hstep⟩
      · exact ⟨name, latest_concat.mpr (.inl ⟨hdeclares, hd⟩), rfl⟩
      · rcases ih hbefore with ⟨last, hlast, hname⟩
        -- The last declaration before the step is the last one still, unless the step is one.
        by_cases hagain : d = 0 ∧ ∃ later, step.declares? = some later ∧ later.name = name.name
        · rcases hagain with ⟨hd, later, hlater, hsame⟩
          exact ⟨later, latest_concat.mpr (.inl ⟨hlater, hd⟩), hsame⟩
        · refine ⟨last, latest_concat.mpr (.inr ⟨e, hlast, hstep, ?_⟩), hname⟩
          intro later hlater hd hsame
          exact hagain ⟨hd, later, hlater, hsame.trans hname⟩

end Walk

end Lox
