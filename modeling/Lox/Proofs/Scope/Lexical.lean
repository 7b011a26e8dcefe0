import Lox.Proofs.Scope.Rules

/-!
# Lexical scope

The distances that resolution records are those of lexical scope. A use of a name has an entry
exactly when the name has been declared before it in a scope around it, and the entry leads to the
nearest such scope.

Main statement: `resolveProgram_is_lexical`.
-/

namespace Lox

open Walk

/-! ## Entries -/

namespace Locals

/-- Where no number occurs twice, the distance of a number is that of its entry. -/
theorem distance?_eq_some_iff {locals : Locals} (h : (locals.map Prod.fst).Nodup) {id d : Nat} :
    locals.distance? id = some d ↔ (id, d) ∈ locals := by
  induction locals with
  | nil =>
      simp [distance?]
  | cons entry locals ih =>
      rcases entry with ⟨other, distance⟩
      rw [List.map_cons, List.nodup_cons] at h
      by_cases hother : other = id
      · subst hother
        have hnot : (other, d) ∉ locals := fun hmem => h.1 (List.mem_map.mpr ⟨_, hmem, rfl⟩)
        simp [distance?, hnot, eq_comm]
      · have hne : (id, d) ≠ (other, distance) := fun heq => hother (congrArg Prod.fst heq).symm
        rw [distance?, if_neg hother, ih h.2, List.mem_cons, or_iff_right hne]

end Locals

namespace Trail

variable {t : Trail} {step : Step} {steps earlier later : List Step}

theorem findings_append (t : Trail) (xs ys : List Step) :
    t.findings (xs ++ ys) = t.findings xs ++ (t.run xs).findings ys := by
  have h : Follows t (xs ++ ys) (t.findings xs ++ (t.run xs).findings ys) _ :=
    Follows.append ⟨rfl, rfl⟩ ⟨rfl, rfl⟩
  exact h.findings

/-- If nothing is wrong along the walk, nothing is wrong at any of its steps. -/
theorem errors_found_of_findings (h : (t.findings (earlier ++ step :: later)).errors = []) :
    ((t.run earlier).found step).errors = [] := by
  rw [findings_append, findings, Findings.errors_append, Findings.errors_append] at h
  exact (List.append_eq_nil_iff.mp (List.append_eq_nil_iff.mp h).2).1

/-- Every entry is recorded at a step. -/
theorem mem_locals_findings {entry : Nat × Nat} :
    entry ∈ (t.findings steps).locals ↔
      ∃ earlier step later, steps = earlier ++ step :: later ∧
        entry ∈ ((t.run earlier).found step).locals := by
  constructor
  · intro h
    induction steps generalizing t with
    | nil =>
        cases h
    | cons step steps ih =>
        rw [findings, Findings.locals_append, List.mem_append] at h
        rcases h with h | h
        · exact ⟨[], step, steps, rfl, h⟩
        · rcases ih h with ⟨earlier, other, later, rfl, hmem⟩
          exact ⟨step :: earlier, other, later, rfl, hmem⟩
  · rintro ⟨earlier, step, later, rfl, h⟩
    rw [findings_append, findings, Findings.locals_append, Findings.locals_append]
    exact List.mem_append_right _ (List.mem_append_left _ h)

theorem locals_premature (scopes : Scopes) (initialized : Option Ident) (reference : Ident) :
    (scopes.premature initialized reference).locals = [] := by
  unfold Scopes.premature
  split
  · split <;> rfl
  · rfl

/-- A use that breaks no rule records the distance of its name, if it has one. -/
theorem locals_found_use {u : Use} {initialized : Option Ident}
    (h : (t.found (.use u initialized)).errors = []) :
    (t.found (.use u initialized)).locals =
      ((t.scopes.distance? u.kind.name).map fun d => (u.node.id, d)).toList := by
  rcases u with ⟨node, kind⟩
  cases kind with
  | read name =>
      have hpremature : (t.scopes.premature initialized ⟨name, node.span⟩).locals = [] :=
        locals_premature _ _ _
      have hfound : (t.found (.use ⟨node, .read name⟩ initialized)).locals =
          (t.scopes.locate node.id name).locals := by
        rw [found, Findings.locals_append, hpremature, List.nil_append]
      exact hfound.trans (Visit.locals_locate _ _ _)
  | assign name =>
      exact Visit.locals_locate _ _ _
  | this =>
      simp only [found] at h ⊢
      split at h
      · cases h
      · exact Visit.locals_locate _ _ _
  | super method =>
      simp only [found] at h ⊢
      -- Outside a class that inherits there is a violation.
      split at h
      · cases h
      · cases h
      · rw [Findings.none_append]
        exact Visit.locals_locate _ _ _

/-- Only uses record distances. -/
theorem exists_use_of_mem_locals {entry : Nat × Nat} (h : entry ∈ (t.found step).locals) :
    ∃ u initialized, step = .use u initialized := by
  cases step with
  | use u initialized =>
      exact ⟨u, initialized, rfl⟩
  | declare name =>
      rw [found, Stmt.locals_redeclaration] at h
      cases h
  | «return» keyword hasValue =>
      simp only [found] at h
      split at h <;> cases h
  | inherit name parent =>
      simp only [found] at h
      split at h <;> cases h
  | _ =>
      cases h

/-- An entry is recorded for a use, and for each use at most one. -/
theorem sublist_numbers (h : (t.findings steps).errors = []) :
    ((t.findings steps).locals.map Prod.fst).Sublist ((used steps).map fun u => u.node.id) := by
  induction steps generalizing t with
  | nil =>
      exact .refl _
  | cons step steps ih =>
      rw [findings, Findings.errors_append, List.append_eq_nil_iff] at h
      have hrest := ih h.2
      -- A step records nothing, or the distance of the one name it uses.
      have hhead : ((t.found step).locals.map Prod.fst).Sublist
          (step.use?.toList.map fun u => u.node.id) := by
        cases hlocals : (t.found step).locals with
        | nil =>
            exact List.nil_sublist _
        | cons entry others =>
            have hentry : entry ∈ (t.found step).locals := by
              rw [hlocals]
              exact List.mem_cons_self
            rcases exists_use_of_mem_locals hentry with ⟨u, initialized, rfl⟩
            rw [← hlocals, locals_found_use h.1]
            cases t.scopes.distance? u.kind.name with
            | none => exact List.nil_sublist _
            | some d => exact .refl _
      rw [findings, Findings.locals_append, List.map_append, used_cons, List.map_append]
      exact hhead.append hrest

end Trail

/-! ## The scopes of a class that inherits -/

namespace Walk

/-- A place inside the methods of a class that inherits is inside its outer region too. -/
theorem encloses_heritage {walk before after : List Step} (h : Furnished walk)
    (hwalk : walk = before ++ after) {name : Ident} {d : Nat}
    (hclass : Encloses before (.derived name) d) :
    ∃ parent, Encloses before (.heritage parent) (d + 1) := by
  induction before using List.reverseRecOn generalizing after d with
  | nil =>
      exact absurd hclass not_since_nil
  | append_singleton before step ih =>
      rw [List.append_assoc] at hwalk
      rcases since_concat.mp hclass with ⟨rfl, rfl⟩ | ⟨e, hbefore, hstep⟩
      · rcases h before name after hwalk with ⟨earlier, parent, rfl⟩
        have houter : Encloses (earlier ++ [.enter (.heritage parent)]) (.heritage parent) 0 :=
          since_enter_zero.mpr rfl
        exact ⟨parent, since_enter_succ.mpr houter⟩
      · rcases ih hwalk hbefore with ⟨parent, houter⟩
        exact ⟨parent, since_concat.mpr (.inr ⟨e + 1, houter, Step.climb_succ hstep⟩)⟩

end Walk

/-! ## Programs -/

namespace Stmt

/-- The name of a use in a program is bound at a distance: at the place of the use, the nearest scope
in which the name has been declared is so far out. -/
def BoundAt (ss : List Stmt) (u : Use) (d : Nat) : Prop :=
  ∃ before initialized after, walkAll ss = before ++ .use u initialized :: after ∧
    Binds before u.kind.name d

theorem BoundAt.mem_usesAll {ss : List Stmt} {u : Use} {d : Nat} (h : BoundAt ss u d) :
    u ∈ usesAll ss := by
  rcases h with ⟨before, initialized, after, hwalk, -⟩
  have hused : u ∈ used (walkAll ss) := by
    rw [hwalk, used_append, used_use]
    exact List.mem_append_right _ List.mem_cons_self
  exact (perm_usesAll ss).mem_iff.mp hused

theorem exists_walk_of_mem_usesAll {ss : List Stmt} {u : Use} (h : u ∈ usesAll ss) :
    ∃ before initialized after, walkAll ss = before ++ .use u initialized :: after := by
  have hused : u ∈ used (walkAll ss) := (perm_usesAll ss).mem_iff.mpr h
  rcases List.mem_filterMap.mp hused with ⟨step, hstep, huse⟩
  rcases List.append_of_mem hstep with ⟨before, after, hwalk⟩
  cases step with
  | use other initialized =>
      cases huse
      exact ⟨before, initialized, after, hwalk⟩
  | _ =>
      cases huse

/-- Where a program breaks no rule, resolution records the distances at which names are bound. -/
theorem mem_locals_iff {ss : List Stmt} (h : (programFindings ss).errors = []) {id d : Nat} :
    (id, d) ∈ (programFindings ss).locals ↔ ∃ u, u.node.id = id ∧ BoundAt ss u d := by
  rw [programFindings_eq] at h ⊢
  constructor
  · intro hmem
    rcases Trail.mem_locals_findings.mp hmem with ⟨before, step, after, hwalk, hentry⟩
    rcases Trail.exists_use_of_mem_locals hentry with ⟨u, initialized, rfl⟩
    rw [hwalk] at h
    rw [Trail.locals_found_use (Trail.errors_found_of_findings h), Option.mem_toList,
      Option.map_eq_some_iff] at hentry
    rcases hentry with ⟨distance, hdistance, heq⟩
    cases heq
    have hbinds : Binds before u.kind.name d :=
      (Trail.records_run before).distance?_eq_some_iff.mp hdistance
    exact ⟨u, rfl, before, initialized, after, hwalk, hbinds⟩
  · rintro ⟨u, rfl, before, initialized, after, hwalk, hbinds⟩
    have hdistance : (Trail.run ⟨[], []⟩ before).scopes.distance? u.kind.name = some d :=
      (Trail.records_run before).distance?_eq_some_iff.mpr hbinds
    refine Trail.mem_locals_findings.mpr ⟨before, .use u initialized, after, hwalk, ?_⟩
    rw [hwalk] at h
    rw [Trail.locals_found_use (Trail.errors_found_of_findings h), hdistance]
    exact List.mem_singleton.mpr rfl

/-- A use of the name that a region around it binds from its beginning is bound. -/
theorem exists_boundAt_of_encloses {ss : List Stmt} {u : Use} {before after : List Step}
    {initialized : Option Ident} (hwalk : walkAll ss = before ++ .use u initialized :: after)
    {region : Region} {d : Nat} {span : Span} (hregion : Encloses before region d)
    (hbound : region.bound? = some ⟨u.kind.name, span⟩) : ∃ e, BoundAt ss u e := by
  have hdeclares : Declares before ⟨u.kind.name, span⟩ d := hregion.declares hbound
  rcases hdeclares.exists_binds with ⟨e, hbinds⟩
  exact ⟨e, before, initialized, after, hwalk, hbinds⟩

/-- Where `this` may stand there is a class around, and its methods know `this`. -/
theorem boundAt_this {ss : List Stmt} (h : Keeps [] (walkAll ss)) {u : Use} (hu : u ∈ usesAll ss)
    (hkind : u.kind = .this) : ∃ d, BoundAt ss u d := by
  rcases exists_walk_of_mem_usesAll hu with ⟨before, initialized, after, hwalk⟩
  rcases u with ⟨node, kind⟩
  subst hkind
  have hkept := h before _ after hwalk
  have hclass : ∃ region d, Encloses before region d ∧ region.class? ≠ none := by
    by_contra hnone
    push Not at hnone
    exact hkept _ (.thisOutside hnone)
  rcases hclass with ⟨region, d, hregion, hknown⟩
  have hbound : ∃ span, region.bound? = some ⟨thisName, span⟩ := by
    cases region <;> simp_all [Region.class?, Region.bound?]
  rcases hbound with ⟨span, hbound⟩
  exact exists_boundAt_of_encloses hwalk hregion hbound

/-- Where `super` may stand the innermost class inherits, and around its methods `super` is known. -/
theorem boundAt_super {ss : List Stmt} (h : Keeps [] (walkAll ss)) {u : Use} (hu : u ∈ usesAll ss)
    {method : String} (hkind : u.kind = .super method) : ∃ d, BoundAt ss u d := by
  rcases exists_walk_of_mem_usesAll hu with ⟨before, initialized, after, hwalk⟩
  rcases u with ⟨node, kind⟩
  subst hkind
  have hkept := h before _ after hwalk
  -- Two rules speak of `super`: there is a class around it, and the innermost one inherits.
  have hinside : ¬∀ region d, Encloses before region d → region.class? = none :=
    fun houtside => hkept _ (.superOutside houtside)
  rcases exists_innermost hinside with ⟨cls, hinnermost⟩
  have hinherits : cls ≠ .root := by
    rintro rfl
    exact hkept _ (.superWithout hinnermost)
  rcases hinnermost with ⟨region, d, hregion, hknown, -⟩
  have hderived : ∃ name, region = .derived name := by
    cases region <;> simp_all [Region.class?]
  rcases hderived with ⟨name, rfl⟩
  -- The methods of that class stand in two regions, and the outer one knows `super`.
  rcases encloses_heritage (furnished_walkAll ss) hwalk hregion with ⟨parent, houter⟩
  exact exists_boundAt_of_encloses hwalk houter rfl

end Stmt

/-! ## Lexical scope -/

/-- Resolution is lexical scope. Of an accepted program, exactly those uses of names have an entry
whose name has been declared before in a scope around them, and the entry leads to the nearest such
scope. Every `this` and every `super` has an entry. Where the uses have numbers of their own, the
distance that is recorded for a number is that of its one entry. -/
theorem resolveProgram_is_lexical {ss : List Stmt} {locals : Locals}
    (h : resolveProgram ss = .ok locals) :
    (∀ id d, (id, d) ∈ locals ↔
      ∃ u ∈ Stmt.usesAll ss, u.node.id = id ∧ Stmt.BoundAt ss u d) ∧
    (∀ u ∈ Stmt.usesAll ss, (u.kind = .this ∨ ∃ method, u.kind = .super method) →
      ∃ d, (u.node.id, d) ∈ locals) ∧
    (((Stmt.usesAll ss).map fun u => u.node.id).Nodup →
      ∀ id d, locals.distance? id = some d ↔ (id, d) ∈ locals) := by
  rcases resolveProgram_ok h with ⟨herrors, rfl⟩
  have hlocals : ∀ id d, (id, d) ∈ (Stmt.programFindings ss).locals ↔
      ∃ u, u.node.id = id ∧ Stmt.BoundAt ss u d :=
    fun id d => Stmt.mem_locals_iff herrors
  refine ⟨?_, ?_, ?_⟩
  · intro id d
    rw [hlocals]
    constructor
    · rintro ⟨u, hid, hbound⟩
      exact ⟨u, hbound.mem_usesAll, hid, hbound⟩
    · rintro ⟨u, -, hid, hbound⟩
      exact ⟨u, hid, hbound⟩
  · intro u hu hkind
    have hkeeps : Keeps [] (Stmt.walkAll ss) := (Stmt.errors_eq_nil_iff ss).mp herrors
    have hbound : ∃ d, Stmt.BoundAt ss u d := by
      rcases hkind with hthis | ⟨method, hsuper⟩
      · exact Stmt.boundAt_this hkeeps hu hthis
      · exact Stmt.boundAt_super hkeeps hu hsuper
    rcases hbound with ⟨d, hbound⟩
    exact ⟨d, (hlocals u.node.id d).mpr ⟨u, rfl, hbound⟩⟩
  · intro hnodup id d
    have hused : ((used (Stmt.walkAll ss)).map fun u => u.node.id).Nodup :=
      ((Stmt.perm_usesAll ss).map _).nodup_iff.mpr hnodup
    have hnumbers : ((Stmt.programFindings ss).locals.map Prod.fst).Nodup := by
      rw [Stmt.programFindings_eq] at herrors ⊢
      exact (Trail.sublist_numbers herrors).nodup hused
    exact Locals.distance?_eq_some_iff hnumbers

/-- A class in a block that inherits from a global class. Its method uses `super` and `this`. -/
def inheritingBlock : List Stmt :=
  [.block [.class ⟨"B", ⟨8, 1⟩⟩ (some ⟨0, ⟨"A", ⟨12, 1⟩⟩⟩)
    [⟨⟨"m", ⟨16, 1⟩⟩, [],
      [.expression (.super ⟨1, ⟨22, 5⟩⟩ ⟨"m", ⟨28, 1⟩⟩), .expression (.this ⟨2, ⟨31, 4⟩⟩)]⟩]]]

theorem resolveProgram_is_lexical_inheritingBlock :
    resolveProgram inheritingBlock = .ok [(1, 2), (2, 1)] ∧
      Stmt.BoundAt inheritingBlock ⟨⟨1, ⟨22, 5⟩⟩, .super "m"⟩ 2 := by
  have hresolve : resolveProgram inheritingBlock = .ok [(1, 2), (2, 1)] := rfl
  rcases ((resolveProgram_is_lexical hresolve).1 1 2).mp List.mem_cons_self with
    ⟨u, hu, hid, hbound⟩
  have huses : Stmt.usesAll inheritingBlock =
      [⟨⟨0, ⟨12, 1⟩⟩, .read "A"⟩, ⟨⟨1, ⟨22, 5⟩⟩, .super "m"⟩, ⟨⟨2, ⟨31, 4⟩⟩, .this⟩] := rfl
  have huse : u = ⟨⟨1, ⟨22, 5⟩⟩, .super "m"⟩ := by
    rw [huses] at hu
    simp only [List.mem_cons, List.not_mem_nil, or_false] at hu
    rcases hu with rfl | rfl | rfl
    · cases hid
    · rfl
    · cases hid
  rw [huse] at hbound
  exact ⟨hresolve, hbound⟩

end Lox
