import Lox.Proofs.Scope.Trail

/-!
# What is around a place

The trail after the first steps of a walk holds exactly the regions that are around the place
reached, and in their scopes exactly the names whose declarations stand before it.

Main statements: `Trail.records_run`, and what follows from it for a look-up
(`Trail.Records.distance?_eq_some_iff`) and for the innermost function or class
(`Trail.Records.findSome?_eq_some_iff`).
-/

namespace Lox

open Walk

namespace Walk

/-! ## One more step -/

section

variable {kind : Step → Prop} {steps : List Step} {region : Region} {step : Step} {name : Ident}
  {d : Nat}

theorem Step.climb_leave {level : Nat} : Step.leave.climb level = some d ↔ level = d + 1 := by
  cases level with
  | zero => simp [climb]
  | succ level => simp [climb]

theorem since_enter_zero : Since kind (steps ++ [.enter region]) 0 ↔ kind (.enter region) := by
  rw [since_concat]
  simp [Step.climb]

theorem since_enter_succ :
    Since kind (steps ++ [.enter region]) (d + 1) ↔ Since kind steps d := by
  rw [since_concat]
  simp [Step.climb]

theorem since_leave (h : ¬kind .leave) :
    Since kind (steps ++ [.leave]) d ↔ Since kind steps (d + 1) := by
  rw [since_concat]
  simp [Step.climb_leave, h]

/-- A step that neither enters nor leaves a region changes no distance. -/
theorem since_level (hkind : ¬kind step) (hlevel : step.climb = some) :
    Since kind (steps ++ [step]) d ↔ Since kind steps d := by
  rw [since_concat, hlevel]
  simp [hkind]

theorem latest_enter_zero :
    Latest (steps ++ [.enter region]) name 0 ↔ region.bound? = some name := by
  rw [latest_concat]
  simp [Step.climb, Step.declares?]

theorem latest_enter_succ :
    Latest (steps ++ [.enter region]) name (d + 1) ↔ Latest steps name d := by
  rw [latest_concat]
  simp [Step.climb]

theorem latest_leave : Latest (steps ++ [.leave]) name d ↔ Latest steps name (d + 1) := by
  rw [latest_concat]
  simp [Step.climb_leave, Step.declares?]

theorem latest_level (hdeclares : step.declares? = none) (hlevel : step.climb = some) :
    Latest (steps ++ [step]) name d ↔ Latest steps name d := by
  rw [latest_concat, hlevel]
  simp [hdeclares]

theorem latest_declare_zero {new : Ident} :
    Latest (steps ++ [.declare new]) name 0 ↔
      new = name ∨ (Latest steps name 0 ∧ new.name ≠ name.name) := by
  rw [latest_concat]
  simp [Step.climb, Step.declares?]

theorem latest_declare_succ {new : Ident} :
    Latest (steps ++ [.declare new]) name (d + 1) ↔ Latest steps name (d + 1) := by
  rw [latest_concat]
  simp [Step.climb, Step.declares?]

end

end Walk

/-! ## The record -/

/-- The names of a scope are those that are declared in it at a distance, all of them defined. Each
stands there with its last declaration. -/
def Scope.Records (scope : Scope) (steps : List Step) (d : Nat) : Prop :=
  ∀ name value, scope.value? name = some value ↔
    value.defined = true ∧ Latest steps ⟨name, value.span⟩ d

/-- A trail holds what is around the place after the steps. -/
structure Trail.Records (t : Trail) (steps : List Step) : Prop where
  encloses : ∀ region d, t.regions[d]? = some region ↔ Encloses steps region d
  length : t.scopes.length = t.regions.length
  scopes : ∀ (scope : Scope) d, t.scopes[d]? = some scope → scope.Records steps d

/-- The entry of a name that was declared and defined. -/
theorem Declared.eq_iff {new : Ident} {name : String} {value : Declared} (h : new.name = name) :
    (⟨new.span, true⟩ : Declared) = value ↔ value.defined = true ∧ new = ⟨name, value.span⟩ := by
  rcases new with ⟨own, place⟩
  rcases value with ⟨span, defined⟩
  subst h
  simp [eq_comm, and_comm]

/-- A region binds its own name from the beginning, and no other. -/
theorem Walk.Region.value?_scope (region : Region) (name : String) (value : Declared) :
    region.scope.value? name = some value ↔
      value.defined = true ∧ region.bound? = some ⟨name, value.span⟩ := by
  unfold Region.scope
  cases region.bound? with
  | none =>
      simp
  | some bound =>
      simp only [Scopes.single, Bindings.value?_put, Bindings.value?_nil, Option.some.injEq]
      by_cases hname : bound.name = name
      · rw [if_pos hname, Option.some.injEq]
        exact Declared.eq_iff hname
      · rw [if_neg hname]
        constructor
        · intro h
          cases h
        · rintro ⟨-, rfl⟩
          exact absurd rfl hname

namespace Trail.Records

variable {t : Trail} {steps : List Step}

theorem start : Records ⟨[], []⟩ [] := by
  refine ⟨?_, rfl, ?_⟩
  · intro region d
    simp [Encloses, not_since_nil]
  · intro scope d h
    cases h

theorem enter (h : t.Records steps) (region : Region) :
    (t.advance (.enter region)).Records (steps ++ [.enter region]) := by
  refine ⟨?_, congrArg (· + 1) h.length, ?_⟩
  · intro other d
    cases d with
    | zero =>
        rw [Encloses, since_enter_zero]
        simp [advance]
    | succ d =>
        rw [Encloses, since_enter_succ]
        exact h.encloses other d
  · intro scope d hscope name value
    cases d with
    | zero =>
        cases hscope
        rw [latest_enter_zero]
        exact region.value?_scope name value
    | succ d =>
        rw [latest_enter_succ]
        exact h.scopes scope d hscope name value

theorem leave (h : t.Records steps) : (t.advance .leave).Records (steps ++ [.leave]) := by
  refine ⟨?_, ?_, ?_⟩
  · intro region d
    have hleave : ¬(Step.leave = .enter region) := by
      intro heq
      cases heq
    rw [Encloses, since_leave hleave, advance, List.getElem?_tail]
    exact h.encloses region (d + 1)
  · simp [advance, h.length]
  · intro scope d hscope name value
    rw [advance, List.getElem?_tail] at hscope
    rw [latest_leave]
    exact h.scopes scope (d + 1) hscope name value

theorem declare (h : t.Records steps) (new : Ident) :
    (t.advance (.declare new)).Records (steps ++ [.declare new]) := by
  refine ⟨?_, ?_, ?_⟩
  · intro region d
    rw [Encloses, since_level (fun heq => nomatch heq) rfl]
    exact h.encloses region d
  · rcases t with ⟨regions, _ | ⟨scope, outer⟩⟩ <;> exact h.length
  · rcases t with ⟨regions, _ | ⟨inner, outer⟩⟩
    · -- Among the globals there is no scope to record the name in.
      intro scope d hscope
      cases hscope
    · intro scope d hscope name value
      cases d with
      | zero =>
          have hinner := h.scopes inner 0 rfl name
          cases hscope
          rw [latest_declare_zero, Bindings.value?_put]
          -- The new entry takes the place of an older one of the same name, and of no other.
          by_cases hname : new.name = name
          · rw [if_pos hname, Option.some.injEq, Declared.eq_iff hname]
            simp [hname]
          · rw [if_neg hname, hinner value]
            have hnew : new ≠ ⟨name, value.span⟩ := fun heq => hname (congrArg Ident.name heq)
            simp [hname, hnew]
      | succ d =>
          rw [latest_declare_succ]
          exact h.scopes scope (d + 1) hscope name value

/-- A step that neither declares a name nor enters or leaves a region. -/
theorem level (h : t.Records steps) {step : Step} (hadvance : t.advance step = t)
    (hdeclares : step.declares? = none) (hlevel : step.climb = some) :
    (t.advance step).Records (steps ++ [step]) := by
  rw [hadvance]
  refine ⟨?_, h.length, ?_⟩
  · intro region d
    have hstep : ¬(step = .enter region) := by
      rintro rfl
      have hclimb : Step.climb (.enter region) 0 = some 0 := congrFun hlevel 0
      cases hclimb
    have hsame : Encloses (steps ++ [step]) region d ↔ Encloses steps region d :=
      since_level hstep hlevel
    exact (h.encloses region d).trans hsame.symm
  · intro scope d hscope name value
    rw [latest_level hdeclares hlevel]
    exact h.scopes scope d hscope name value

theorem advance (h : t.Records steps) (step : Step) :
    (t.advance step).Records (steps ++ [step]) := by
  cases step with
  | enter region => exact h.enter region
  | leave => exact h.leave
  | declare name => exact h.declare name
  | use u initialized => exact h.level rfl rfl rfl
  | «return» keyword hasValue => exact h.level rfl rfl rfl
  | inherit name parent => exact h.level rfl rfl rfl

end Trail.Records

/-- After any steps the trail holds what is around the place. -/
theorem Trail.records_run (steps : List Step) : (run ⟨[], []⟩ steps).Records steps := by
  -- The induction takes the steps from the end, as the trail is changed by the last step.
  induction steps using List.reverseRecOn with
  | nil =>
      exact .start
  | append_singleton steps step ih =>
      rw [run_append]
      exact ih.advance step

/-! ## What the record says -/

theorem Scopes.distance?_eq_findIdx? (scopes : Scopes) (name : String) :
    scopes.distance? name = scopes.findIdx? fun scope => (scope.value? name).isSome := by
  induction scopes with
  | nil => rfl
  | cons scope outer ih => rw [distance?, List.findIdx?_cons, ih]

/-- A look-up finds the first scope that binds the name. -/
theorem Scopes.distance?_eq_some_iff {scopes : Scopes} {name : String} {d : Nat} :
    scopes.distance? name = some d ↔
      (∃ (scope : Scope) (value : Declared),
        scopes[d]? = some scope ∧ scope.value? name = some value) ∧
      ∀ e (scope : Scope), e < d → scopes[e]? = some scope → scope.value? name = none := by
  rw [distance?_eq_findIdx?, List.findIdx?_eq_some_iff_getElem]
  constructor
  · rintro ⟨hd, hfound, hbefore⟩
    rcases Option.isSome_iff_exists.mp hfound with ⟨value, hvalue⟩
    refine ⟨⟨scopes[d], value, List.getElem?_eq_getElem hd, hvalue⟩, ?_⟩
    intro e scope hlt hscope
    rcases List.getElem?_eq_some_iff.mp hscope with ⟨he, rfl⟩
    simpa using hbefore e hlt
  · rintro ⟨⟨scope, value, hscope, hvalue⟩, hbefore⟩
    rcases List.getElem?_eq_some_iff.mp hscope with ⟨hd, rfl⟩
    refine ⟨hd, by rw [hvalue]; rfl, ?_⟩
    intro e hlt
    have he : scopes[e]? = some scopes[e] := List.getElem?_eq_getElem (Nat.lt_trans hlt hd)
    simp [hbefore e _ hlt he]

theorem findSome?_eq_some_iff_getElem? {α β : Type} {f : α → Option β} {xs : List α} {y : β} :
    xs.findSome? f = some y ↔
      ∃ x d, xs[d]? = some x ∧ f x = some y ∧
        ∀ (z : α) (e : Nat), xs[e]? = some z → e < d → f z = none := by
  rw [List.findSome?_eq_some_iff]
  constructor
  · rintro ⟨before, x, after, rfl, hx, hbefore⟩
    refine ⟨x, before.length, by simp, hx, ?_⟩
    intro z e hz hlt
    rw [List.getElem?_append_left hlt] at hz
    exact hbefore z (List.mem_of_getElem? hz)
  · rintro ⟨x, d, hd, hx, hbefore⟩
    rcases List.getElem?_eq_some_iff.mp hd with ⟨hlt, rfl⟩
    refine ⟨xs.take d, xs[d], xs.drop (d + 1), by simp, hx, ?_⟩
    intro z hz
    rcases List.getElem?_of_mem hz with ⟨e, he⟩
    rw [List.getElem?_take] at he
    split at he
    · rename_i hlt'
      exact hbefore z e he hlt'
    · cases he

namespace Trail.Records

variable {t : Trail} {steps : List Step}

theorem encloses_of_scope (h : t.Records steps) {scope : Scope} {d : Nat}
    (hscope : t.scopes[d]? = some scope) : ∃ region, Encloses steps region d := by
  have hlength : d < t.regions.length := by
    rw [← h.length]
    exact (List.getElem?_eq_some_iff.mp hscope).1
  exact ⟨t.regions[d], (h.encloses _ d).mp (List.getElem?_eq_getElem hlength)⟩

theorem scope_of_encloses (h : t.Records steps) {region : Region} {d : Nat}
    (hregion : Encloses steps region d) : ∃ scope : Scope, t.scopes[d]? = some scope := by
  have hlength : d < t.scopes.length := by
    rw [h.length]
    exact (List.getElem?_eq_some_iff.mp ((h.encloses region d).mpr hregion)).1
  exact ⟨t.scopes[d], List.getElem?_eq_getElem hlength⟩

/-- A scope binds a name exactly when the name has been declared in it. -/
theorem declares_iff (h : t.Records steps) {name : String} {d : Nat} :
    (∃ declared, Declares steps declared d ∧ declared.name = name) ↔
      ∃ (scope : Scope) (value : Declared),
        t.scopes[d]? = some scope ∧ scope.value? name = some value := by
  constructor
  · rintro ⟨declared, ⟨hnames, region, hregion⟩, rfl⟩
    rcases hnames.exists_latest with ⟨last, hlast, hname⟩
    rcases h.scope_of_encloses hregion with ⟨scope, hscope⟩
    have hvalue : scope.value? last.name = some ⟨last.span, true⟩ :=
      (h.scopes scope d hscope last.name ⟨last.span, true⟩).mpr ⟨rfl, hlast⟩
    rw [hname] at hvalue
    exact ⟨scope, _, hscope, hvalue⟩
  · rintro ⟨scope, value, hscope, hvalue⟩
    have hlast := ((h.scopes scope d hscope name value).mp hvalue).2
    exact ⟨⟨name, value.span⟩, ⟨hlast.names, h.encloses_of_scope hscope⟩, rfl⟩

/-- A look-up finds the nearest scope in which the name has been declared. -/
theorem distance?_eq_some_iff (h : t.Records steps) {name : String} {d : Nat} :
    t.scopes.distance? name = some d ↔ Binds steps name d := by
  rw [Scopes.distance?_eq_some_iff, Binds, h.declares_iff]
  refine and_congr_right fun _ => ?_
  constructor
  · intro hnone declared e hdeclares hname
    by_contra hlt
    rcases h.declares_iff.mp ⟨declared, hdeclares, hname⟩ with ⟨scope, value, hscope, hvalue⟩
    rw [hnone e scope (Nat.lt_of_not_le hlt) hscope] at hvalue
    cases hvalue
  · intro hnearest e scope hlt hscope
    cases hvalue : scope.value? name with
    | none =>
        rfl
    | some value =>
        rcases h.declares_iff.mpr ⟨scope, value, hscope, hvalue⟩ with ⟨declared, hdeclares, hname⟩
        exact absurd (hnearest declared e hdeclares hname) (Nat.not_le_of_lt hlt)

theorem findSome?_eq_some_iff (h : t.Records steps) {α : Type} {known? : Region → Option α}
    {x : α} : t.regions.findSome? known? = some x ↔ Innermost known? steps x := by
  rw [findSome?_eq_some_iff_getElem?]
  simp only [h.encloses]
  rfl

theorem findSome?_eq_none_iff (h : t.Records steps) {α : Type} {known? : Region → Option α} :
    t.regions.findSome? known? = none ↔
      ∀ region d, Encloses steps region d → known? region = none := by
  rw [List.findSome?_eq_none_iff]
  constructor
  · intro hnone region d hregion
    exact hnone region (List.mem_of_getElem? ((h.encloses region d).mpr hregion))
  · intro hnone region hregion
    rcases List.getElem?_of_mem hregion with ⟨d, hd⟩
    exact hnone region d ((h.encloses region d).mp hd)

theorem local_iff (h : t.Records steps) : Local steps ↔ t.scopes ≠ [] := by
  constructor
  · rintro ⟨region, hregion⟩ hnil
    rcases h.scope_of_encloses hregion with ⟨scope, hscope⟩
    rw [hnil] at hscope
    cases hscope
  · intro hscopes
    cases hcons : t.scopes with
    | nil => exact absurd hcons hscopes
    | cons scope outer => exact h.encloses_of_scope (congrArg (·[0]?) hcons)

end Trail.Records

/-- If something is known of a region around the place, there is an innermost one. -/
theorem Walk.exists_innermost {α : Type} {known? : Region → Option α} {before : List Step}
    (h : ¬∀ region d, Encloses before region d → known? region = none) :
    ∃ x, Innermost known? before x := by
  have hrecords := Trail.records_run before
  rw [← hrecords.findSome?_eq_none_iff] at h
  rcases Option.ne_none_iff_exists'.mp h with ⟨x, hx⟩
  exact ⟨x, hrecords.findSome?_eq_some_iff.mp hx⟩

end Lox
