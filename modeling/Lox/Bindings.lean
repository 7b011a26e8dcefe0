/-!
# Names and what they are bound to

A collection of bindings holds each name at most once, in the order in which the names were first
bound. Scopes, frames, fields of instances and methods of classes are collections of bindings.

Main statements: `value?_put` says what a look-up finds after a change, and `names_put` and
`nodup_names_put` say which names are bound.
-/

namespace Lox

/-- Names and what they are bound to, in the order in which the names were first bound. -/
abbrev Bindings (β : Type) := List (String × β)

namespace Bindings

variable {β : Type}

/-- What a name is bound to. -/
def value? : Bindings β → String → Option β
  | [], _ => none
  | (other, value) :: rest, name => if other = name then some value else value? rest name

/-- Binds a name. A binding the name already has is replaced in its place. -/
def put : Bindings β → String → β → Bindings β
  | [], name, value => [(name, value)]
  | (other, old) :: rest, name, value =>
      if other = name then (other, value) :: rest else (other, old) :: put rest name value

/-- The same names, bound to what `f` makes of the values. -/
def mapValues {γ : Type} (f : β → γ) (b : Bindings β) : Bindings γ :=
  b.map fun entry => (entry.1, f entry.2)

/-- The names that are bound. -/
def names (b : Bindings β) : List String :=
  b.map Prod.fst

@[simp] theorem value?_nil (name : String) : value? ([] : Bindings β) name = none :=
  rfl

theorem value?_put (b : Bindings β) (name other : String) (value : β) :
    (b.put name value).value? other = if name = other then some value else b.value? other := by
  induction b with
  | nil => simp [put, value?]
  | cons entry rest ih =>
      rcases entry with ⟨key, old⟩
      by_cases hkey : key = name
      · subst hkey
        by_cases hother : key = other <;> simp [put, value?, hother]
      · by_cases hother : key = other
        · subst hother
          have hname : ¬name = key := fun h => hkey h.symm
          simp [put, value?, hkey, hname]
        · simp [put, value?, hkey, hother, ih]

@[simp] theorem value?_put_self (b : Bindings β) (name : String) (value : β) :
    (b.put name value).value? name = some value := by
  simp [value?_put]

theorem value?_put_of_ne {name other : String} (b : Bindings β) (value : β)
    (h : name ≠ other) : (b.put name value).value? other = b.value? other := by
  simp [value?_put, h]

theorem mem_of_value? {b : Bindings β} {name : String} {value : β} :
    b.value? name = some value → (name, value) ∈ b := by
  induction b with
  | nil =>
      intro h
      cases h
  | cons entry rest ih =>
      rcases entry with ⟨key, old⟩
      intro h
      rw [value?] at h
      split at h
      · rename_i hkey
        cases h
        rw [hkey]
        exact List.mem_cons_self
      · exact List.mem_cons_of_mem _ (ih h)

theorem mem_of_mem_put {b : Bindings β} {name : String} {value : β} {entry : String × β} :
    entry ∈ b.put name value → entry = (name, value) ∨ entry ∈ b := by
  induction b with
  | nil =>
      intro h
      rw [put, List.mem_singleton] at h
      exact .inl h
  | cons first rest ih =>
      rcases first with ⟨key, old⟩
      intro h
      rw [put] at h
      split at h
      · rename_i hkey
        rcases List.mem_cons.mp h with rfl | h
        · exact .inl (by rw [hkey])
        · exact .inr (List.mem_cons_of_mem _ h)
      · rcases List.mem_cons.mp h with rfl | h
        · exact .inr List.mem_cons_self
        · exact (ih h).imp_right (List.mem_cons_of_mem _)

theorem value?_mapValues {γ : Type} (f : β → γ) (b : Bindings β) (name : String) :
    (b.mapValues f).value? name = (b.value? name).map f := by
  induction b with
  | nil => rfl
  | cons entry rest ih =>
      simp only [mapValues, List.map_cons, value?] at ih ⊢
      split
      · rfl
      · exact ih

theorem mapValues_put {γ : Type} (f : β → γ) (b : Bindings β) (name : String) (value : β) :
    (b.put name value).mapValues f = (b.mapValues f).put name (f value) := by
  induction b with
  | nil => rfl
  | cons entry rest ih =>
      simp only [mapValues, List.map_cons, put] at ih ⊢
      split
      · rfl
      · simp [ih]

/-- A name is bound exactly when a look-up finds it. -/
theorem mem_names_iff (b : Bindings β) (name : String) :
    name ∈ b.names ↔ (b.value? name).isSome = true := by
  induction b with
  | nil => simp [names]
  | cons entry rest ih =>
      rcases entry with ⟨key, old⟩
      simp only [names, List.map_cons, List.mem_cons] at ih ⊢
      by_cases h : key = name
      · simp [value?, h]
      · have h' : ¬name = key := fun e => h e.symm
        simp [value?, h, h', ih]

/-- Binding a name keeps the other names and their order, and adds the name at the end if it is
new. -/
theorem names_put (b : Bindings β) (name : String) (value : β) :
    (b.put name value).names = if name ∈ b.names then b.names else b.names ++ [name] := by
  induction b with
  | nil => simp [put, names]
  | cons entry rest ih =>
      rcases entry with ⟨key, old⟩
      by_cases h : key = name
      · simp [put, names, h]
      · have h' : ¬name = key := fun e => h e.symm
        simp only [names] at ih
        by_cases hmem : name ∈ rest.map Prod.fst
        · simp [put, names, h, ih, hmem]
        · simp [put, names, h, h', ih, hmem]

/-- A name that is new is bound at the end. -/
theorem put_of_not_mem {b : Bindings β} {name : String} (h : name ∉ b.names) (value : β) :
    b.put name value = b ++ [(name, value)] := by
  induction b with
  | nil => rfl
  | cons entry rest ih =>
      rw [names, List.map_cons, List.mem_cons, not_or] at h
      rw [put, if_neg fun heq => h.1 heq.symm, ih h.2]
      rfl

theorem nodup_names_put {b : Bindings β} (h : b.names.Nodup) (name : String) (value : β) :
    (b.put name value).names.Nodup := by
  rw [names_put]
  split
  · exact h
  · rename_i hmem
    rw [List.nodup_append]
    refine ⟨h, by simp, ?_⟩
    intro a ha c hc
    rw [List.mem_singleton] at hc
    subst hc
    exact fun e => hmem (e ▸ ha)

end Bindings

end Lox
