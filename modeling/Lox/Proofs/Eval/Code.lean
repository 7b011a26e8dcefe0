import Lox.Eval.Basic
import Lox.Proofs.Store.Basic

/-!
# The code that values hold

A function holds the statements of its body, a class those of its methods, and an instance those of
its class. A running program executes no other statements than its own and those held by its values.

`Store.CodeIn P` says that all statements held by the values of a store have the property `P`; every
operation of the store keeps it.
-/

namespace Lox

/-- The statements in the methods of a class, those of the classes it inherits from included. -/
def Class.code : Class → List Stmt
  | .root _ _ methods => methods.flatMap fun entry => entry.2.declaration.body
  | .derived _ _ methods superclass =>
      (methods.flatMap fun entry => entry.2.declaration.body) ++ superclass.code

/-- The statements that a value holds. -/
def Value.code : Value → List Stmt
  | .function _ closure => closure.declaration.body
  | .class cls => cls.code
  | .instance object => object.cls.code
  | _ => []

/-- The statements that the value of a flow holds. -/
def Flow.code : Flow → List Stmt
  | .normal => []
  | .returned value => value.code

/-- All statements of a function have a property. -/
def Closure.CodeIn (P : Stmt → Prop) (c : Closure) : Prop :=
  ∀ t ∈ c.declaration.body, P t

/-- All statements held by a class have a property. -/
def Class.CodeIn (P : Stmt → Prop) (cls : Class) : Prop :=
  ∀ t ∈ cls.code, P t

/-- All statements held by a value have a property. -/
def Value.CodeIn (P : Stmt → Prop) (v : Value) : Prop :=
  ∀ t ∈ v.code, P t

/-- All statements held by the value of a flow have a property. -/
def Flow.CodeIn (P : Stmt → Prop) (flow : Flow) : Prop :=
  ∀ t ∈ flow.code, P t

theorem Value.codeIn_of_code_eq_nil {P : Stmt → Prop} {v : Value} (h : v.code = []) :
    v.CodeIn P := by
  intro t ht
  rw [h] at ht
  cases ht

theorem Literal.code_value (literal : Literal) : literal.value.code = [] := by
  cases literal <;> rfl

/-! ## Operators -/

theorem UnaryOp.code_apply {op : UnaryOp} {operand value : Value}
    (h : op.apply operand = .ok value) : value.code = [] := by
  cases op <;> cases operand <;> cases h <;> rfl

theorem Value.code_onNumbers {operation : Float → Float → Value} {left right value : Value}
    (h : Value.onNumbers operation left right = .ok value)
    (hoperation : ∀ x y, (operation x y).code = []) : value.code = [] := by
  unfold Value.onNumbers at h
  split at h
  · cases h
    exact hoperation _ _
  · cases h

theorem BinaryOp.code_apply {op : BinaryOp} {left right value : Value}
    (h : op.apply left right = .ok value) : value.code = [] := by
  cases op with
  | add =>
      simp only [BinaryOp.apply, Value.add] at h
      split at h <;> cases h <;> rfl
  | equal | notEqual =>
      cases h
      rfl
  | _ =>
      exact Value.code_onNumbers h fun _ _ => rfl

/-! ## Methods -/

theorem body_subset_of_mem {methods : Bindings Closure} {entry : String × Closure}
    (h : entry ∈ methods) :
    entry.2.declaration.body ⊆ methods.flatMap fun entry => entry.2.declaration.body :=
  fun _ ht => List.mem_flatMap.mpr ⟨entry, h, ht⟩

theorem Class.body_subset_code {cls : Class} {name : String} {c : Closure}
    (h : cls.method? name = some c) : c.declaration.body ⊆ cls.code := by
  induction cls with
  | root id own methods =>
      rw [method?_root] at h
      exact body_subset_of_mem (Bindings.mem_of_value? h)
  | derived id own methods superclass ih =>
      rw [method?_derived, Option.or_eq_some_iff] at h
      rcases h with h | ⟨-, h⟩
      · exact List.subset_append_of_subset_left _ (body_subset_of_mem (Bindings.mem_of_value? h))
      · exact List.subset_append_of_subset_right _ (ih h)

theorem Eval.mem_closeMethods {frame : FrameId} {entry : String × Closure}
    {methods : List FunctionDecl} (h : entry ∈ closeMethods frame methods) :
    ∃ decl ∈ methods, entry =
      (decl.name.name, ⟨decl, frame, decl.name.name == initializerName⟩) := by
  suffices hfold : ∀ table : Bindings Closure,
      entry ∈ methods.foldl (fun table decl =>
        table.put decl.name.name ⟨decl, frame, decl.name.name == initializerName⟩) table →
      entry ∈ table ∨ ∃ decl ∈ methods, entry =
        (decl.name.name, ⟨decl, frame, decl.name.name == initializerName⟩) by
    rcases hfold [] h with hnil | hfound
    · cases hnil
    · exact hfound
  clear h
  induction methods with
  | nil =>
      intro table h
      exact .inl h
  | cons decl methods ih =>
      intro table h
      rcases ih _ h with h | ⟨decl', hdecl', hentry⟩
      · rcases Bindings.mem_of_mem_put h with hentry | h
        · exact .inr ⟨decl, List.mem_cons_self, hentry⟩
        · exact .inl h
      · exact .inr ⟨decl', List.mem_cons_of_mem _ hdecl', hentry⟩

/-- A class that is made holds the statements of its methods and those of its superclass. -/
theorem Eval.mem_code_make {id : Nat} {name : String} {frame : FrameId}
    {methods : List FunctionDecl} {superclass : Option Class} {t : Stmt}
    (h : t ∈ (Class.make id name (closeMethods frame methods) superclass).code) :
    t ∈ methods.flatMap Routine.body ∨ ∃ cls ∈ superclass, t ∈ cls.code := by
  have hown : t ∈ ((closeMethods frame methods).flatMap fun entry => entry.2.declaration.body) →
      t ∈ methods.flatMap Routine.body := by
    intro ht
    rcases List.mem_flatMap.mp ht with ⟨entry, hentry, ht⟩
    rcases mem_closeMethods hentry with ⟨decl, hdecl, heq⟩
    rw [heq] at ht
    exact List.mem_flatMap.mpr ⟨decl, hdecl, ht⟩
  cases superclass with
  | none =>
      exact .inl (hown h)
  | some cls =>
      rcases List.mem_append.mp h with h | h
      · exact .inl (hown h)
      · exact .inr ⟨cls, rfl, h⟩

/-! ## Stores -/

/-- All statements held by the values of a store have a property. -/
structure Store.CodeIn (P : Stmt → Prop) (s : Store) : Prop where
  values : ∀ f name v, s.value? f name = some v → v.CodeIn P
  fields : ∀ object name v, s.field? object name = some v → v.CodeIn P

namespace Store.CodeIn

variable {P : Stmt → Prop} {s t : Store} {f : FrameId} {name : String} {value : Value}

theorem define (h : s.CodeIn P) (hvalue : value.CodeIn P) :
    (s.define f name value).CodeIn P := by
  refine ⟨?_, h.fields⟩
  intro g other v hv
  rw [value?_define] at hv
  split at hv
  · cases hv
    exact hvalue
  · exact h.values g other v hv

theorem addFrame {outer : List FrameId} (h : s.CodeIn P) : (s.addFrame outer).2.CodeIn P := by
  refine ⟨?_, h.fields⟩
  intro g other v hv
  rw [value?_addFrame] at hv
  exact h.values g other v hv

theorem fresh (h : s.CodeIn P) : s.fresh.2.CodeIn P :=
  ⟨h.values, h.fields⟩

theorem newInstance {cls : Class} (h : s.CodeIn P) : (s.newInstance cls).2.CodeIn P := by
  refine ⟨h.values, ?_⟩
  intro object name v hv
  rw [field?_newInstance] at hv
  exact h.fields object name v hv

theorem setField {object : Instance} (h : s.CodeIn P) (hvalue : value.CodeIn P) :
    (s.setField object name value).CodeIn P := by
  refine ⟨h.values, ?_⟩
  intro object' other v hv
  rw [field?_setField] at hv
  split at hv
  · cases hv
    exact hvalue
  · exact h.fields object' other v hv

/-- A value that is looked for in some frame is held by the store. -/
theorem of_orUndefined {g? : Option FrameId} (h : s.CodeIn P)
    (hv : orUndefined name (g?.bind fun g => s.value? g name) = .ok value) :
    value.CodeIn P := by
  cases hfound : g?.bind fun g => s.value? g name with
  | none =>
      rw [hfound] at hv
      cases hv
  | some v =>
      rw [hfound] at hv
      cases hv
      rcases Option.bind_eq_some_iff.mp hfound with ⟨g, -, hvalue⟩
      exact h.values g name value hvalue

theorem of_getAt {d : Nat} (h : s.CodeIn P) (hv : s.getAt f d name = .ok value) : value.CodeIn P :=
  h.of_orUndefined hv

theorem of_get (h : s.CodeIn P) (hv : s.get f name = .ok value) : value.CodeIn P :=
  h.of_orUndefined hv

/-- A store in which a name is changed in some frame. -/
theorem define_orUndefined {g? : Option FrameId} (h : s.CodeIn P) (hvalue : value.CodeIn P)
    (ht : orUndefined name (g?.map fun g => s.define g name value) = .ok t) : t.CodeIn P := by
  cases g? with
  | none =>
      cases ht
  | some g =>
      cases ht
      exact h.define hvalue

theorem assign (h : s.CodeIn P) (hvalue : value.CodeIn P)
    (ht : s.assign f name value = .ok t) : t.CodeIn P :=
  h.define_orUndefined hvalue ht

theorem assignAt {d : Nat} (h : s.CodeIn P) (hvalue : value.CodeIn P)
    (ht : s.assignAt f d name value = .ok t) : t.CodeIn P :=
  h.define_orUndefined hvalue ht

end Store.CodeIn

end Lox
