import Lox.Proofs.Rename.Scope
import Mathlib.Data.List.Pairwise

/-!
# Scope resolution does not see the name of a variable

A declared variable of a program gets a new name, and so do the references that resolution binds to
it. If the new name is not written in the program before, resolution finds the same distances
afterwards, and no rule is violated that was not violated before. `Stmt.mem_usersOf_iff` says which
references these are, by the distances that resolution has recorded.

Main statement: `Stmt.programFindings_rename`.
-/

namespace Lox

/-- The declaration to which resolution binds a reference, at the visit to it. -/
def Visit.binder? (v : Visit) : Option Ident :=
  v.expr.reference?.bind fun r => v.scopes.binder? r.name.name

/-- The numbers of the references that resolution binds to a declaration. -/
def Stmt.usersOf (ss : List Stmt) (i : Ident) : List Nat :=
  ((programVisits ss).filter fun v => v.binder? = some i).map fun v => v.expr.number

/-- A new name for a declaration of a program, and for the references that are bound to it. -/
def Renaming.ofVariable (ss : List Stmt) (i : Ident) (new : String) : Renaming :=
  .ofDeclaration i new fun r => if r.id ∈ Stmt.usersOf ss i then new else r.name.name

variable {i j : Ident} {new name : String} {scope : Scope} {scopes outer : Scopes}

/-! ## References -/

/-- References have the names that they are bound to in the scopes, when a declaration gets a new
one. -/
def Renaming.Leads (used : Reference → String) (i : Ident) (new : String) (scopes : Scopes)
    (es : List Expr) : Prop :=
  ∀ e ∈ es, ∀ r, e.reference? = some r →
    r.name.name ≠ new ∧ used r = scopes.nameWith i new r.name.name

/-- The same at visits, each with the scopes around it. -/
def Renaming.LeadsAll (used : Reference → String) (i : Ident) (new : String) (vs : List Visit) :
    Prop :=
  ∀ v ∈ vs, Leads used i new v.scopes [v.expr]

variable {used : Reference → String}

namespace Renaming

variable {es fs : List Expr} {vs ws : List Visit}

theorem Leads.left (h : Leads used i new scopes (es ++ fs)) : Leads used i new scopes es :=
  fun e he => h e (List.mem_append_left _ he)

theorem Leads.right (h : Leads used i new scopes (es ++ fs)) : Leads used i new scopes fs :=
  fun e he => h e (List.mem_append_right _ he)

theorem LeadsAll.left (h : LeadsAll used i new (vs ++ ws)) : LeadsAll used i new vs :=
  fun v hv => h v (List.mem_append_left _ hv)

theorem LeadsAll.right (h : LeadsAll used i new (vs ++ ws)) : LeadsAll used i new ws :=
  fun v hv => h v (List.mem_append_right _ hv)

theorem LeadsAll.leads {owner : Option ClassDecl} {e : Expr}
    (h : LeadsAll used i new (e.visits owner scopes)) : Leads used i new scopes e.parts :=
  fun part hpart => h ⟨part, owner, scopes⟩ (List.mem_map_of_mem hpart) part List.mem_cons_self

end Renaming

open Renaming (Leads LeadsAll ofDeclaration)

/-- A variable that is not being initialized is only located. -/
theorem Reference.resolve_of_not_pending {r : Reference} (h : scopes.pending? r.name.name = none) :
    r.resolve scopes = .none ++ scopes.locate r.id r.name.name := by
  unfold resolve
  rw [h]

theorem Reference.resolve_rename {r : Reference} (hnew : scopes.Lacks new)
    (hname : r.name.name ≠ new) (hused : used r = scopes.nameWith i new r.name.name)
    (h : (r.resolve scopes).errors = []) :
    (r.rename (ofDeclaration i new used)).resolve (scopes.renamed i new) = r.resolve scopes := by
  have hpending : scopes.pending? r.name.name = none := Visit.pending?_of_resolve h
  have hown : (r.rename (ofDeclaration i new used)).name.name =
      scopes.nameWith i new r.name.name := hused
  have hpending' : (scopes.renamed i new).pending? (r.rename (ofDeclaration i new used)).name.name =
      none := by
    rw [hown, Scopes.pending?_renamed hnew hname, hpending]
  rw [resolve_of_not_pending hpending, resolve_of_not_pending hpending', hown,
    Scopes.locate_renamed hnew hname]
  rfl

namespace Expr

mutual

theorem resolve_rename {cls : ClassContext} (hi : i.IsWord) (hword : Keyword.ofText? new = none)
    (hnew : scopes.Lacks new) : (e : Expr) → Leads used i new scopes e.parts →
      (e.resolve cls scopes).errors = [] →
        (e.rename (ofDeclaration i new used)).resolve cls (scopes.renamed i new) =
          e.resolve cls scopes
  | .literal _ _, _, _ => rfl
  | .group _ inner, h, herrors => resolve_rename hi hword hnew inner h.left herrors
  | .unary _ _ operand, h, herrors => resolve_rename hi hword hnew operand h.left herrors
  | .binary _ _ left right, h, herrors => by
      rcases Findings.errors_append_eq_nil.mp herrors with ⟨hleft, hright⟩
      exact congrArg₂ (· ++ ·) (resolve_rename hi hword hnew left h.left.left hleft)
        (resolve_rename hi hword hnew right h.left.right hright)
  | .logical _ _ left right, h, herrors => by
      rcases Findings.errors_append_eq_nil.mp herrors with ⟨hleft, hright⟩
      exact congrArg₂ (· ++ ·) (resolve_rename hi hword hnew left h.left.left hleft)
        (resolve_rename hi hword hnew right h.left.right hright)
  | .var target, h, herrors => by
      rcases h _ List.mem_cons_self target rfl with ⟨hname, hused⟩
      exact target.resolve_rename hnew hname hused herrors
  | .assign target value, h, herrors => by
      rcases Findings.errors_append_eq_nil.mp herrors with ⟨hvalue, -⟩
      rcases h.right _ List.mem_cons_self target rfl with ⟨hname, hused⟩
      have hlocate := Scopes.locate_renamed (i := i) hnew hname target.id
      rw [← hused] at hlocate
      exact congrArg₂ (· ++ ·) (resolve_rename hi hword hnew value h.left hvalue) hlocate
  | .call _ callee arguments, h, herrors => by
      rcases Findings.errors_append_eq_nil.mp herrors with ⟨hcallee, harguments⟩
      exact congrArg₂ (· ++ ·) (resolve_rename hi hword hnew callee h.left.left hcallee)
        (resolveAll_rename hi hword hnew arguments h.left.right harguments)
  | .get _ object _, h, herrors => resolve_rename hi hword hnew object h.left herrors
  | .set _ object _ value, h, herrors => by
      rcases Findings.errors_append_eq_nil.mp herrors with ⟨hvalue, hobject⟩
      exact congrArg₂ (· ++ ·) (resolve_rename hi hword hnew value h.left.left hvalue)
        (resolve_rename hi hword hnew object h.left.right hobject)
  | .this node, _, _ => by
      have hthis : Keyword.ofText? thisName ≠ none := by decide
      have hlocate := Scopes.locate_renamed_word hi hword hnew hthis node.id
      simp only [rename, resolve, hlocate]
  | .super node _, _, _ => by
      have hsuper : Keyword.ofText? superName ≠ none := by decide
      have hlocate := Scopes.locate_renamed_word hi hword hnew hsuper node.id
      simp only [rename, resolve, hlocate]

theorem resolveAll_rename {cls : ClassContext} (hi : i.IsWord) (hword : Keyword.ofText? new = none)
    (hnew : scopes.Lacks new) : (es : List Expr) → Leads used i new scopes (partsAll es) →
      (resolveAll cls scopes es).errors = [] →
        resolveAll cls (scopes.renamed i new) (renameAll (ofDeclaration i new used) es) =
          resolveAll cls scopes es
  | [], _, _ => rfl
  | e :: es, h, herrors => by
      rcases Findings.errors_append_eq_nil.mp herrors with ⟨hfirst, hrest⟩
      exact congrArg₂ (· ++ ·) (resolve_rename hi hword hnew e h.left hfirst)
        (resolveAll_rename hi hword hnew es h.right hrest)

end

theorem resolveOption_rename {cls : ClassContext} {owner : Option ClassDecl} (hi : i.IsWord)
    (hword : Keyword.ofText? new = none) (hnew : scopes.Lacks new) {e? : Option Expr}
    (h : LeadsAll used i new (visitsOption owner scopes e?))
    (herrors : (resolveOption cls scopes e?).errors = []) :
    resolveOption cls (scopes.renamed i new) (e?.map (rename (ofDeclaration i new used))) =
      resolveOption cls scopes e? := by
  cases e? with
  | none => rfl
  | some e => exact e.resolve_rename hi hword hnew h.leads herrors

end Expr

/-! ## Statements -/

/-- A declaration can get a new name in a statement: the statement declares nothing under the new
name, its branches declare nothing at all, and the declaration is no function and no class. -/
structure Stmt.Spares (i : Ident) (new : String) (s : Stmt) : Prop where
  binders : ∀ j ∈ s.binders, j.name ≠ new
  functions : ∀ decl, s = .function decl → decl.name ≠ i
  classes : ∀ name parent methods, s = .class name parent methods → name ≠ i
  plain : s.BranchesPlain

/-- The same of every statement among others. -/
def Stmt.SparesAll (i : Ident) (new : String) (ss : List Stmt) : Prop :=
  ∀ s ∈ ss, s.Spares i new

namespace Stmt.SparesAll

variable {s : Stmt} {ss ts : List Stmt}

theorem left (h : SparesAll i new (ss ++ ts)) : SparesAll i new ss :=
  fun s hs => h s (List.mem_append_left _ hs)

theorem right (h : SparesAll i new (ss ++ ts)) : SparesAll i new ts :=
  fun s hs => h s (List.mem_append_right _ hs)

theorem tail (h : SparesAll i new (s :: ss)) : SparesAll i new ss :=
  fun t ht => h t (List.mem_cons_of_mem _ ht)

theorem self (h : SparesAll i new s.parts) : s.Spares i new :=
  h s s.mem_parts_self

end Stmt.SparesAll

theorem Ident.rename_of_ne (h : j ≠ i) : j.rename (ofDeclaration i new used) = j :=
  congrArg (Ident.mk · j.span) (nameWith_of_ne h)

namespace Stmt

theorem declares?_rename_of_spares {s : Stmt} (h : s.Spares i new) :
    (s.rename (ofDeclaration i new used)).declares? =
      s.declares?.map (Ident.rename (ofDeclaration i new used)) := by
  cases s with
  | var name initial => rfl
  | function decl =>
      rw [rename, declares?, renameRoutine_name, declares?, Option.map_some,
        Ident.rename_of_ne (h.functions decl rfl)]
  | «class» name parent methods =>
      rw [rename, declares?, declares?, Option.map_some,
        Ident.rename_of_ne (h.classes name parent methods rfl)]
  | _ => rfl

/-- What a statement declares is in scope behind it under the name it gets. -/
theorem extend_rename {context : Context} (used : Reference → String) (hnew : scopes.Lacks new)
    {s : Stmt} (hspares : SparesAll i new s.parts) (h : (s.resolve context scopes).errors = []) :
    extend (scopes.renamed i new) (s.rename (ofDeclaration i new used)) =
        (extend scopes s).renamed i new ∧ (extend scopes s).Lacks new := by
  have hplain : ∀ t ∈ (s.rename (ofDeclaration i new used)).parts, t.BranchesPlain := by
    intro t ht
    rw [parts_rename, List.mem_map] at ht
    rcases ht with ⟨part, hpart, rfl⟩
    exact branchesPlain_rename (hspares part hpart).plain
  rw [extend_of_plain scopes s fun t ht => (hspares t ht).plain, extend_of_plain _ _ hplain,
    declares?_rename_of_spares hspares.self]
  cases hname : s.declares? with
  | none => exact ⟨rfl, hnew⟩
  | some name =>
      have hne : name.name ≠ new := by
        refine hspares.self.binders name ?_
        cases s <;> cases hname <;> exact List.mem_cons_self
      have hdeclares := Scopes.declares_renamed (i := i) used hnew hne
        (redeclaration_of_accepted h hname)
      exact ⟨hdeclares.2.2, hnew.define hne⟩

/-- The names of parameters are different after one of them gets a new name, and they are in scope
under the names they get. -/
theorem declaresAll_rename (used : Reference → String) {parameters : List Ident} :
    ∀ {scopes : Scopes}, scopes.Lacks new → (∀ j ∈ parameters, j.name ≠ new) →
        (scopes.redeclarations parameters).errors = [] →
      let names := parameters.map (Ident.rename (ofDeclaration i new used))
      (scopes.renamed i new).redeclarations names = scopes.redeclarations parameters ∧
        (scopes.renamed i new).defineAll names = (scopes.defineAll parameters).renamed i new ∧
          (scopes.defineAll parameters).Lacks new := by
  induction parameters with
  | nil => exact fun hnew _ _ => ⟨rfl, rfl, hnew⟩
  | cons j parameters ih =>
      intro scopes hnew hnames h
      rcases Findings.errors_append_eq_nil.mp h with ⟨hfirst, hrest⟩
      have hname : j.name ≠ new := hnames j List.mem_cons_self
      rcases Scopes.declares_renamed (i := i) used hnew hname hfirst with
        ⟨hredeclaration, -, hdefine⟩
      rcases ih (hnew.define hname) (fun k hk => hnames k (List.mem_cons_of_mem _ hk)) hrest with
        ⟨hredeclarations, hdefineAll, hlacks⟩
      rw [← hdefine] at hredeclarations hdefineAll
      exact ⟨congrArg₂ (· ++ ·) hredeclaration hredeclarations, hdefineAll, hlacks⟩

theorem resolveParent_rename {owner : Option ClassDecl} {name : Ident} {parent : Option Reference}
    (hnew : scopes.Lacks new) (hname : name.name ≠ new)
    (h : LeadsAll used i new (Expr.visitsOption owner scopes (parent.map .var)))
    (herrors : (resolveParent scopes name parent).errors = []) :
    resolveParent (scopes.renamed i new) name
        (parent.map (Reference.rename (ofDeclaration i new used))) =
      resolveParent scopes name parent := by
  cases parent with
  | none => rfl
  | some parent =>
      rcases Findings.errors_append_eq_nil.mp herrors with ⟨hother, hresolve⟩
      rcases h _ List.mem_cons_self _ List.mem_cons_self parent rfl with ⟨hparent, hused⟩
      have hne : parent.name.name ≠ name.name := by
        intro heq
        rw [checkInheritance, if_pos heq] at hother
        cases hother
      -- The superclass may be a parameter. Its new name is not that of the class either.
      have hne' : used parent ≠ name.name := by
        rw [hused]
        rcases scopes.nameWith_cases i new parent.name.name with hown | ⟨hown, -⟩
        · rwa [hown]
        · rw [hown]
          exact hname.symm
      refine congrArg₂ (· ++ ·) ?_ (parent.resolve_rename hnew hparent hused hresolve)
      rw [checkInheritance, checkInheritance, if_neg hne]
      exact if_neg hne'

/-- A `return` may stand where it stands whatever its value is. -/
theorem checkReturn_map {context : Context} {f : Expr → Expr} (keyword : Span)
    (value : Option Expr) :
    context.checkReturn keyword (value.map f) = context.checkReturn keyword value := by
  unfold Context.checkReturn
  cases context.routine <;> cases value <;> rfl

mutual

theorem resolve_rename {context : Context} {owner : Option ClassDecl} {scopes : Scopes}
    (hi : i.IsWord) (hword : Keyword.ofText? new = none) (hnew : scopes.Lacks new) : (s : Stmt) →
      SparesAll i new s.parts → LeadsAll used i new (s.visits owner scopes) →
        (s.resolve context scopes).errors = [] →
          (s.rename (ofDeclaration i new used)).resolve context (scopes.renamed i new) =
            s.resolve context scopes
  | .expression value, _, h, herrors => value.resolve_rename hi hword hnew h.leads herrors
  | .print value, _, h, herrors => value.resolve_rename hi hword hnew h.leads herrors
  | .var name initial, hspares, h, herrors => by
      rcases Findings.errors_append_eq_nil.mp herrors with ⟨hfirst, hinitial⟩
      have hname : name.name ≠ new := hspares.self.binders name List.mem_cons_self
      rcases Scopes.declares_renamed (i := i) used hnew hname hfirst with
        ⟨hredeclaration, hdeclare, -⟩
      -- The variable is in scope in its own initializer, but not yet ready.
      have hvalue := Expr.resolveOption_rename hi hword (hnew.declare hname) h hinitial
      rw [← hdeclare] at hvalue
      exact congrArg₂ (· ++ ·) hredeclaration hvalue
  | .block body, hspares, h, herrors =>
      resolveAll_rename hi hword hnew.enter body hspares.tail h herrors
  | .ifElse condition consequent alternative, hspares, h, herrors => by
      rcases Findings.errors_append_eq_nil.mp herrors with ⟨hbefore, halternative⟩
      rcases Findings.errors_append_eq_nil.mp hbefore with ⟨hcondition, hconsequent⟩
      -- The second branch is resolved in what the first one leaves, as statements of one scope are.
      rcases extend_rename used hnew hspares.tail.left hconsequent with ⟨hextend, hlacks⟩
      have hfirst := condition.resolve_rename hi hword hnew h.left.left.leads hcondition
      have hsecond := resolve_rename hi hword hnew consequent hspares.tail.left h.left.right
        hconsequent
      have hthird := resolveOption_rename hi hword hlacks alternative hspares.tail.right h.right
        halternative
      rw [rename, resolve, resolve, hfirst, hsecond, hextend, hthird]
  | .while condition body, hspares, h, herrors => by
      rcases Findings.errors_append_eq_nil.mp herrors with ⟨hcondition, hbody⟩
      exact congrArg₂ (· ++ ·) (condition.resolve_rename hi hword hnew h.left.leads hcondition)
        (resolve_rename hi hword hnew body hspares.tail h.right hbody)
  | .function decl, hspares, h, herrors => by
      rcases Findings.errors_append_eq_nil.mp herrors with ⟨hfirst, hroutine⟩
      have hname : decl.name.name ≠ new := hspares.self.binders _ List.mem_cons_self
      rcases Scopes.declares_renamed (i := i) used hnew hname hfirst with
        ⟨hredeclaration, -, hdefine⟩
      rw [Ident.rename_of_ne (hspares.self.functions decl rfl)] at hredeclaration hdefine
      have hparameters : ∀ j ∈ decl.parameters, j.name ≠ new :=
        fun j hj => hspares.self.binders j (List.mem_cons_of_mem _ hj)
      -- A function can call itself, so its name is in scope in its body.
      have hbody := resolveRoutine_rename hi hword (hnew.define hname) decl hparameters hspares.tail h
        hroutine
      rw [rename, resolve, resolve, renameRoutine_name, hredeclaration, hdefine, hbody]
  | .return keyword value, _, h, herrors => by
      rcases Findings.errors_append_eq_nil.mp herrors with ⟨-, hvalue⟩
      exact congrArg₂ (· ++ ·) (checkReturn_map keyword value)
        (Expr.resolveOption_rename hi hword hnew h hvalue)
  | .class name parent methods, hspares, h, herrors => by
      rcases Findings.errors_append_eq_nil.mp herrors with ⟨hbefore, hmethods⟩
      rcases Findings.errors_append_eq_nil.mp hbefore with ⟨hfirst, hparent⟩
      have hname : name.name ≠ new := hspares.self.binders _ List.mem_cons_self
      rcases Scopes.declares_renamed (i := i) used hnew hname hfirst with
        ⟨hredeclaration, -, hdefine⟩
      rw [Ident.rename_of_ne (hspares.self.classes name parent methods rfl)] at hredeclaration hdefine
      have hlacks := hnew.define hname
      have hclass : ClassContext.ofParent (parent.map (Reference.rename (ofDeclaration i new used))) =
          .ofParent parent := by
        cases parent <;> rfl
      -- The superclass is looked for where the class is declared, and the methods stand further in.
      have hsuper := resolveParent_rename hlacks hname h.left hparent
      have hparameters : ∀ r ∈ methods, ∀ j ∈ r.parameters, j.name ≠ new := fun r hr j hj =>
        hspares.self.binders j (List.mem_cons_of_mem _ (List.mem_flatMap.mpr ⟨r, hr, hj⟩))
      have hbodies := resolveMethods_rename hi hword (hlacks.enterClass hword name parent) methods
        hparameters hspares.tail h.right hmethods
      rw [← Scopes.enterClass_renamed hi] at hbodies
      rw [rename, resolve, resolve, hredeclaration, hdefine, hsuper, hclass, hbodies]

theorem resolveAll_rename {context : Context} {owner : Option ClassDecl} {scopes : Scopes}
    (hi : i.IsWord) (hword : Keyword.ofText? new = none) (hnew : scopes.Lacks new) :
    (ss : List Stmt) → SparesAll i new (partsAll ss) →
      LeadsAll used i new (visitsAll owner scopes ss) → (resolveAll context scopes ss).errors = [] →
        resolveAll context (scopes.renamed i new) (renameAll (ofDeclaration i new used) ss) =
          resolveAll context scopes ss
  | [], _, _, _ => rfl
  | s :: ss, hspares, h, herrors => by
      rcases Findings.errors_append_eq_nil.mp herrors with ⟨hfirst, hrest⟩
      rcases extend_rename used hnew hspares.left hfirst with ⟨hextend, hlacks⟩
      have hothers := resolveAll_rename hi hword hlacks ss hspares.right h.right hrest
      rw [← hextend] at hothers
      exact congrArg₂ (· ++ ·) (resolve_rename hi hword hnew s hspares.left h.left hfirst) hothers

theorem resolveOption_rename {context : Context} {owner : Option ClassDecl} {scopes : Scopes}
    (hi : i.IsWord) (hword : Keyword.ofText? new = none) (hnew : scopes.Lacks new) :
    (s? : Option Stmt) → SparesAll i new (partsOption s?) →
      LeadsAll used i new (visitsOption owner scopes s?) →
        (resolveOption context scopes s?).errors = [] →
          resolveOption context (scopes.renamed i new) (renameOption (ofDeclaration i new used) s?) =
            resolveOption context scopes s?
  | none, _, _, _ => rfl
  | some s, hspares, h, herrors => resolve_rename hi hword hnew s hspares h herrors

theorem resolveRoutine_rename {context : Context} {owner : Option ClassDecl} {scopes : Scopes}
    (hi : i.IsWord) (hword : Keyword.ofText? new = none) (hnew : scopes.Lacks new) :
    (r : Routine Stmt) → (∀ j ∈ r.parameters, j.name ≠ new) → SparesAll i new (partsRoutine r) →
      LeadsAll used i new (visitsRoutine owner scopes r) →
        (resolveRoutine context scopes r).errors = [] →
          resolveRoutine context (scopes.renamed i new)
              (renameRoutine (ofDeclaration i new used) r) = resolveRoutine context scopes r
  | ⟨_, parameters, body⟩, hnames, hspares, h, herrors => by
      rcases Findings.errors_append_eq_nil.mp herrors with ⟨hparameters, hbody⟩
      rcases declaresAll_rename (i := i) used hnew.enter hnames hparameters with
        ⟨hredeclarations, hdefineAll, hlacks⟩
      have hothers := resolveAll_rename hi hword hlacks body hspares h hbody
      rw [← hdefineAll] at hothers
      exact congrArg₂ (· ++ ·) hredeclarations hothers

theorem resolveMethods_rename {context : Context} {owner : Option ClassDecl} {scopes : Scopes}
    (hi : i.IsWord) (hword : Keyword.ofText? new = none) (hnew : scopes.Lacks new) :
    (methods : List (Routine Stmt)) → (∀ r ∈ methods, ∀ j ∈ r.parameters, j.name ≠ new) →
      SparesAll i new (partsMethods methods) →
        LeadsAll used i new (visitsMethods owner scopes methods) →
          (resolveMethods context scopes methods).errors = [] →
            resolveMethods context (scopes.renamed i new)
                (renameMethods (ofDeclaration i new used) methods) =
              resolveMethods context scopes methods
  | [], _, _, _, _ => rfl
  | method :: methods, hnames, hspares, h, herrors => by
      rcases Findings.errors_append_eq_nil.mp herrors with ⟨hfirst, hrest⟩
      have hmethod := resolveRoutine_rename hi hword hnew method (hnames method List.mem_cons_self)
        hspares.left h.left hfirst
      have hmethods := resolveMethods_rename hi hword hnew methods
        (fun r hr => hnames r (List.mem_cons_of_mem _ hr)) hspares.right h.right hrest
      rw [renameMethods, resolveMethods, resolveMethods, renameRoutine_name, hmethod, hmethods]

end

/-! ## Programs -/

/-- A name is that of no variable, function or class in statements: nothing is declared under it, and
no reference has it. -/
structure Omits (ss : List Stmt) (name : String) : Prop where
  binders : ∀ s ∈ partsAll ss, ∀ j ∈ s.binders, j.name ≠ name
  references : ∀ e ∈ expressions (partsAll ss), ∀ r, e.reference? = some r → r.name.name ≠ name

namespace Omits

variable {ss ts : List Stmt}

theorem left (h : Omits (ss ++ ts) name) : Omits ss name := by
  refine ⟨fun s hs => h.binders s ?_, fun e he => h.references e ?_⟩
  · rw [partsAll_append]
    exact List.mem_append_left _ hs
  · rw [partsAll_append, expressions_append]
    exact List.mem_append_left _ he

theorem right (h : Omits (ss ++ ts) name) : Omits ts name := by
  refine ⟨fun s hs => h.binders s ?_, fun e he => h.references e ?_⟩
  · rw [partsAll_append]
    exact List.mem_append_right _ hs
  · rw [partsAll_append, expressions_append]
    exact List.mem_append_right _ he

end Omits

theorem variables_sublist_binders (s : Stmt) : s.variables.Sublist s.binders := by
  cases s with
  | var name initial => exact .refl _
  | function decl => exact List.sublist_cons_self _ _
  | «class» name parent methods => exact List.sublist_cons_self _ _
  | _ => exact .slnil

theorem binders_subset_idents (s : Stmt) : s.binders ⊆ s.idents := by
  cases s with
  | «class» name parent methods =>
      refine List.cons_subset_cons _ ?_
      intro j hj
      rcases List.mem_flatMap.mp hj with ⟨r, hr, hj⟩
      exact List.mem_flatMap.mpr ⟨r, hr, List.mem_cons_of_mem _ hj⟩
  | _ => exact List.Subset.refl _

/-- A variable that a program declares, among declarations that are all different. -/
structure Declares (ss : List Stmt) (i : Ident) : Prop where
  mem : ∃ s ∈ partsAll ss, i ∈ s.variables
  unique : (bindersAll (partsAll ss)).Nodup

namespace Declares

variable {ss : List Stmt} {low high : Nat}

theorem isWord (h : Declares ss i) (hread : ReadAll low high (partsAll ss)) : i.IsWord := by
  rcases h.mem with ⟨s, hs, hi⟩
  exact hread.words s hs i (s.binders_subset_idents (s.variables_sublist_binders.subset hi))

/-- A variable is no function and no class. -/
theorem sparesAll (h : Declares ss i) (hread : ReadAll low high (partsAll ss))
    (homits : Omits ss new) : SparesAll i new (partsAll ss) := by
  intro s hs
  rcases h.mem with ⟨t, ht, hi⟩
  rcases List.nodup_flatMap.mp h.unique with ⟨hown, hothers⟩
  -- The first of the names that a function or a class declares is its own.
  have hne : ∀ name names, s.binders = name :: names → s.variables = names → name ≠ i := by
    rintro name names hbinders hvariables rfl
    by_cases heq : s = t
    · subst heq
      have hnodup := hown s hs
      rw [hbinders, List.nodup_cons] at hnodup
      rw [hvariables] at hi
      exact hnodup.1 hi
    · have hsymm : Std.Symm (Function.onFun List.Disjoint Stmt.binders) :=
        ⟨fun _ _ hdisjoint _ hleft hright => hdisjoint hright hleft⟩
      have hdisjoint := hothers.forall hs ht heq
      exact hdisjoint (hbinders ▸ List.mem_cons_self) (t.variables_sublist_binders.subset hi)
  refine ⟨homits.binders s hs, ?_, ?_, hread.plain s hs⟩
  · rintro decl rfl
    exact hne _ _ rfl rfl
  · rintro name parent methods rfl
    exact hne _ _ rfl rfl

/-- A variable is declared in one place. -/
theorem count (h : Declares ss i) : ((partsAll ss).flatMap Stmt.variables).count i = 1 := by
  have hsublist : ((partsAll ss).flatMap Stmt.variables).Sublist (bindersAll (partsAll ss)) := by
    generalize partsAll ss = parts
    induction parts with
    | nil => exact .slnil
    | cons s parts ih => exact s.variables_sublist_binders.append ih
  rcases h.mem with ⟨s, hs, hi⟩
  exact List.count_eq_one_of_mem (h.unique.sublist hsublist) (List.mem_flatMap.mpr ⟨s, hs, hi⟩)

end Declares

variable {ss : List Stmt} {low high : Nat}

theorem mem_expressions_of_mem_programVisits {v : Visit} (hv : v ∈ programVisits ss) :
    v.expr ∈ expressions (partsAll ss) := by
  rw [← map_expr_visitsAll none []]
  exact List.mem_map_of_mem hv

/-- A reference is bound to a declaration if the distance that is recorded for it leads to a scope that
binds its name there. -/
theorem mem_usersOf_iff {locals : Locals}
    (hdistance : ∀ v ∈ programVisits ss, locals.distance? v.expr.number = v.distance?) {id : Nat} :
    id ∈ usersOf ss i ↔ ∃ v ∈ programVisits ss, ∃ r d scope declared,
      v.expr.reference? = some r ∧ r.id = id ∧ locals.distance? id = some d ∧
        v.scopes[d]? = some scope ∧ scope.value? r.name.name = some declared ∧
          i = ⟨r.name.name, declared.span⟩ := by
  have hname : ∀ {v : Visit} {r : Reference}, v.expr.reference? = some r →
      v.distance? = v.scopes.distance? r.name.name := by
    rintro ⟨e, owner, scopes⟩ r hr
    cases e <;> cases hr <;> rfl
  constructor
  · intro hmem
    rcases List.mem_map.mp hmem with ⟨v, hfound, rfl⟩
    rcases List.mem_filter.mp hfound with ⟨hv, hlead⟩
    rcases Option.bind_eq_some_iff.mp (of_decide_eq_true hlead) with ⟨r, hr, hbinder⟩
    rw [Scopes.binder?_eq] at hbinder
    rcases Option.bind_eq_some_iff.mp hbinder with ⟨d, hd, hdeclared⟩
    rcases Option.map_eq_some_iff.mp hdeclared with ⟨declared, hvalue, rfl⟩
    rcases Option.bind_eq_some_iff.mp hvalue with ⟨scope, hscope, hvalue⟩
    refine ⟨v, hv, r, d, scope, declared, hr, (Expr.number_of_reference? hr).symm, ?_, hscope, hvalue,
      rfl⟩
    rw [hdistance v hv, hname hr, hd]
  · rintro ⟨v, hv, r, d, scope, declared, hr, rfl, hd, hscope, hvalue, rfl⟩
    have hnumber : v.expr.number = r.id := Expr.number_of_reference? hr
    rw [← hnumber, hdistance v hv, hname hr] at hd
    have hbinder : v.binder? = some ⟨r.name.name, declared.span⟩ := by
      rw [Visit.binder?, hr, Option.bind_some, Scopes.binder?_eq, hd, Option.bind_some, hscope,
        Option.bind_some, hvalue, Option.map_some]
    exact List.mem_map.mpr ⟨v, List.mem_filter.mpr ⟨hv, decide_eq_true hbinder⟩, hnumber⟩

/-- The references that get the new name are those that lead to the declaration. -/
theorem leadsAll_ofVariable (hresolved : Resolved (programVisits ss) (programFindings ss).locals)
    (homits : Omits ss new) :
    LeadsAll (Renaming.ofVariable ss i new).used i new (programVisits ss) := by
  intro v hv e he r hr
  cases List.mem_singleton.mp he
  refine ⟨homits.references _ (mem_expressions_of_mem_programVisits hv) r hr, ?_⟩
  have hnumber : r.id = v.expr.number := (Expr.number_of_reference? hr).symm
  have hbinder : v.binder? = v.scopes.binder? r.name.name := by
    rw [Visit.binder?, hr]
    rfl
  by_cases huses : v.binder? = some i
  · have hmem : r.id ∈ usersOf ss i :=
      List.mem_map.mpr ⟨v, List.mem_filter.mpr ⟨hv, decide_eq_true huses⟩, hnumber.symm⟩
    rw [hbinder] at huses
    rw [Scopes.nameWith, huses, Option.map_some, Option.getD_some, Ident.nameWith_self]
    exact if_pos hmem
  · have hmem : r.id ∉ usersOf ss i := by
      intro hmem
      rcases List.mem_map.mp hmem with ⟨w, hw, heq⟩
      rcases List.mem_filter.mp hw with ⟨hw, hwith⟩
      -- The number is that of one visit only, so it is this one that is bound to the declaration.
      have hsame : w = v := hresolved.unique w hw v hv (heq.trans hnumber)
      exact huses (hsame ▸ of_decide_eq_true hwith)
    have hown : (Renaming.ofVariable ss i new).used r = r.name.name := if_neg hmem
    rw [hown, Scopes.nameWith]
    cases hlead : v.scopes.binder? r.name.name with
    | none => rfl
    | some j =>
        have hj : j ≠ i := by
          rintro rfl
          exact huses (hbinder.trans hlead)
        rw [Option.map_some, Option.getD_some, Ident.nameWith_of_ne hj]
        exact (Scopes.name_of_binder? hlead).symm

/-- Resolution finds the same when a variable gets a new name. -/
theorem programFindings_rename (hread : ReadAll low high (partsAll ss))
    (herrors : (programFindings ss).errors = []) (hi : Declares ss i)
    (hword : Keyword.ofText? new = none) (homits : Omits ss new) :
    programFindings (renameAll (.ofVariable ss i new) ss) = programFindings ss :=
  have hnil : Scopes.Lacks [] new := fun _ hscope => nomatch hscope
  resolveAll_rename (hi.isWord hread) hword hnil ss (hi.sparesAll hread homits)
    (leadsAll_ofVariable (resolved_of_readAll hread herrors) homits) herrors

/-- Resolution accepts the program with the new name too, with the same distances. -/
theorem resolveProgram_rename (hread : ReadAll low high (partsAll ss))
    (herrors : (programFindings ss).errors = []) (hi : Declares ss i)
    (hword : Keyword.ofText? new = none) (homits : Omits ss new) :
    resolveProgram (renameAll (.ofVariable ss i new) ss) = resolveProgram ss :=
  congrArg (fun findings : Findings =>
      if findings.errors.isEmpty then Except.ok findings.locals else .error findings.errors)
    (programFindings_rename hread herrors hi hword homits)

/-- With a new name that is no reserved word the program is still as reading gives it. -/
theorem readAll_ofVariable (hread : ReadAll low high (partsAll ss))
    (hword : Keyword.ofText? new = none) :
    ReadAll low high (partsAll (renameAll (.ofVariable ss i new) ss)) := by
  refine readAll_rename hread ⟨?_, ?_⟩
  · intro s hs j hj
    rcases i.nameWith_cases new j with hown | ⟨hown, -⟩
    · exact (congrArg Keyword.ofText? hown).trans
        (hread.words s hs j (s.binders_subset_idents (s.variables_sublist_binders.subset hj)))
    · exact (congrArg Keyword.ofText? hown).trans hword
  · intro e he r hr
    by_cases hmem : r.id ∈ usersOf ss i
    · exact (congrArg Keyword.ofText? (if_pos hmem)).trans hword
    · exact (congrArg Keyword.ofText? (if_neg hmem)).trans
        (hread.expressions.words e he r.name (e.name_mem_idents hr))

end Stmt

end Lox
