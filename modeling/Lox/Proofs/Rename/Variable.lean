import Lox.Proofs.Rename.Program
import Lox.Proofs.Rename.Resolve

/-!
# A program in which a variable has a new name

A variable of an accepted program gets a new name that is not written in the program. Then the old
name can be put back: the program becomes the one it was, and where the new name is written it leads
to the variable.

Main statements: `Stmt.renameAll_back`, and `Alias.undoable_ofVariable`, from which `Alias.suits`
makes what runs need.
-/

namespace Lox

variable {n : Alias} {i : Ident} {ss ts : List Stmt} {locals : Locals} {low high : Nat}

/-! ## Putting back the old name -/

theorem Alias.undo_nameWith (hold : i.name = n.old) {j : Ident} (hj : j.name ≠ n.new) :
    n.undo (i.nameWith n.new j) = j.name := by
  rcases i.nameWith_cases n.new j with hown | ⟨hown, rfl⟩
  · rw [hown, undo_of_ne hj]
  · rw [hown, undo, if_pos rfl, hold]

/-- The program is what it was when the old name is put back. -/
theorem Stmt.renameAll_back (hresolved : Resolved (programVisits ss) (programFindings ss).locals)
    (homits : Omits ss n.new) (hold : i.name = n.old) :
    renameAll n.back (renameAll (.ofVariable ss i n.new) ss) = ss := by
  rw [renameAll_renameAll]
  refine renameAll_eq_self ss ⟨?_, ?_⟩
  · intro s hs j hj
    exact Alias.undo_nameWith hold (homits.binders s hs j (s.variables_sublist_binders.subset hj))
  · intro e he r hr
    rw [← map_expr_visitsAll none [], List.mem_map] at he
    rcases he with ⟨v, hv, rfl⟩
    rcases leadsAll_ofVariable (i := i) hresolved homits v hv _ List.mem_cons_self r hr with
      ⟨hname, hused⟩
    have hundo : n.undo ((Renaming.ofVariable ss i n.new).used r) = r.name.name := by
      rw [hused]
      rcases v.scopes.nameWith_cases i n.new r.name.name with hown | ⟨hown, hlead⟩
      · rw [hown, Alias.undo_of_ne hname]
      · rw [hown, Alias.undo, if_pos rfl, ← hold, hlead]
    exact hundo

/-! ## The declarations of a scope -/

/-- The declarations in the scope of a function. -/
def Routine.declarations (r : FunctionDecl) : List Ident :=
  r.parameters ++ r.body.filterMap Stmt.declares?

/-- The declarations in each of the scopes that a statement opens itself. -/
def Stmt.ownScopes : Stmt → List (List Ident)
  | .block body => [body.filterMap declares?]
  | .function decl => [decl.declarations]
  | .class _ _ methods => methods.map Routine.declarations
  | _ => []

namespace Stmt

theorem declaredAll_eq (ss : List Stmt) :
    declaredAll ss = (ss.filterMap declares?).map Ident.name := by
  induction ss with
  | nil => rfl
  | cons s ss ih =>
      have hcons : declaredAll (s :: ss) = s.declared ++ declaredAll ss := rfl
      rw [hcons, ih, declared]
      cases hname : s.declares? with
      | none => rw [List.filterMap_cons_none hname]; rfl
      | some name => rw [List.filterMap_cons_some hname]; rfl

end Stmt

theorem Routine.locals_eq (r : FunctionDecl) : r.locals = r.declarations.map Ident.name := by
  rw [locals, declarations, List.map_append, Stmt.declaredAll_eq]

namespace Stmt

variable {s : Stmt} {declared : List Ident} {j : Ident} {ρ : Renaming}

theorem mem_binders_of_declares? (h : s.declares? = some j) : j ∈ s.binders := by
  cases s <;> cases h <;> exact List.mem_cons_self

/-- A scope that declares no name twice has different declarations. -/
theorem Distinct.nodup (h : s.Distinct) (hscope : declared ∈ s.ownScopes) :
    (declared.map Ident.name).Nodup := by
  cases s with
  | block body =>
      cases List.mem_singleton.mp hscope
      exact declaredAll_eq body ▸ h
  | function decl =>
      cases List.mem_singleton.mp hscope
      exact decl.locals_eq ▸ h
  | «class» name parent methods =>
      rcases List.mem_map.mp hscope with ⟨r, hr, rfl⟩
      exact Routine.locals_eq r ▸ h r hr
  | _ => cases hscope

/-- What is declared in a scope of a program is declared by one of its statements. -/
theorem exists_binders_of_mem_ownScopes (hs : s ∈ partsAll ss) (hscope : declared ∈ s.ownScopes)
    (hj : j ∈ declared) : ∃ t ∈ partsAll ss, j ∈ t.binders := by
  have hbody : ∀ body : List Stmt, (∀ t ∈ body, t ∈ s.inner) → j ∈ body.filterMap declares? →
      ∃ t ∈ partsAll ss, j ∈ t.binders := by
    intro body hinner hj
    rcases List.mem_filterMap.mp hj with ⟨t, ht, hname⟩
    exact ⟨t, mem_partsAll_of_mem_inner hs (hinner t ht), mem_binders_of_declares? hname⟩
  cases s with
  | block body =>
      cases List.mem_singleton.mp hscope
      exact hbody body (fun _ ht => ht) hj
  | function decl =>
      cases List.mem_singleton.mp hscope
      rcases List.mem_append.mp hj with hj | hj
      · exact ⟨_, hs, List.mem_cons_of_mem _ hj⟩
      · exact hbody decl.body (fun _ ht => ht) hj
  | «class» name parent methods =>
      rcases List.mem_map.mp hscope with ⟨r, hr, rfl⟩
      rcases List.mem_append.mp hj with hj | hj
      · exact ⟨_, hs, List.mem_cons_of_mem _ (List.mem_flatMap.mpr ⟨r, hr, hj⟩)⟩
      · exact hbody r.body (fun t ht => List.mem_flatMap.mpr ⟨r, hr, ht⟩) hj
  | _ => cases hscope

theorem filterMap_declares?_rename {body : List Stmt}
    (h : ∀ t ∈ body, (t.rename ρ).declares? = t.declares?.map (Ident.rename ρ)) :
    (renameAll ρ body).filterMap declares? = (body.filterMap declares?).map (Ident.rename ρ) := by
  rw [renameAll_eq, List.filterMap_map, List.map_filterMap]
  exact List.filterMap_congr h

theorem declarations_renameRoutine {r : FunctionDecl}
    (h : ∀ t ∈ r.body, (t.rename ρ).declares? = t.declares?.map (Ident.rename ρ)) :
    Routine.declarations (renameRoutine ρ r) = (Routine.declarations r).map (Ident.rename ρ) := by
  rw [Routine.declarations, Routine.declarations, renameRoutine_parameters, renameRoutine_body,
    filterMap_declares?_rename h, List.map_append]

theorem ownScopes_rename
    (h : ∀ t ∈ s.inner, (t.rename ρ).declares? = t.declares?.map (Ident.rename ρ)) :
    (s.rename ρ).ownScopes = s.ownScopes.map (List.map (Ident.rename ρ)) := by
  cases s with
  | block body =>
      exact congrArg (fun declared => [declared]) (filterMap_declares?_rename h)
  | function decl =>
      exact congrArg (fun declared => [declared]) (declarations_renameRoutine h)
  | «class» name parent methods =>
      rw [rename, ownScopes, ownScopes, renameMethods_eq, List.map_map, List.map_map]
      refine List.map_congr_left ?_
      intro r hr
      exact declarations_renameRoutine fun t ht => h t (List.mem_flatMap.mpr ⟨r, hr, ht⟩)
  | _ => rfl

end Stmt

/-! ## Programs in which the old name can be put back -/

/-- What a statement declares does not confuse the old and the new name: no scope that the statement
opens itself declares both, and no function and no class has the new name. -/
structure Alias.Separates (n : Alias) (s : Stmt) : Prop where
  scopes : ∀ declared ∈ s.ownScopes, n.Apart (declared.map Ident.name)
  functions : ∀ decl, s = .function decl → decl.name.name ≠ n.new
  classes : ∀ name parent methods, s = .class name parent methods → name.name ≠ n.new

/-- The old name can be put back in a program: its statements do not confuse the names, and the new
name never leads to a global. -/
structure Alias.Undoable (n : Alias) (locals : Locals) (ss : List Stmt) : Prop where
  separates : ∀ s ∈ Stmt.partsAll ss, n.Separates s
  bound : ∀ e ∈ Stmt.expressions (Stmt.partsAll ss), ∀ r, e.reference? = some r →
    locals.distance? r.id = none → r.name.name ≠ n.new

namespace Alias

theorem Undoable.append (hss : n.Undoable locals ss) (hts : n.Undoable locals ts) :
    n.Undoable locals (ss ++ ts) := by
  refine ⟨?_, ?_⟩
  · rw [Stmt.partsAll_append]
    intro s hs
    rcases List.mem_append.mp hs with hs | hs
    · exact hss.separates s hs
    · exact hts.separates s hs
  · rw [Stmt.partsAll_append, Stmt.expressions_append]
    intro e he
    rcases List.mem_append.mp he with he | he
    · exact hss.bound e he
    · exact hts.bound e he

/-- Where the new name is not written the old name can be put back. -/
theorem undoable_of_omits (h : Stmt.Omits ss n.new) : n.Undoable locals ss := by
  refine ⟨?_, fun e he r hr _ => h.references e he r hr⟩
  intro s hs
  refine ⟨?_, ?_, ?_⟩
  · intro declared hscope
    refine apart_of_not_mem ?_
    intro hmem
    rcases List.mem_map.mp hmem with ⟨j, hj, hname⟩
    rcases Stmt.exists_binders_of_mem_ownScopes hs hscope hj with ⟨t, ht, hbinder⟩
    exact h.binders t ht j hbinder hname
  · rintro decl rfl
    exact h.binders _ hs _ List.mem_cons_self
  · rintro name parent methods rfl
    exact h.binders _ hs _ List.mem_cons_self

/-- Different declarations keep the old and the new name apart when one of them gets the new one. -/
theorem apart_nameWith {declared : List Ident} (hdistinct : (declared.map Ident.name).Nodup)
    (hnew : ∀ j ∈ declared, j.name ≠ n.new) (hold : i.name = n.old) :
    n.Apart (declared.map (i.nameWith n.new)) := by
  rintro ⟨hmemOld, hmemNew⟩
  rcases List.mem_map.mp hmemNew with ⟨j, hj, hjname⟩
  rcases List.mem_map.mp hmemOld with ⟨k, hk, hkname⟩
  have hji : j = i := by
    rcases i.nameWith_cases n.new j with hown | ⟨-, hi⟩
    · exact absurd (hown.symm.trans hjname) (hnew j hj)
    · exact hi
  subst hji
  rcases j.nameWith_cases n.new k with hown | ⟨hown, rfl⟩
  · -- The declaration with the old name is the one that has the new name.
    have hsame : k.name = j.name := hown.symm.trans (hkname.trans hold.symm)
    have hkj : k = j := List.inj_on_of_nodup_map hdistinct hk hj hsame
    subst hkj
    exact hnew k hk (hown.symm.trans hjname)
  · exact hnew k hk (hold.trans (hkname.symm.trans hown))

section Variable

variable (hread : Stmt.ReadAll low high (Stmt.partsAll ss))
  (herrors : (Stmt.programFindings ss).errors = []) (hi : Stmt.Declares ss i)
  (hold : i.name = n.old) (homits : Stmt.Omits ss n.new)

include hread herrors hi hold homits

theorem separates_rename {used : Reference → String} {s : Stmt} (hs : s ∈ Stmt.partsAll ss) :
    n.Separates (s.rename (.ofDeclaration i n.new used)) := by
  have hspares : ∀ t ∈ s.inner, t.Spares i n.new :=
    fun t ht => hi.sparesAll hread homits t (Stmt.mem_partsAll_of_mem_inner hs ht)
  refine ⟨?_, ?_, ?_⟩
  · rw [Stmt.ownScopes_rename fun t ht => Stmt.declares?_rename_of_spares (hspares t ht)]
    intro scope hscope
    rcases List.mem_map.mp hscope with ⟨declared, hdeclared, rfl⟩
    rw [List.map_map]
    refine apart_nameWith ((Stmt.distinct_of_accepted hread herrors s hs).nodup hdeclared) ?_ hold
    intro j hj
    rcases Stmt.exists_binders_of_mem_ownScopes hs hdeclared hj with ⟨t, ht, hbinder⟩
    exact homits.binders t ht j hbinder
  · intro decl heq
    cases s with
    | function own =>
        cases heq
        rw [Stmt.renameRoutine_name]
        exact homits.binders _ hs _ List.mem_cons_self
    | _ => cases heq
  · intro name parent methods heq
    cases s with
    | «class» own parent' methods' =>
        cases heq
        exact homits.binders _ hs _ List.mem_cons_self
    | _ => cases heq

/-- When a variable has got the new name the old one can be put back. The distances are as they were
before. -/
theorem undoable_ofVariable
    (hdistance : ∀ v ∈ Stmt.programVisits ss, locals.distance? v.expr.number = v.distance?) :
    n.Undoable locals (Stmt.renameAll (.ofVariable ss i n.new) ss) := by
  refine ⟨?_, ?_⟩
  · rw [Stmt.partsAll_renameAll]
    intro s hs
    rcases List.mem_map.mp hs with ⟨t, ht, rfl⟩
    exact separates_rename hread herrors hi hold homits ht
  · rw [Stmt.partsAll_renameAll, Stmt.expressions_rename]
    intro e he r hr hnone hname
    rcases List.mem_map.mp he with ⟨part, hpart, rfl⟩
    rw [Expr.reference?_rename, Option.map_eq_some_iff] at hr
    rcases hr with ⟨own, hown, rfl⟩
    -- A reference has the new name only if it is bound to the variable, and then it has a distance.
    by_cases huses : own.id ∈ Stmt.usersOf ss i
    · rcases (Stmt.mem_usersOf_iff hdistance).mp huses with ⟨_, _, _, d, _, _, _, _, hd, -⟩
      cases hd.symm.trans hnone
    · have hkept : (own.rename (.ofVariable ss i n.new)).name.name = own.name.name := if_neg huses
      exact homits.references part hpart own hown (hkept.symm.trans hname)

end Variable

end Alias

/-- If the variable is no global, no statement of the program itself declares the new name. -/
theorem Stmt.declared_ofVariable {new : String} (hread : ReadAll low high (partsAll ss))
    (hi : Declares ss i) (homits : Omits ss new) (hlocal : ∀ initial, .var i initial ∉ ss) :
    ∀ s ∈ renameAll (.ofVariable ss i new) ss, new ∉ s.declared := by
  intro s hs hmem
  rw [renameAll_eq, List.mem_map] at hs
  rcases hs with ⟨t, ht, rfl⟩
  have hpart : t ∈ partsAll ss := parts_subset_partsAll ht t.mem_parts_self
  rw [declared, Option.mem_toList, Option.map_eq_some_iff] at hmem
  rcases hmem with ⟨k, hk, hname⟩
  rcases declares?_rename hk with ⟨j, hj, rfl | ⟨-, rfl⟩⟩
  · exact homits.binders t hpart k (mem_binders_of_declares? hj) hname
  · rcases i.nameWith_cases new j with hown | ⟨-, rfl⟩
    · exact homits.binders t hpart j (mem_binders_of_declares? hj) (hown.symm.trans hname)
    · -- Only the statement that declares the variable gets the new name, and it is none of these.
      have hspares := hi.sparesAll hread homits t hpart
      cases t with
      | var own initial =>
          cases hj
          exact hlocal initial ht
      | function decl =>
          cases hj
          exact hspares.functions decl rfl rfl
      | «class» own parent methods =>
          cases hj
          exact hspares.classes j parent methods rfl rfl
      | _ => cases hj

/-! ## Worlds of programs -/

/-- An expression stands in one statement of a program only. -/
theorem Stmt.eq_of_mem_expressions (hread : ReadAll low high (partsAll ss)) {s t : Stmt} {e : Expr}
    (hs : s ∈ partsAll ss) (ht : t ∈ partsAll ss) (hes : e ∈ expressions [s])
    (het : e ∈ expressions [t]) : s = t := by
  by_contra hne
  have hnodup : (expressions (partsAll ss)).Nodup := hread.expressions.fresh.1.of_map _
  have hsymm : Std.Symm (Function.onFun List.Disjoint fun s : Stmt => s.operands.flatMap Expr.parts) :=
    ⟨fun _ _ hdisjoint _ hleft hright => hdisjoint hright hleft⟩
  have hdisjoint := (List.nodup_flatMap.mp hnodup).2.forall hs ht hne
  rw [expressions_cons, expressions_nil, List.append_nil] at hes het
  exact hdisjoint hes het

/-- The world of a program in which the old name can be put back. -/
theorem Alias.suits {W : World} {setting : Setting} (hglobals : setting.globals = W.root)
    (hvisits : W.visits = Stmt.programVisits ss) (hstatements : W.statements = Stmt.partsAll ss)
    (hread : Stmt.ReadAll low high (Stmt.partsAll ss))
    (herrors : (Stmt.programFindings ss).errors = [])
    (hlocals : setting.locals = (Stmt.programFindings ss).locals)
    (h : n.Undoable setting.locals ss) : n.Suits W setting := by
  refine ⟨hglobals, ?_, ?_, ?_, ?_, ?_, ?_, ?_, ?_⟩
  · rw [hvisits, hlocals]
    exact Stmt.resolved_of_readAll hread herrors
  · rw [hvisits, hstatements]
    exact Stmt.settles_visitsAll Scopes.settled_nil ss
  · rw [hstatements]
    exact fun s hs t ht e hes het => Stmt.eq_of_mem_expressions hread hs ht hes het
  · rw [hvisits]
    exact fun v hv => h.bound v.expr (Stmt.mem_expressions_of_mem_programVisits hv)
  · rw [hstatements]
    exact fun r hr => (h.separates _ hr).functions r rfl
  · rw [hstatements]
    exact fun d hd => (h.separates _ hd).classes d.name d.parent d.methods rfl
  · rw [hstatements]
    intro body hbody
    rw [Stmt.declaredAll_eq]
    exact (h.separates _ hbody).scopes _ List.mem_cons_self
  · rintro r (hfunction | ⟨d, hclass, hmethod⟩)
    · rw [hstatements] at hfunction
      rw [r.locals_eq]
      exact (h.separates _ hfunction).scopes _ List.mem_cons_self
    · rw [hstatements] at hclass
      rw [Routine.locals_eq]
      exact (h.separates _ hclass).scopes _ (List.mem_map_of_mem hmethod)

end Lox
