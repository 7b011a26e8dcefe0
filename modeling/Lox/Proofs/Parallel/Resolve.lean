import Lox.Proofs.Parallel.Scope

/-!
# Copies that are resolved with one scope less

A statement is copied: the copy has other numbers and nothing else. If resolution visits the statement
with a scope around it that binds nothing, and the copy without that scope, then the two are parallel
under the distances that are found.

Main statement: `Stmt.parallels_renumber`.
-/

namespace Lox

/-- Other numbers for expressions, and no other change. -/
def Relabel.renumber (number : Nat → Nat) : Relabel :=
  ⟨number, id, []⟩

namespace Tracks

/-- What is found at the visits is recorded for the first run, and what is found at the other visits is
recorded for the second run under the numbers of the copy. At the visits nothing is violated. -/
structure Records (T : Tracks) (g : Nat → Nat) (vs vs' : List Visit) : Prop where
  first : ∀ v ∈ vs, v.Recorded T.first.locals v.expr.number
  errors : ∀ v ∈ vs, v.findings.errors = []
  second : ∀ v ∈ vs', v.Recorded T.locals (g v.expr.number)

/-- Expressions are visited in scopes, and in other scopes once more. -/
def RecordsAt (T : Tracks) (g : Nat → Nat) (owner : Option ClassDecl) (scopes scopes' : Scopes)
    (es : List Expr) : Prop :=
  T.Records g (es.map fun e => ⟨e, owner, scopes⟩) (es.map fun e => ⟨e, owner, scopes'⟩)

variable {T : Tracks} {g : Nat → Nat}

namespace Records

variable {vs vs' ws ws' : List Visit}

theorem left (h : T.Records g (vs ++ ws) (vs' ++ ws')) : T.Records g vs vs' :=
  ⟨fun v hv => h.first v (List.mem_append_left _ hv),
    fun v hv => h.errors v (List.mem_append_left _ hv),
    fun v hv => h.second v (List.mem_append_left _ hv)⟩

theorem right (h : T.Records g (vs ++ ws) (vs' ++ ws')) : T.Records g ws ws' :=
  ⟨fun v hv => h.first v (List.mem_append_right _ hv),
    fun v hv => h.errors v (List.mem_append_right _ hv),
    fun v hv => h.second v (List.mem_append_right _ hv)⟩

end Records

namespace RecordsAt

variable {owner : Option ClassDecl} {scopes scopes' : Scopes} {es fs : List Expr}

theorem left (h : T.RecordsAt g owner scopes scopes' (es ++ fs)) :
    T.RecordsAt g owner scopes scopes' es := by
  rw [RecordsAt, List.map_append, List.map_append] at h
  exact Records.left h

theorem right (h : T.RecordsAt g owner scopes scopes' (es ++ fs)) :
    T.RecordsAt g owner scopes scopes' fs := by
  rw [RecordsAt, List.map_append, List.map_append] at h
  exact Records.right h

end RecordsAt

end Tracks

variable {T : Tracks} {k : Hollow} {g : Nat → Nat} {owner : Option ClassDecl} {scopes scopes' : Scopes}

/-! ## Expressions -/

namespace Expr

/-- `this` stands in a class, so the distance that is recorded is that of the scope that binds the
name, in either run. -/
theorem distance_of_recordsAt {e : Expr} {name : String}
    (h : T.RecordsAt g owner scopes scopes' [e])
    (hname : (⟨e, owner, scopes⟩ : Visit).name? = some name) :
    T.first.locals.distance? e.number = scopes.distance? name ∧
      T.locals.distance? (g e.number) = scopes'.distance? name := by
  have hthis : ∀ node, e = .this node → owner.isSome = true :=
    fun _ => Visit.owner_of_this (h.errors _ List.mem_cons_self)
  have hfound : ∀ around : Scopes,
      (⟨e, owner, around⟩ : Visit).distance? = around.distance? name := by
    intro around
    exact congrArg (Option.bind · around.distance?) hname
  refine ⟨?_, ?_⟩
  · exact ((h.first _ List.mem_cons_self).distance hthis).trans (hfound scopes)
  · exact ((h.second _ List.mem_cons_self).distance hthis).trans (hfound scopes')

theorem leads_renumber {e : Expr} {name : String} (hscopes : scopes.Parallels k scopes')
    (h : T.RecordsAt g owner scopes scopes' [e])
    (hname : (⟨e, owner, scopes⟩ : Visit).name? = some name) :
    T.Leads k e.number (g e.number) := by
  rcases distance_of_recordsAt h hname with ⟨hfirst, hsecond⟩
  refine ⟨?_, ?_⟩
  · rw [hsecond, hfirst, hscopes.distance]
  · intro d hd
    rw [hfirst] at hd
    exact hscopes.apart hd

/-- The instance of a method is bound one step nearer than the superclass. -/
theorem near_renumber {node : Node} {method : Ident} (hscopes : scopes.Parallels k scopes')
    (hhomes : scopes.Homes owner) (h : T.RecordsAt g owner scopes scopes' [.super node method])
    {near : Nat} (hnear : T.first.locals.distance? node.id = some (near + 1)) : k ≠ some near := by
  rcases Visit.parent_of_super (h.errors _ List.mem_cons_self) with ⟨d, parent, rfl, hparent⟩
  rcases hhomes d rfl with ⟨near', hthis, hsuper⟩
  have hfirst := (distance_of_recordsAt h rfl).1
  rw [hsuper (by rw [hparent]; rfl)] at hfirst
  cases hnear.symm.trans hfirst
  exact hscopes.apart hthis

mutual

theorem parallels_renumber (hscopes : scopes.Parallels k scopes') (hhomes : scopes.Homes owner) :
    (e : Expr) → T.RecordsAt g owner scopes scopes' e.parts →
      e.Parallels T k (e.relabel (.renumber g))
  | .literal ⟨_, _⟩ _, _ => .literal
  | .group ⟨_, _⟩ inner, h => .group (parallels_renumber hscopes hhomes inner h.left)
  | .unary ⟨_, _⟩ _ operand, h => .unary (parallels_renumber hscopes hhomes operand h.left)
  | .binary ⟨_, _⟩ _ left right, h =>
      .binary (parallels_renumber hscopes hhomes left h.left.left)
        (parallels_renumber hscopes hhomes right h.left.right)
  | .logical ⟨_, _⟩ _ left right, h =>
      .logical (parallels_renumber hscopes hhomes left h.left.left)
        (parallels_renumber hscopes hhomes right h.left.right)
  | .var ⟨_, _⟩, h => .var (leads_renumber hscopes h rfl)
  | .assign ⟨id, name⟩ value, h =>
      .assign (leads_renumber (e := .assign ⟨id, name⟩ value) hscopes h.right rfl)
        (parallels_renumber hscopes hhomes value h.left)
  | .call ⟨_, _⟩ callee arguments, h =>
      .call (parallels_renumber hscopes hhomes callee h.left.left)
        (parallels_renumberAll hscopes hhomes arguments h.left.right)
  | .get _ object _, h => .get (parallels_renumber hscopes hhomes object h.left)
  | .set _ object _ value, h =>
      .set (parallels_renumber hscopes hhomes object h.left.right)
        (parallels_renumber hscopes hhomes value h.left.left)
  | .this ⟨_, _⟩, h => .this (leads_renumber hscopes h rfl)
  | .super ⟨_, _⟩ _, h =>
      .super (leads_renumber hscopes h rfl) fun _ => near_renumber hscopes hhomes h

theorem parallels_renumberAll (hscopes : scopes.Parallels k scopes') (hhomes : scopes.Homes owner) :
    (es : List Expr) → T.RecordsAt g owner scopes scopes' (partsAll es) →
      List.Forall₂ (Expr.Parallels T k) es (relabelAll (.renumber g) es)
  | [], _ => .nil
  | e :: es, h =>
      .cons (parallels_renumber hscopes hhomes e h.left)
        (parallels_renumberAll hscopes hhomes es h.right)

end

theorem parallels_renumberOption (hscopes : scopes.Parallels k scopes') (hhomes : scopes.Homes owner)
    (e? : Option Expr)
    (h : T.Records g (visitsOption owner scopes e?) (visitsOption owner scopes' e?)) :
    Option.Rel (Expr.Parallels T k) e? (e?.map (relabel (.renumber g))) := by
  cases e? with
  | none => exact .none
  | some e => exact .some (parallels_renumber hscopes hhomes e h)

end Expr

/-! ## Statements -/

theorem Scopes.Parallels.extend {s : Stmt} (h : scopes.Parallels k scopes')
    (hsound : Stmt.Sound s.parts) (hk : k = some 0 → s.declares? = none) :
    Parallels k (s.extend scopes) (s.extend scopes') := by
  rw [Stmt.extend_of_plain scopes s hsound.plain, Stmt.extend_of_plain scopes' s hsound.plain]
  cases hdeclares : s.declares? with
  | none => exact h
  | some name =>
      refine h.define ?_ name
      intro heq
      rw [hk heq] at hdeclares
      cases hdeclares

namespace Stmt

/-- The branches of a statement declare nothing. -/
theorem Sound.self {s : Stmt} (h : Sound s.parts) : s.BranchesPlain :=
  h.plain s (mem_parts_self s)

mutual

theorem parallels_renumber {k : Hollow} {owner : Option ClassDecl} {scopes scopes' : Scopes}
    (hscopes : scopes.Parallels k scopes') (hhomes : scopes.Homes owner) : (s : Stmt) →
    Sound s.parts → (k = some 0 → s.declares? = none) →
    T.Records g (s.visits owner scopes) (s.visits owner scopes') →
      s.Parallels T k (s.relabel (.renumber g))
  | .expression value, _, _, h => .expression (value.parallels_renumber hscopes hhomes h)
  | .print value, _, _, h => .print (value.parallels_renumber hscopes hhomes h)
  | .var name initial, hsound, hk, h => by
      have hname : name.IsWord := hsound.words _ (mem_parts_self _) name (by simp [idents])
      have hne : k ≠ some 0 := fun heq => nomatch hk heq
      exact .var hne (Expr.parallels_renumberOption (hscopes.declare hne name) (hhomes.declare hname)
        initial h)
  | .block body, hsound, _, h =>
      .block (parallels_renumberAll (hscopes.push []) hhomes.enter k.inside_ne_zero body hsound.tail h)
  | .ifElse condition consequent none, hsound, _, h =>
      .ifOnly (condition.parallels_renumber hscopes hhomes h.left.left)
        (parallels_renumber hscopes hhomes consequent hsound.tail.left (fun _ => hsound.self.1)
          h.left.right)
  | .ifElse condition consequent (some alternative), hsound, _, h =>
      .ifElse (condition.parallels_renumber hscopes hhomes h.left.left)
        (parallels_renumber hscopes hhomes consequent hsound.tail.left (fun _ => hsound.self.1)
          h.left.right)
        (parallels_renumber (hscopes.extend hsound.tail.left fun _ => hsound.self.1)
          (hhomes.extend hsound.tail.left) alternative hsound.tail.right
          (fun _ => hsound.self.2 alternative rfl) h.right)
  | .while condition body, hsound, _, h =>
      .while (condition.parallels_renumber hscopes hhomes h.left)
        (parallels_renumber hscopes hhomes body hsound.tail (fun _ => hsound.self) h.right)
  | .function decl, hsound, hk, h => by
      have hidents := hsound.words _ (mem_parts_self _)
      have hname : decl.name.IsWord := hidents decl.name (by simp [idents, routineIdents])
      have hne : k ≠ some 0 := fun heq => nomatch hk heq
      exact .function hne (parallels_renumberRoutine (hscopes.define hne decl.name)
        (hhomes.define hname) decl (fun i hi => hidents i (List.mem_cons_of_mem _ hi)) hsound.tail h)
  | .return _ value, _, _, h => .return (Expr.parallels_renumberOption hscopes hhomes value h)
  | .class name none methods, hsound, hk, h => by
      have hidents := hsound.words _ (mem_parts_self _)
      have hne : k ≠ some 0 := fun heq => nomatch hk heq
      exact .root hne (parallels_renumberMethods ((hscopes.define hne name).push _)
        (Scopes.Homes.enterClass (scopes.define name) ⟨name, none, methods⟩) methods
        (fun i hi => hidents i (List.mem_cons_of_mem _ hi)) hsound.tail h.right)
  | .class name (some ⟨id, parent⟩) methods, hsound, hk, h => by
      have hidents := hsound.words _ (mem_parts_self _)
      have hne : k ≠ some 0 := fun heq => nomatch hk heq
      have hdefined := hscopes.define hne name
      exact .derived hne (Expr.leads_renumber (e := .var ⟨id, parent⟩) hdefined h.left rfl)
        (parallels_renumberMethods ((hdefined.push _).push _)
          (Scopes.Homes.enterClass (scopes.define name) ⟨name, some ⟨id, parent⟩, methods⟩) methods
          (fun i hi => hidents i (List.mem_cons_of_mem _ hi)) hsound.tail h.right)

theorem parallels_renumberAll {k : Hollow} {owner : Option ClassDecl} {scopes scopes' : Scopes}
    (hscopes : scopes.Parallels k scopes') (hhomes : scopes.Homes owner) (hk : k ≠ some 0) :
    (ss : List Stmt) → Sound (partsAll ss) →
    T.Records g (visitsAll owner scopes ss) (visitsAll owner scopes' ss) →
      ParallelsAll T k ss (relabelAll (.renumber g) ss)
  | [], _, _ => .nil
  | s :: ss, hsound, h =>
      .cons (parallels_renumber hscopes hhomes s hsound.left (fun heq => absurd heq hk) h.left)
        (parallels_renumberAll (hscopes.extend hsound.left fun heq => absurd heq hk)
          (hhomes.extend hsound.left) hk ss hsound.right h.right)

theorem parallels_renumberRoutine {k : Hollow} {owner : Option ClassDecl} {scopes scopes' : Scopes}
    (hscopes : scopes.Parallels k scopes') (hhomes : scopes.Homes owner) : (r : Routine Stmt) →
    (∀ i ∈ r.parameters, i.IsWord) → Sound (partsRoutine r) →
    T.Records g (visitsRoutine owner scopes r) (visitsRoutine owner scopes' r) →
      ParallelsRoutine T k r (relabelRoutine (.renumber g) r)
  | ⟨name, parameters, body⟩, hparameters, hsound, h => by
      have hsame : parameters.map (Ident.relabel (.renumber g)) = parameters := List.map_id parameters
      rw [relabelRoutine, hsame]
      exact .mk (parallels_renumberAll
        (Scopes.Parallels.defineAll k.inside_ne_zero parameters (hscopes.push []))
        (Scopes.Homes.defineAll hparameters hhomes.enter) k.inside_ne_zero body hsound h)

theorem parallels_renumberMethods {k : Hollow} {owner : Option ClassDecl} {scopes scopes' : Scopes}
    (hscopes : scopes.Parallels k scopes') (hhomes : scopes.Homes owner) :
    (methods : List (Routine Stmt)) → (∀ i ∈ methods.flatMap routineIdents, i.IsWord) →
    Sound (partsMethods methods) →
    T.Records g (visitsMethods owner scopes methods) (visitsMethods owner scopes' methods) →
      ParallelsMethods T k methods (relabelMethods (.renumber g) methods)
  | [], _, _, _ => .nil
  | method :: methods, hwords, hsound, h =>
      .cons (parallels_renumberRoutine hscopes hhomes method
          (fun i hi => hwords i (List.mem_flatMap.mpr
            ⟨method, List.mem_cons_self, List.mem_cons_of_mem _ hi⟩)) hsound.left h.left)
        (parallels_renumberMethods hscopes hhomes methods
          (fun i hi => hwords i (List.mem_append_right _ hi)) hsound.right h.right)

end

end Stmt

end Lox
