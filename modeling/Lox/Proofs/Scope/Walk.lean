import Lox.Proofs.Syntax.Parts
import Lox.Scope.Basic
import Lox.Syntax.Uses

/-!
# The walk through a program

Scope resolution goes through a program in a fixed order. Its walk is written down here as a list of
steps, without any scopes: where a part with a scope of its own begins and ends, where a name is
declared, where a name is used, and where something stands that only some places allow. What is in
scope at a step, and which rule it breaks, is then a matter of the steps before it.

The order differs from that of the text in two places. The value of an assignment comes before the
use of its target, and before the object whose field is set.

* `Stmt.perm_usesAll` says that the uses along the walk are the uses in the program.
* `Stmt.furnished_walkAll` says that the methods of a class that inherits have two regions of their
  own, one inside the other.
* `Stmt.nodup_numbers_of_readAll` says that the uses in a program that was read have different
  numbers.
-/

namespace Lox

namespace Walk

/-! ## Regions and steps -/

/-- A part of a program that has a scope of its own. The parameters of a function and its body are
one region. The methods of a class stand in a region, and those of a subclass in one more around
it. -/
inductive Region
  | block
  | function
  | initializer
  | method
  /-- What is around the methods of a class that inherits. -/
  | heritage (parent : Ident)
  /-- The methods of a class that does not inherit. -/
  | root (name : Ident)
  /-- The methods of a class that inherits. -/
  | derived (name : Ident)
  deriving DecidableEq, Repr

namespace Region

/-- The name of the language that is bound in a region from its beginning. -/
def bound? : Region → Option Ident
  | .heritage parent => some ⟨superName, parent.span⟩
  | .root name => some ⟨thisName, name.span⟩
  | .derived name => some ⟨thisName, name.span⟩
  | _ => none

/-- What the function is whose parameters and body the region holds. -/
def routine? : Region → Option RoutineContext
  | .function => some .function
  | .initializer => some .initializer
  | .method => some .method
  | _ => none

/-- What the class is whose methods the region holds. -/
def class? : Region → Option ClassContext
  | .root _ => some .root
  | .derived _ => some .derived
  | _ => none

/-- The region of a method, by its name. -/
def ofMethod (name : String) : Region :=
  if name = initializerName then .initializer else .method

end Region

/-- A step of the walk. -/
inductive Step
  | enter (region : Region)
  /-- The end of the region that was entered last. -/
  | leave
  | declare (name : Ident)
  /-- The use of a name, and the variable whose initializer it belongs to. -/
  | use (use : Use) (initialized : Option Ident)
  | return (keyword : Span) (hasValue : Bool)
  /-- A class names the class it inherits from. -/
  | inherit (name parent : Ident)
  deriving DecidableEq, Repr

namespace Step

/-- The name that is declared at a step. -/
def declares? : Step → Option Ident
  | .enter region => region.bound?
  | .declare name => some name
  | _ => none

/-- The use at a step. -/
def use? : Step → Option Use
  | .use u _ => some u
  | _ => none

end Step

/-- The steps through a region, with what is in it. -/
def Region.around (region : Region) (inside : List Step) : List Step :=
  .enter region :: (inside ++ [.leave])

/-- The uses of names at the steps of a walk. -/
def used (steps : List Step) : List Use :=
  steps.filterMap Step.use?

@[simp] theorem used_append (xs ys : List Step) : used (xs ++ ys) = used xs ++ used ys :=
  List.filterMap_append

theorem used_cons (step : Step) (steps : List Step) :
    used (step :: steps) = step.use?.toList ++ used steps := by
  cases step <;> rfl

@[simp] theorem used_around (region : Region) (inside : List Step) :
    used (region.around inside) = used inside :=
  (used_append inside [.leave]).trans (List.append_nil _)

@[simp] theorem used_declare (name : Ident) (steps : List Step) :
    used (.declare name :: steps) = used steps :=
  rfl

@[simp] theorem used_inherit (name parent : Ident) (steps : List Step) :
    used (.inherit name parent :: steps) = used steps :=
  rfl

@[simp] theorem used_use (u : Use) (initialized : Option Ident) (steps : List Step) :
    used (.use u initialized :: steps) = u :: used steps :=
  rfl

@[simp] theorem used_nil : used [] = [] :=
  rfl

@[simp] theorem used_map_declare (names : List Ident) : used (names.map .declare) = [] := by
  induction names with
  | nil => rfl
  | cons name names ih => exact ih

end Walk

open Walk

/-! ## Expressions -/

namespace Expr

mutual

/-- The steps through an expression, which may belong to the initializer of a variable. -/
def walk (initialized : Option Ident) : Expr → List Step
  | .literal _ _ => []
  | .group _ inner => walk initialized inner
  | .unary _ _ operand => walk initialized operand
  | .binary _ _ left right => walk initialized left ++ walk initialized right
  | .logical _ _ left right => walk initialized left ++ walk initialized right
  | .var target => [.use target.use initialized]
  | .assign target value =>
      walk initialized value ++ [.use ⟨target.node, .assign target.name.name⟩ initialized]
  | .call _ callee arguments => walk initialized callee ++ walkAll initialized arguments
  | .get _ object _ => walk initialized object
  | .set _ object _ value => walk initialized value ++ walk initialized object
  | .this node => [.use ⟨node, .this⟩ initialized]
  | .super node method => [.use ⟨node, .super method.name⟩ initialized]

/-- The steps through expressions. -/
def walkAll (initialized : Option Ident) : List Expr → List Step
  | [] => []
  | e :: es => walk initialized e ++ walkAll initialized es

end

/-- The steps through an expression that may be missing. -/
def walkOption (initialized : Option Ident) : Option Expr → List Step
  | none => []
  | some e => e.walk initialized

variable (initialized : Option Ident)

mutual

theorem perm_uses : (e : Expr) → (used (e.walk initialized)).Perm e.uses
  | .literal _ _ => .refl _
  | .group _ inner => perm_uses inner
  | .unary _ _ operand => perm_uses operand
  | .binary _ _ left right => by
      rw [walk, used_append]
      exact (perm_uses left).append (perm_uses right)
  | .logical _ _ left right => by
      rw [walk, used_append]
      exact (perm_uses left).append (perm_uses right)
  | .var _ => .refl _
  | .assign target value => by
      rw [walk, used_append]
      -- The value is walked first, and its target stands first in the text.
      exact ((perm_uses value).append_right _).trans List.perm_append_comm
  | .call _ callee arguments => by
      rw [walk, used_append]
      exact (perm_uses callee).append (perm_usesAll arguments)
  | .get _ object _ => perm_uses object
  | .set _ object _ value => by
      rw [walk, used_append]
      exact ((perm_uses value).append (perm_uses object)).trans List.perm_append_comm
  | .this _ => .refl _
  | .super _ _ => .refl _

theorem perm_usesAll : (es : List Expr) → (used (walkAll initialized es)).Perm (usesAll es)
  | [] => .refl _
  | e :: es => by
      rw [walkAll, used_append]
      exact (perm_uses e).append (perm_usesAll es)

end

theorem perm_usesOption (e? : Option Expr) :
    (used (walkOption initialized e?)).Perm (usesOption e?) := by
  cases e? with
  | none => exact .refl _
  | some e => exact perm_uses initialized e

end Expr

/-! ## Statements -/

namespace Stmt

mutual

/-- The steps through a statement. -/
def walk : Stmt → List Step
  | .expression value => value.walk none
  | .print value => value.walk none
  | .var name initial => .declare name :: Expr.walkOption (some name) initial
  | .block body => Region.block.around (walkAll body)
  | .ifElse condition consequent alternative =>
      condition.walk none ++ walk consequent ++ walkOption alternative
  | .while condition body => condition.walk none ++ walk body
  | .function decl => .declare decl.name :: walkRoutine .function decl
  | .return keyword value => .return keyword value.isSome :: Expr.walkOption none value
  | .class name none methods => .declare name :: (Region.root name).around (walkMethods methods)
  | .class name (some parent) methods =>
      .declare name :: .inherit name parent.name :: .use parent.use none ::
        (Region.heritage parent.name).around ((Region.derived name).around (walkMethods methods))

/-- The steps through statements. -/
def walkAll : List Stmt → List Step
  | [] => []
  | s :: ss => walk s ++ walkAll ss

/-- The steps through a statement that may be missing. -/
def walkOption : Option Stmt → List Step
  | none => []
  | some s => walk s

/-- The steps through the parameters and the body of a function, which are one region. -/
def walkRoutine (region : Region) : Routine Stmt → List Step
  | ⟨_, parameters, body⟩ => region.around (parameters.map .declare ++ walkAll body)

/-- The steps through methods. -/
def walkMethods : List (Routine Stmt) → List Step
  | [] => []
  | method :: methods => walkRoutine (.ofMethod method.name.name) method ++ walkMethods methods

end

mutual

theorem perm_uses : (s : Stmt) → (used s.walk).Perm s.uses
  | .expression value => value.perm_uses none
  | .print value => value.perm_uses none
  | .var name initial => Expr.perm_usesOption (some name) initial
  | .block body => by
      simpa [walk, uses] using perm_usesAll body
  | .ifElse condition consequent alternative => by
      rw [walk, used_append, used_append]
      exact ((condition.perm_uses none).append (perm_uses consequent)).append
        (perm_usesOption alternative)
  | .while condition body => by
      rw [walk, used_append]
      exact (condition.perm_uses none).append (perm_uses body)
  | .function decl => perm_usesRoutine .function decl
  | .return _ value => Expr.perm_usesOption none value
  | .class _ none methods => by
      simpa [walk, uses] using perm_usesMethods methods
  | .class _ (some parent) methods => by
      simpa [walk, uses] using (perm_usesMethods methods).cons parent.use

theorem perm_usesAll : (ss : List Stmt) → (used (walkAll ss)).Perm (usesAll ss)
  | [] => .refl _
  | s :: ss => by
      rw [walkAll, used_append]
      exact (perm_uses s).append (perm_usesAll ss)

theorem perm_usesOption : (s? : Option Stmt) → (used (walkOption s?)).Perm (usesOption s?)
  | none => .refl _
  | some s => perm_uses s

theorem perm_usesRoutine (region : Region) :
    (r : Routine Stmt) → (used (walkRoutine region r)).Perm (usesRoutine r)
  | ⟨_, _, body⟩ => by
      simpa [walkRoutine, usesRoutine] using perm_usesAll body

theorem perm_usesMethods :
    (methods : List (Routine Stmt)) → (used (walkMethods methods)).Perm (usesMethods methods)
  | [] => .refl _
  | method :: methods => by
      rw [walkMethods, used_append]
      exact (perm_usesRoutine _ method).append (perm_usesMethods methods)

end

end Stmt

/-! ## The scopes of a class that inherits -/

namespace Walk

/-- The methods of a class that inherits stand in a region of their own inside the one that knows its
superclass. -/
def Furnished (steps : List Step) : Prop :=
  ∀ before name after, steps = before ++ .enter (.derived name) :: after →
    ∃ earlier parent, before = earlier ++ [.enter (.heritage parent)]

namespace Furnished

variable {xs ys : List Step}

/-- Steps that enter no class that inherits. -/
theorem plain (h : ∀ name, .enter (.derived name) ∉ xs) : Furnished xs := by
  rintro before name after rfl
  exact absurd (by simp) (h name)

theorem nil : Furnished [] :=
  plain nofun

theorem append (hx : Furnished xs) (hy : Furnished ys) : Furnished (xs ++ ys) := by
  intro before name after h
  -- Such a class begins in the second part or in the first.
  rcases List.append_eq_append_iff.mp h with ⟨middle, rfl, hys⟩ | ⟨middle, rfl, hafter⟩
  · rcases hy middle name after hys with ⟨earlier, parent, rfl⟩
    exact ⟨xs ++ earlier, parent, (List.append_assoc _ _ _).symm⟩
  · cases middle with
    | nil =>
        -- The second part does not begin with such a class: the step before would be missing.
        rcases hy [] name after hafter.symm with ⟨earlier, parent, hnil⟩
        exact absurd hnil (by simp)
    | cons step middle =>
        cases hafter
        exact hx before name middle rfl

/-- One more step at the front that enters no region. -/
theorem cons (h : Furnished xs) {step : Step} (hstep : ∀ region, step ≠ .enter region) :
    Furnished (step :: xs) := by
  have hsingle : Furnished [step] := plain (by simpa using fun name => (hstep (.derived name)).symm)
  exact hsingle.append h

theorem around {region : Region} (h : Furnished xs) (hregion : ∀ name, region ≠ .derived name) :
    Furnished (region.around xs) := by
  have henter : Furnished [.enter region] := plain (by simpa using fun name => (hregion name).symm)
  have hleave : Furnished [.leave] := plain (by simp)
  exact henter.append (h.append hleave)

theorem inherits (h : Furnished xs) (name parent : Ident) :
    Furnished ((Region.heritage parent).around ((Region.derived name).around xs)) := by
  have henter : Furnished [.enter (.heritage parent), .enter (.derived name)] := by
    intro before other after heq
    cases before with
    | nil =>
        cases heq
    | cons step before =>
        cases before with
        | nil =>
            cases heq
            exact ⟨[], parent, rfl⟩
        | cons next before =>
            -- There are two steps only, so no third one can be such a class.
            have hlength := congrArg List.length heq
            simp at hlength
  have hleave : Furnished [.leave, .leave] := plain (by simp)
  have hregions := henter.append (h.append hleave)
  simpa [Region.around] using hregions

end Furnished

end Walk

namespace Expr

mutual

/-- The steps through an expression are uses. -/
theorem use_of_mem_walk {initialized : Option Ident} {step : Step} :
    (e : Expr) → step ∈ e.walk initialized → ∃ u, step = .use u initialized
  | .literal _ _, h => nomatch h
  | .group _ inner, h => use_of_mem_walk inner h
  | .unary _ _ operand, h => use_of_mem_walk operand h
  | .binary _ _ left right, h =>
      (List.mem_append.mp h).elim (use_of_mem_walk left) (use_of_mem_walk right)
  | .logical _ _ left right, h =>
      (List.mem_append.mp h).elim (use_of_mem_walk left) (use_of_mem_walk right)
  | .var _, h => ⟨_, List.mem_singleton.mp h⟩
  | .assign _ value, h =>
      (List.mem_append.mp h).elim (use_of_mem_walk value) fun h => ⟨_, List.mem_singleton.mp h⟩
  | .call _ callee arguments, h =>
      (List.mem_append.mp h).elim (use_of_mem_walk callee) (use_of_mem_walkAll arguments)
  | .get _ object _, h => use_of_mem_walk object h
  | .set _ object _ value, h =>
      (List.mem_append.mp h).elim (use_of_mem_walk value) (use_of_mem_walk object)
  | .this _, h => ⟨_, List.mem_singleton.mp h⟩
  | .super _ _, h => ⟨_, List.mem_singleton.mp h⟩

theorem use_of_mem_walkAll {initialized : Option Ident} {step : Step} :
    (es : List Expr) → step ∈ walkAll initialized es → ∃ u, step = .use u initialized
  | [], h => nomatch h
  | e :: es, h => (List.mem_append.mp h).elim (use_of_mem_walk e) (use_of_mem_walkAll es)

end

theorem furnished_walk (e : Expr) (initialized : Option Ident) :
    Furnished (e.walk initialized) := by
  apply Furnished.plain
  intro name hmem
  rcases e.use_of_mem_walk hmem with ⟨u, heq⟩
  cases heq

theorem furnished_walkOption (e? : Option Expr) (initialized : Option Ident) :
    Furnished (walkOption initialized e?) := by
  cases e? with
  | none => exact .nil
  | some e => exact furnished_walk e initialized

end Expr

namespace Stmt

theorem ofMethod_ne_derived (method : String) (name : Ident) :
    Region.ofMethod method ≠ .derived name := by
  unfold Region.ofMethod
  split <;> nofun

mutual

theorem furnished_walk : (s : Stmt) → Furnished s.walk
  | .expression value => value.furnished_walk none
  | .print value => value.furnished_walk none
  | .var name initial => (Expr.furnished_walkOption initial (some name)).cons (by nofun)
  | .block body => (furnished_walkAll body).around (by nofun)
  | .ifElse condition consequent alternative =>
      ((condition.furnished_walk none).append (furnished_walk consequent)).append
        (furnished_walkOption alternative)
  | .while condition body => (condition.furnished_walk none).append (furnished_walk body)
  | .function decl => (furnished_walkRoutine (by nofun) decl).cons (by nofun)
  | .return _ value => (Expr.furnished_walkOption value none).cons (by nofun)
  | .class _ none methods => ((furnished_walkMethods methods).around (by nofun)).cons (by nofun)
  | .class name (some parent) methods =>
      ((((furnished_walkMethods methods).inherits name parent.name).cons (by nofun)).cons
        (by nofun)).cons (by nofun)

theorem furnished_walkAll : (ss : List Stmt) → Furnished (walkAll ss)
  | [] => .nil
  | s :: ss => (furnished_walk s).append (furnished_walkAll ss)

theorem furnished_walkOption : (s? : Option Stmt) → Furnished (walkOption s?)
  | none => .nil
  | some s => furnished_walk s

theorem furnished_walkRoutine {region : Region} (hregion : ∀ name, region ≠ .derived name) :
    (r : Routine Stmt) → Furnished (walkRoutine region r)
  | ⟨_, parameters, body⟩ => by
      have hparameters : Furnished (parameters.map .declare) := .plain (by simp)
      exact (hparameters.append (furnished_walkAll body)).around hregion

theorem furnished_walkMethods : (methods : List (Routine Stmt)) → Furnished (walkMethods methods)
  | [] => .nil
  | method :: methods =>
      (furnished_walkRoutine (ofMethod_ne_derived _) method).append (furnished_walkMethods methods)

end

end Stmt

/-! ## Numbers -/

/-- The use that an expression is itself. -/
def Expr.use? : Expr → Option Use
  | .var target => some target.use
  | .assign target _ => some ⟨target.node, .assign target.name.name⟩
  | .this node => some ⟨node, .this⟩
  | .super node method => some ⟨node, .super method.name⟩
  | _ => none

theorem Expr.number_of_use? {e : Expr} {u : Use} (h : e.use? = some u) : u.node.id = e.number := by
  cases e <;> cases h <;> rfl

theorem Expr.sublist_number_use? (es : List Expr) :
    ((es.filterMap Expr.use?).map fun u => u.node.id).Sublist (es.map Expr.number) := by
  induction es with
  | nil =>
      exact .refl _
  | cons e es ih =>
      cases huse : e.use? with
      | none =>
          rw [List.filterMap_cons_none huse]
          exact ih.cons e.number
      | some u =>
          rw [List.filterMap_cons_some huse, List.map_cons, List.map_cons, number_of_use? huse]
          exact ih.cons_cons e.number

mutual

/-- The walk comes to the parts of an expression in their order. -/
theorem Expr.used_walk (initialized : Option Ident) :
    (e : Expr) → used (e.walk initialized) = e.parts.filterMap Expr.use?
  | .literal _ _ => rfl
  | .group _ inner => by simp [walk, parts, use?, used_walk initialized inner]
  | .unary _ _ operand => by simp [walk, parts, use?, used_walk initialized operand]
  | .binary _ _ left right => by
      simp [walk, parts, use?, used_walk initialized left, used_walk initialized right]
  | .logical _ _ left right => by
      simp [walk, parts, use?, used_walk initialized left, used_walk initialized right]
  | .var _ => rfl
  | .assign _ value => by simp [walk, parts, use?, used_walk initialized value]
  | .call _ callee arguments => by
      simp [walk, parts, use?, used_walk initialized callee, used_walkAll initialized arguments]
  | .get _ object _ => by simp [walk, parts, use?, used_walk initialized object]
  | .set _ object _ value => by
      simp [walk, parts, use?, used_walk initialized value, used_walk initialized object]
  | .this _ => rfl
  | .super _ _ => rfl

theorem Expr.used_walkAll (initialized : Option Ident) :
    (es : List Expr) → used (walkAll initialized es) = (partsAll es).filterMap Expr.use?
  | [] => rfl
  | e :: es => by simp [walkAll, partsAll, used_walk initialized e, used_walkAll initialized es]

end

theorem Expr.used_walkOption (initialized : Option Ident) (e? : Option Expr) :
    used (walkOption initialized e?) = (e?.toList.flatMap parts).filterMap Expr.use? := by
  cases e? with
  | none => rfl
  | some e => simp [walkOption, used_walk]

namespace Stmt

mutual

theorem used_walk : (s : Stmt) → used s.walk = (expressions s.parts).filterMap Expr.use?
  | .expression value => by simp [walk, parts, operands, value.used_walk]
  | .print value => by simp [walk, parts, operands, value.used_walk]
  | .var _ initial => by simp [walk, parts, operands, Expr.used_walkOption]
  | .block body => by simp [walk, parts, operands, used_walkAll body]
  | .ifElse condition consequent alternative => by
      simp [walk, parts, operands, condition.used_walk, used_walk consequent,
        used_walkOption alternative]
  | .while condition body => by
      simp [walk, parts, operands, condition.used_walk, used_walk body]
  | .function decl => by simp [walk, parts, operands, used_walkRoutine .function decl]
  | .return _ value => by
      simp [walk, parts, operands, used_cons, Step.use?, Expr.used_walkOption]
  | .class _ none methods => by simp [walk, parts, operands, used_walkMethods methods]
  | .class _ (some parent) methods => by
      simp [walk, parts, operands, Expr.parts, Expr.use?, used_walkMethods methods]

theorem used_walkAll :
    (ss : List Stmt) → used (walkAll ss) = (expressions (partsAll ss)).filterMap Expr.use?
  | [] => rfl
  | s :: ss => by simp [walkAll, partsAll, used_walk s, used_walkAll ss]

theorem used_walkOption :
    (s? : Option Stmt) → used (walkOption s?) = (expressions (partsOption s?)).filterMap Expr.use?
  | none => rfl
  | some s => used_walk s

theorem used_walkRoutine (region : Region) :
    (r : Routine Stmt) →
      used (walkRoutine region r) = (expressions (partsRoutine r)).filterMap Expr.use?
  | ⟨_, _, body⟩ => by simp [walkRoutine, partsRoutine, used_walkAll body]

theorem used_walkMethods :
    (methods : List (Routine Stmt)) →
      used (walkMethods methods) = (expressions (partsMethods methods)).filterMap Expr.use?
  | [] => rfl
  | method :: methods => by
      simp [walkMethods, partsMethods, used_walkRoutine _ method, used_walkMethods methods]

end

/-- The uses in a program that was read have numbers of their own. -/
theorem nodup_numbers_of_readAll {ss : List Stmt} {low high : Nat}
    (h : ReadAll low high (partsAll ss)) : ((usesAll ss).map fun u => u.node.id).Nodup := by
  have hnumbers : ((expressions (partsAll ss)).map Expr.number).Nodup := h.expressions.fresh.1
  have hsublist : ((used (walkAll ss)).map fun u => u.node.id).Sublist
      ((expressions (partsAll ss)).map Expr.number) := by
    rw [used_walkAll]
    exact Expr.sublist_number_use? _
  exact ((perm_usesAll ss).map _).nodup_iff.mp (hsublist.nodup hnumbers)

end Stmt

end Lox
