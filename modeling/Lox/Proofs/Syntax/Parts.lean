import Lox.Syntax.Statement

/-!
# The parts of a tree

The expressions and the statements that a tree is made of, in the order in which scope resolution
comes to them, and what a tree that was read is known to have: numbers of its own from a given
range, names that are no reserved words, and branches that declare nothing.

`Expr.Read` and `Stmt.Read` collect these facts; `Lox.Proofs.Syntax.Reading` proves them of every
tree that is read.
-/

namespace Lox

/-! ## Ranges of numbers -/

/-- The numbers are different and lie between `low` and `high`, the latter excluded. -/
def Fresh (low high : Nat) (numbers : List Nat) : Prop :=
  numbers.Nodup ∧ ∀ n ∈ numbers, low ≤ n ∧ n < high

namespace Fresh

variable {low mid high : Nat} {xs ys : List Nat}

theorem nil : Fresh low high [] :=
  ⟨List.nodup_nil, by simp⟩

theorem single (h : low ≤ mid) : Fresh low (mid + 1) [mid] := by
  refine ⟨by simp, ?_⟩
  intro n hn
  rw [List.mem_singleton] at hn
  omega

theorem mono {low' high' : Nat} (h : Fresh low high xs) (hlow : low' ≤ low)
    (hhigh : high ≤ high') : Fresh low' high' xs := by
  refine ⟨h.1, ?_⟩
  intro n hn
  have hn' := h.2 n hn
  omega

theorem append (hx : Fresh low mid xs) (hy : Fresh mid high ys) (hlow : low ≤ mid)
    (hhigh : mid ≤ high) : Fresh low high (xs ++ ys) := by
  refine ⟨?_, ?_⟩
  · rw [List.nodup_append]
    refine ⟨hx.1, hy.1, ?_⟩
    intro a ha b hb
    have ha' := hx.2 a ha
    have hb' := hy.2 b hb
    omega
  · intro n hn
    rcases List.mem_append.mp hn with hn | hn
    · have hn' := hx.2 n hn
      omega
    · have hn' := hy.2 n hn
      omega

theorem perm (h : Fresh low high xs) (hp : xs.Perm ys) : Fresh low high ys := by
  refine ⟨hp.nodup_iff.mp h.1, ?_⟩
  intro n hn
  exact h.2 n (hp.mem_iff.mpr hn)

end Fresh

/-! ## Expressions -/

namespace Expr

/-- The number of an expression. -/
def number (e : Expr) : Nat :=
  e.node.id

mutual

/-- The expressions that an expression is made of. It comes last itself. -/
def parts : Expr → List Expr
  | .literal node value => [.literal node value]
  | .group node inner => parts inner ++ [.group node inner]
  | .unary node op operand => parts operand ++ [.unary node op operand]
  | .binary node op left right => parts left ++ parts right ++ [.binary node op left right]
  | .logical node op left right => parts left ++ parts right ++ [.logical node op left right]
  | .var target => [.var target]
  | .assign target value => parts value ++ [.assign target value]
  | .call node callee arguments =>
      parts callee ++ partsAll arguments ++ [.call node callee arguments]
  | .get id object name => parts object ++ [.get id object name]
  | .set id object name value => parts value ++ parts object ++ [.set id object name value]
  | .this node => [.this node]
  | .super node method => [.super node method]

/-- The expressions that expressions are made of. -/
def partsAll : List Expr → List Expr
  | [] => []
  | e :: es => parts e ++ partsAll es

end

theorem parts_subset_partsAll {e : Expr} {es : List Expr} (h : e ∈ es) :
    e.parts ⊆ partsAll es := by
  induction es with
  | nil => cases h
  | cons other es ih =>
      rcases List.mem_cons.mp h with rfl | h
      · exact List.subset_append_left _ _
      · exact List.subset_append_of_subset_right _ (ih h)

theorem mem_parts_self (e : Expr) : e ∈ e.parts := by
  cases e <;> simp [parts]

/-- The names that are written in an expression itself. -/
def idents : Expr → List Ident
  | .var target => [target.name]
  | .assign target _ => [target.name]
  | .get _ _ name => [name]
  | .set _ _ name _ => [name]
  | .super _ method => [method]
  | _ => []

end Expr

/-- A name that is no reserved word. -/
def Ident.IsWord (i : Ident) : Prop :=
  Keyword.ofText? i.name = none

theorem Ident.IsWord.ne_this {i : Ident} (h : i.IsWord) : i.name ≠ thisName := by
  intro he
  rw [Ident.IsWord, he] at h
  exact absurd h (by decide)

theorem Ident.IsWord.ne_super {i : Ident} (h : i.IsWord) : i.name ≠ superName := by
  intro he
  rw [Ident.IsWord, he] at h
  exact absurd h (by decide)

/-- What is known of expressions that were read while numbers from `low` to `high` were given. -/
structure Expr.ReadAll (low high : Nat) (es : List Expr) : Prop where
  fresh : Fresh low high (es.map Expr.number)
  words : ∀ e ∈ es, ∀ i ∈ e.idents, i.IsWord

namespace Expr.ReadAll

variable {low mid high : Nat} {es fs : List Expr}

theorem nil : ReadAll low high [] :=
  ⟨.nil, by simp⟩

theorem single {e : Expr} (hlow : low ≤ mid) (he : e.number = mid)
    (hwords : ∀ i ∈ e.idents, i.IsWord) : ReadAll low (mid + 1) [e] := by
  refine ⟨?_, ?_⟩
  · simpa [he] using Fresh.single hlow
  · intro f hf
    rw [List.mem_singleton] at hf
    subst hf
    exact hwords

theorem mono {low' high' : Nat} (h : ReadAll low high es) (hlow : low' ≤ low)
    (hhigh : high ≤ high') : ReadAll low' high' es :=
  ⟨h.fresh.mono hlow hhigh, h.words⟩

theorem append (hx : ReadAll low mid es) (hy : ReadAll mid high fs) (hlow : low ≤ mid)
    (hhigh : mid ≤ high) : ReadAll low high (es ++ fs) := by
  refine ⟨?_, ?_⟩
  · rw [List.map_append]
    exact hx.fresh.append hy.fresh hlow hhigh
  · intro e he
    rcases List.mem_append.mp he with he | he
    · exact hx.words e he
    · exact hy.words e he

theorem of_append_left (h : ReadAll low high (es ++ fs)) : ReadAll low high es := by
  have hfresh := h.fresh
  rw [List.map_append] at hfresh
  refine ⟨⟨(List.nodup_append.mp hfresh.1).1, ?_⟩, ?_⟩
  · intro n hn
    exact hfresh.2 n (List.mem_append_left _ hn)
  · intro e he
    exact h.words e (List.mem_append_left _ he)

theorem perm (h : ReadAll low high es) (hp : es.Perm fs) : ReadAll low high fs := by
  refine ⟨h.fresh.perm (hp.map _), ?_⟩
  intro e he
  exact h.words e (hp.mem_iff.mpr he)

end Expr.ReadAll

/-- What is known of an expression that was read while numbers from `low` to `high` were given. -/
abbrev Expr.Read (low high : Nat) (e : Expr) : Prop :=
  Expr.ReadAll low high e.parts

/-! ## Statements -/

namespace Stmt

mutual

/-- The statements that a statement is made of, those in functions and methods included. It comes
first itself. -/
def parts : Stmt → List Stmt
  | .expression value => [.expression value]
  | .print value => [.print value]
  | .var name initial => [.var name initial]
  | .block body => .block body :: partsAll body
  | .ifElse condition consequent alternative =>
      .ifElse condition consequent alternative :: (parts consequent ++ partsOption alternative)
  | .while condition body => .while condition body :: parts body
  | .function decl => .function decl :: partsRoutine decl
  | .return keyword value => [.return keyword value]
  | .class name parent methods => .class name parent methods :: partsMethods methods

/-- The statements that statements are made of. -/
def partsAll : List Stmt → List Stmt
  | [] => []
  | s :: ss => parts s ++ partsAll ss

/-- The statements that a statement which may be missing is made of. -/
def partsOption : Option Stmt → List Stmt
  | none => []
  | some s => parts s

/-- The statements that the body of a function is made of. -/
def partsRoutine : Routine Stmt → List Stmt
  | ⟨_, _, body⟩ => partsAll body

/-- The statements that the bodies of methods are made of. -/
def partsMethods : List (Routine Stmt) → List Stmt
  | [] => []
  | method :: methods => partsRoutine method ++ partsMethods methods

end

/-- The expressions that stand in a statement itself. The superclass of a class is one. -/
def operands : Stmt → List Expr
  | .expression value => [value]
  | .print value => [value]
  | .var _ initial => initial.toList
  | .ifElse condition _ _ => [condition]
  | .while condition _ => [condition]
  | .return _ value => value.toList
  | .class _ parent _ => (parent.map Expr.var).toList
  | .block _ | .function _ => []

/-- The names that a routine declares in its own scope, and its own name. -/
def routineIdents (r : FunctionDecl) : List Ident :=
  r.name :: r.parameters

/-- The names that are written in a statement itself. -/
def idents : Stmt → List Ident
  | .var name _ => [name]
  | .function decl => routineIdents decl
  | .class name _ methods => name :: methods.flatMap routineIdents
  | _ => []

/-- The name that a statement declares in the scope it stands in. -/
def declares? : Stmt → Option Ident
  | .var name _ => some name
  | .function decl => some decl.name
  | .class name _ _ => some name
  | _ => none

/-- The names that a statement declares, in its own scope and in those of its functions: variables,
functions, classes and parameters. -/
def binders : Stmt → List Ident
  | .var name _ => [name]
  | .function decl => decl.name :: decl.parameters
  | .class name _ methods => name :: methods.flatMap Routine.parameters
  | _ => []

/-- The branches of an `if` and the body of a loop declare nothing. -/
def BranchesPlain : Stmt → Prop
  | .ifElse _ consequent alternative =>
      consequent.declares? = none ∧ ∀ s ∈ alternative, s.declares? = none
  | .while _ body => body.declares? = none
  | _ => True

mutual

/-- The names that a statement declares in the scope it stands in, also where a branch or the body of a
loop is a declaration. -/
def declarations : Stmt → List Ident
  | .var name _ => [name]
  | .function decl => [decl.name]
  | .class name _ _ => [name]
  | .ifElse _ consequent alternative => declarations consequent ++ declarationsOption alternative
  | .while _ body => declarations body
  | _ => []

/-- The names that a statement declares that may be missing. -/
def declarationsOption : Option Stmt → List Ident
  | none => []
  | some s => declarations s

end

/-- A statement whose branches declare nothing declares one name at most. -/
theorem declarations_of_plain :
    (s : Stmt) → (∀ t ∈ s.parts, t.BranchesPlain) → s.declarations = s.declares?.toList
  | .expression _, _ | .print _, _ | .var _ _, _ | .block _, _ | .function _, _ | .return _ _, _
  | .class _ _ _, _ => rfl
  | .ifElse condition consequent none, h => by
      have hplain : (ifElse condition consequent none).BranchesPlain := h _ (by simp [parts])
      have hconsequent := declarations_of_plain consequent fun t ht => h t (by simp [parts, ht])
      rw [declarations, hconsequent, hplain.1]
      rfl
  | .ifElse condition consequent (some alternative), h => by
      have hplain : (ifElse condition consequent (some alternative)).BranchesPlain :=
        h _ (by simp [parts])
      have hconsequent := declarations_of_plain consequent fun t ht => h t (by simp [parts, ht])
      have halternative := declarations_of_plain alternative fun t ht =>
        h t (by simp [parts, partsOption, ht])
      rw [declarations, declarationsOption, hconsequent, halternative, hplain.1,
        hplain.2 alternative rfl]
      rfl
  | .while condition body, h => by
      have hplain : (Stmt.while condition body).BranchesPlain := h _ (by simp [parts])
      have hbody := declarations_of_plain body fun t ht => h t (by simp [parts, ht])
      rw [declarations, hbody, hplain]
      rfl

/-- The names that statements declare. -/
def bindersAll (ss : List Stmt) : List Ident :=
  ss.flatMap binders

@[simp] theorem bindersAll_nil : bindersAll [] = [] :=
  rfl

theorem bindersAll_append (ss ts : List Stmt) :
    bindersAll (ss ++ ts) = bindersAll ss ++ bindersAll ts :=
  List.flatMap_append

/-- The expressions that occur in statements. -/
def expressions (ss : List Stmt) : List Expr :=
  ss.flatMap fun s => s.operands.flatMap Expr.parts

@[simp] theorem expressions_nil : expressions [] = [] :=
  rfl

@[simp] theorem expressions_cons (s : Stmt) (ss : List Stmt) :
    expressions (s :: ss) = s.operands.flatMap Expr.parts ++ expressions ss := by
  simp [expressions]

@[simp] theorem expressions_append (ss ts : List Stmt) :
    expressions (ss ++ ts) = expressions ss ++ expressions ts := by
  simp [expressions]

theorem partsRoutine_eq (r : FunctionDecl) : partsRoutine r = partsAll r.body := by
  cases r
  rfl

theorem mem_parts_self (s : Stmt) : s ∈ s.parts := by
  cases s <;> simp [parts]

theorem mem_idents_of_declares? {s : Stmt} {name : Ident} (h : s.declares? = some name) :
    name ∈ s.idents := by
  cases s <;> simp_all [declares?, idents, routineIdents]

theorem partsAll_append (ss ts : List Stmt) : partsAll (ss ++ ts) = partsAll ss ++ partsAll ts := by
  induction ss with
  | nil =>
      rfl
  | cons s ss ih =>
      simp [partsAll, ih]

/-- What is known of every statement that was read: the names that are written in it are no reserved
words, and its branches declare nothing. -/
structure Sound (ss : List Stmt) : Prop where
  words : ∀ s ∈ ss, ∀ i ∈ s.idents, i.IsWord
  plain : ∀ s ∈ ss, s.BranchesPlain

namespace Sound

variable {s : Stmt} {ss ts : List Stmt}

theorem left (h : Sound (ss ++ ts)) : Sound ss :=
  ⟨fun s hs => h.words s (List.mem_append_left _ hs),
    fun s hs => h.plain s (List.mem_append_left _ hs)⟩

theorem right (h : Sound (ss ++ ts)) : Sound ts :=
  ⟨fun s hs => h.words s (List.mem_append_right _ hs),
    fun s hs => h.plain s (List.mem_append_right _ hs)⟩

theorem tail (h : Sound (s :: ss)) : Sound ss :=
  ⟨fun t ht => h.words t (List.mem_cons_of_mem _ ht),
    fun t ht => h.plain t (List.mem_cons_of_mem _ ht)⟩

end Sound

/-- What is known of statements that were read while numbers from `low` to `high` were given. -/
structure ReadAll (low high : Nat) (ss : List Stmt) : Prop where
  expressions : Expr.ReadAll low high (expressions ss)
  words : ∀ s ∈ ss, ∀ i ∈ s.idents, i.IsWord
  plain : ∀ s ∈ ss, s.BranchesPlain

namespace ReadAll

variable {low mid high : Nat} {ss ts : List Stmt}

theorem nil : ReadAll low high [] :=
  ⟨.nil, by simp, by simp⟩

theorem sound (h : ReadAll low high ss) : Sound ss :=
  ⟨h.words, h.plain⟩

theorem mono {low' high' : Nat} (h : ReadAll low high ss) (hlow : low' ≤ low)
    (hhigh : high ≤ high') : ReadAll low' high' ss :=
  ⟨h.expressions.mono hlow hhigh, h.words, h.plain⟩

theorem append (hx : ReadAll low mid ss) (hy : ReadAll mid high ts) (hlow : low ≤ mid)
    (hhigh : mid ≤ high) : ReadAll low high (ss ++ ts) := by
  refine ⟨?_, ?_, ?_⟩
  · rw [expressions_append]
    exact hx.expressions.append hy.expressions hlow hhigh
  · intro s hs
    rcases List.mem_append.mp hs with hs | hs
    · exact hx.words s hs
    · exact hy.words s hs
  · intro s hs
    rcases List.mem_append.mp hs with hs | hs
    · exact hx.plain s hs
    · exact hy.plain s hs

theorem perm (h : ReadAll low high ss) (hp : ss.Perm ts) : ReadAll low high ts := by
  refine ⟨h.expressions.perm (hp.flatMap_right _), ?_, ?_⟩
  · intro s hs
    exact h.words s (hp.mem_iff.mpr hs)
  · intro s hs
    exact h.plain s (hp.mem_iff.mpr hs)

/-- A statement before others, whose own expressions were read before them. -/
theorem cons {s : Stmt} (hown : Expr.ReadAll low mid (s.operands.flatMap Expr.parts))
    (hwords : ∀ i ∈ s.idents, i.IsWord) (hplain : s.BranchesPlain)
    (hy : ReadAll mid high ss) (hlow : low ≤ mid) (hhigh : mid ≤ high) :
    ReadAll low high (s :: ss) := by
  refine ⟨?_, ?_, ?_⟩
  · rw [expressions_cons]
    exact hown.append hy.expressions hlow hhigh
  · simpa using ⟨hwords, hy.words⟩
  · simpa using ⟨hplain, hy.plain⟩

end ReadAll

/-- What is known of a statement that was read while numbers from `low` to `high` were given. -/
abbrev Read (low high : Nat) (s : Stmt) : Prop :=
  ReadAll low high s.parts

end Stmt

end Lox
